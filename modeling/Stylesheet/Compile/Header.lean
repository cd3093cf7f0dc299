import Stylesheet.Compile.Registry
import Stylesheet.Text.Case

/-!
# Headers of directives

The grammar of what stands before a body: directives and their shorthands, calls with
their arguments, parameters with their defaults, and the headers of loops.

## Main definitions

* `expandShorthand`, `splitDirective` — what directive a header is
* `splitCall`, `splitArgs`, `parseParams` — calls and definitions
* `ForHeader.parse?`, `EachHeader.parse?` — loops
* `parseFlag` — switches
-/

namespace Stylesheet

open Text

/-- `+name(args)` means `@include`, with `+name: arg` for a single argument, and
`=name(params)` means `@mixin`. -/
def expandShorthand (header : Text) : Text :=
  match header with
  | c :: rest =>
    if c = ch '+' then
      let call :=
        match findByte (fun d => d = ch ':' || d = ch '(') rest with
        | some i =>
          if at0 rest i = ch ':' then rest.take i ++ ch '(' :: trim (rest.drop (i + 1)) ++ [ch ')']
          else rest
        | none => rest
      of "@include " ++ call
    else if c = ch '=' then of "@mixin " ++ trim rest
    else header
  | [] => header

/-- The keyword of a directive in lower case, and what follows it. -/
def splitDirective (header : Text) : Text × Text :=
  let header := trim header
  match findByte isSpace header with
  | some i => (lower (header.take i), trim (header.drop (i + 1)))
  | none => (lower header, [])

/-- Without the quotation marks around it, if there are any. -/
def dequote (t : Text) : Text :=
  let t := trim t
  if t.length ≥ 2 && isQuote (head0 t) && t.getLast? = t.head? then (t.drop 1).dropLast else t

/-- The name and the arguments of `name(args)`. -/
def splitCall (t : Text) : Text × Text :=
  let t := trim t
  match indexOf (ch '(') t with
  | none => (t, [])
  | some i =>
    let stop :=
      match lastIndexOf (ch ')') t with
      | some j => if j < i then t.length else j
      | none => t.length
    (trim (t.take i), slice t (i + 1) stop)

/-- The parts between commas outside quotes and brackets, `part` being the one under
way, last byte first. A backslash in quotes escapes the byte after it. -/
def splitArgsFrom : Nesting → (escaped : Bool) → (part : Text) → Text → List Text
  | _, _, part, [] => [part.reverse]
  | s, escaped, part, c :: r =>
    match s.quote with
    | some q =>
      if escaped then splitArgsFrom s false (c :: part) r
      else if c = ch '\\' then splitArgsFrom s true (c :: part) r
      else splitArgsFrom (if c = q then { s with quote := none } else s) false (c :: part) r
    | none =>
      if c = ch ',' && s.depth = 0 then part.reverse :: splitArgsFrom s false [] r
      else splitArgsFrom (s.pass c) false (c :: part) r

/-- The arguments of a call, split at commas outside quotes and brackets. -/
def splitArgs (t : Text) : List Text := if isBlank t then [] else splitArgsFrom {} false [] t

/-- The arguments of a call that are not blank, trimmed. -/
def argTexts (t : Text) : List Text := ((splitArgs t).map trim).filter fun a => !a.isEmpty

/-- The names of parameters and the texts of their defaults. -/
def parseParams (t : Text) : List Text × List (Text × Text) :=
  (argTexts t).foldl
    (fun (params, defaults) p =>
      match cut (ch ':') p with
      | some (name, default) =>
        let name := sigil (trim name)
        (params ++ [name], assign name (trim default) defaults)
      | none => (params ++ [sigil p], defaults))
    ([], [])

/-- The variable a text starts with, and the rest. -/
def leadingVar? (t : Text) : Option (Text × Text) :=
  match t with
  | c :: r =>
    let name := r.takeWhile isName
    if c = ch '$' && !name.isEmpty then some (c :: name, r.drop name.length) else none
  | [] => none

/-- Without leading CSS white space. -/
def skipSpace (t : Text) : Text := t.dropWhile isSpace

/-- What follows leading CSS white space, of which there must be some. -/
def skipSomeSpace? (t : Text) : Option Text :=
  if isSpace (head0 t) then some (skipSpace t) else none

/-- The name and value of an argument passed by name. -/
def keywordArg? (t : Text) : Option (Text × Text) :=
  (leadingVar? t).bind fun (_, rest) =>
    if head0 (skipSpace rest) = ch ':' then
      (cut (ch ':') t).map fun (name, v) => (trim name, v)
    else none

/-- What follows a word between white space. -/
def spacedWord? (word : Text) (t : Text) : Option Text :=
  (skipSomeSpace? t).bind fun t => (after? t word).bind skipSomeSpace?

/-- A text on one line, not empty. -/
def oneLine? (t : Text) : Option Text :=
  if t.isEmpty || hasByte t (ch '\n') then none else some t

/-- The header of a counting loop. -/
structure ForHeader where
  var : Text
  first : Text
  last : Text
  /-- The last number belongs to the range. -/
  through : Bool
  deriving DecidableEq

namespace ForHeader

/-- The end of the range: `through` or `to`, and a text on one line. -/
def bound? (t : Text) : Option (Bool × Text) :=
  let tail (word : String) : Option Text := (spacedWord? (of word) t).bind oneLine?
  match tail "through" with
  | some last => some (true, last)
  | none => (tail "to").map (false, ·)

/-- Splits a text at the first place where the end of the range follows; the part before
it, given last byte first, is not empty and on one line. -/
def splitBound? : (before : Text) → Text → Option (Text × Bool × Text)
  | _, [] => none
  | before, c :: r =>
    let here := if before.isEmpty then none else bound? (c :: r)
    match here with
    | some (through, last) => some (before.reverse, through, last)
    | none => if c = ch '\n' then none else splitBound? (c :: before) r

/-- Splits a text that starts with `space` bytes of white space, leaving as few of them
as possible to the part before the end of the range. -/
def splitFrom? (t : Text) : (space : Nat) → Option (Text × Bool × Text)
  | 0 => none
  | n + 1 =>
    match splitBound? [] (t.drop (n + 1)) with
    | some found => some found
    | none => splitFrom? t n

/-- Reads `$var from first through last`, or with `to` in place of `through`. -/
def parse? (t : Text) : Option ForHeader :=
  (leadingVar? t).bind fun (var, rest) =>
    (skipSomeSpace? rest).bind fun rest =>
      (after? rest (of "from")).bind fun rest =>
        (splitFrom? rest (rest.takeWhile isSpace).length).map fun (first, through, last) =>
          ⟨var, first, last, through⟩

end ForHeader

/-- The header of a loop over a list. -/
structure EachHeader where
  first : Text
  second : Option Text
  list : Text
  deriving DecidableEq

/-- Reads `$var in list` or `$key, $var in list`. -/
def EachHeader.parse? (t : Text) : Option EachHeader :=
  (leadingVar? t).bind fun (first, rest) =>
    let members (t : Text) : Option Text := (spacedWord? (of "in") t).bind oneLine?
    let second :=
      (after? (skipSpace rest) [ch ',']).bind fun rest => leadingVar? (skipSpace rest)
    match second.bind fun (name, rest) => (members rest).map (name, ·) with
    | some (name, list) => some ⟨first, some name, list⟩
    | none => (members rest).map fun list => ⟨first, none, list⟩

/-- What a switch is set to; `default` for words that are none of the usual. -/
def parseFlag (t : Text) (default : Bool) : Bool :=
  let word := lower (trim t)
  if ["1", "true", "t", "yes", "y", "on"].any (of · = word) then true
  else if ["0", "false", "f", "no", "n", "off"].any (of · = word) then false
  else default

end Stylesheet
