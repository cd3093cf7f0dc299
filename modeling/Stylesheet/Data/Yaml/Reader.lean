import Stylesheet.Data.Yaml

/-!
# Reading YAML

Lines are read one after the other. A line that starts with a dash is an item, one with a
colon after a key is a field, and what follows the dash or the colon is the value, or
else the lines below that are indented deeper. A value in brackets or quotes can go on
over lines whatever their indentation, and a plain one over lines that are indented
deeper. Of several documents the first one is read.

Anchors, tags and block scalars are not read: the characters they start with cannot start
a value.

## Main definitions

* `Yaml.plainSpan`, `Yaml.quotedText?` — scalars
* `Yaml.flowNode` — nodes in brackets
* `Yaml.blockNode` — nodes by indentation
* `Yaml.parse` — the node of a text
-/

namespace Stylesheet.Yaml

open Text

/-- The failure with a problem in what starts at one line and is met at another. -/
def failed {α : Type} (problem : Problem) (start met : Nat) : Except ReadError α :=
  .error ⟨problem, start, met⟩

/-! ### Scalars -/

/-- A blank or the end of the text comes first. -/
def blankNext (t : Text) : Bool := t.isEmpty || isSpace (head0 t)

/-- A byte that ends a plain scalar in brackets. -/
def endsFlow (c : UInt8) : Bool :=
  c = ch ',' || c = ch '[' || c = ch ']' || c = ch '\x7b' || c = ch '\x7d'

/-- A plain scalar can start here. In brackets it cannot start with a colon or a question
mark. -/
def startsPlain (flow : Bool) : Text → Bool
  | [] => false
  | c :: r =>
    if c = ch '-' then !blankNext r
    else if c = ch '?' || c = ch ':' then !flow && !blankNext r
    else !(isSpace c || endsFlow c || isQuote c || (of "#&*!|>%@\x60").contains c)

/-- The plain scalar that a text starts with, up to a comment, a colon before a blank,
or, in brackets, a comma or bracket. `blank` says that a blank came before. -/
def plainSpan (flow : Bool) : (blank : Bool) → Text → Text
  | _, [] => []
  | blank, c :: r =>
    if (c = ch ':' && blankNext r) || (blank && c = ch '#') || (flow && endsFlow c) then []
    else c :: plainSpan flow (isSpace c) r

/-- Lines put together: a line end is a blank, and each empty line a line end. `gap` is
the number of line ends since the last line that is not empty. -/
def foldLinesFrom : (gap : Nat) → List Text → Text
  | _, [] => []
  | gap, l :: rest =>
    if l.isEmpty then foldLinesFrom (gap + 1) rest
    else (if gap = 1 then [ch ' '] else List.replicate (gap - 1) (ch '\n')) ++
      l ++ foldLinesFrom 1 rest

/-- The text of a plain scalar: blanks around its lines do not count. -/
def foldLines (ls : List Text) : Text := foldLinesFrom 0 (ls.map trim)

/-- A blank or line end. -/
def isBlankChar (c : Char) : Bool := c = ' ' || c = '\t' || c = '\n' || c = '\r'

/-- What a run of blanks in quotes stands for: itself, or, with line ends in it, a blank
for one and a line end for each one more. -/
def foldBlanks (run : List Char) : List Char :=
  match run.count '\n' with
  | 0 => run
  | 1 => [' ']
  | n + 1 => List.replicate n '\n'

/-- The value of an escape's letter in double quotes. -/
def escapeChar? (c : Char) : Option Char :=
  match c with
  | 'n' => some '\n'
  | 't' => some '\t'
  | 'r' => some '\r'
  | '0' => some (Char.ofNat 0)
  | 'a' => some (Char.ofNat 7)
  | 'b' => some (Char.ofNat 8)
  | 'e' => some (Char.ofNat 27)
  | 'f' => some (Char.ofNat 12)
  | 'v' => some (Char.ofNat 11)
  | '"' => some '"'
  | '\\' => some '\\'
  | '/' => some '/'
  | ' ' => some ' '
  | _ => none

/-- The value of hexadecimal digits. -/
def hexNumber (cs : List Char) : Nat := (cs.map ch).foldl (fun n c => n * 16 + hexValue c) 0

/-- What an escape stands for, and how many characters it has after its backslash. An
escaped line end stands for nothing, with the blanks after it. -/
def escape (cs : List Char) : List Char × Nat :=
  match cs with
  | [] => ([], 0)
  | c :: r =>
    let width := if c = 'x' then 2 else if c = 'u' then 4 else if c = 'U' then 8 else 0
    if width > 0 then ([Char.ofNat (hexNumber (r.take width))], 1 + width)
    else if c = '\n' then ([], 1 + (r.takeWhile isBlankChar).length)
    else ([(escapeChar? c).getD c], 1)

/-- A double-quoted text after its quote, with escapes resolved, and what follows it;
`skip` characters are still to pass. -/
def doubleQuoted : (skip : Nat) → List Char → Option (List Char × List Char)
  | _, [] => none
  | k + 1, _ :: r => doubleQuoted k r
  | 0, c :: r =>
    if c = '"' then some ([], r)
    else if c = '\\' then
      let (value, width) := escape r
      (doubleQuoted width r).map fun (s, rest) => (value ++ s, rest)
    else if isBlankChar c then
      let run := r.takeWhile isBlankChar
      (doubleQuoted run.length r).map fun (s, rest) => (foldBlanks (c :: run) ++ s, rest)
    else (doubleQuoted 0 r).map fun (s, rest) => (c :: s, rest)

/-- A single-quoted text after its quote, two quotes standing for one, and what follows
it; `skip` characters are still to pass. -/
def singleQuoted : (skip : Nat) → List Char → Option (List Char × List Char)
  | _, [] => none
  | k + 1, _ :: r => singleQuoted k r
  | 0, c :: r =>
    if c = '\'' then
      if r.head? = some '\'' then (singleQuoted 1 r).map fun (s, rest) => (c :: s, rest)
      else some ([], r)
    else if isBlankChar c then
      let run := r.takeWhile isBlankChar
      (singleQuoted run.length r).map fun (s, rest) => (foldBlanks (c :: run) ++ s, rest)
    else (singleQuoted 0 r).map fun (s, rest) => (c :: s, rest)

/-- A quoted text and what follows it. -/
def quotedText? (t : Text) : Option (Text × Text) :=
  let chars := (Text.asString (t.drop 1)).toList
  let read := if head0 t = ch '"' then doubleQuoted 0 chars else singleQuoted 0 chars
  read.map fun (s, rest) => (of (String.ofList s), of (String.ofList rest))

/-- The failure of an alias, which names a node that has no name here. -/
def aliasFailure {α : Type} (n : Nat) (t : Text) : Except ReadError α :=
  let name := (t.drop 1).takeWhile isName
  let rest := t.drop (1 + name.length)
  if name.isEmpty || !(blankNext rest || (of "?:,]\x7d%@\x60").contains (head0 rest)) then
    failed .badAlias n n
  else failed (.unknownAnchor name) n n

/-! ### Nodes in brackets -/

/-- A place in a text: the line, and the text from there on. -/
structure Cursor where
  line : Nat
  rest : Text

/-- How many line ends a text has. -/
def lineEnds (t : Text) : Nat := t.count (ch '\n')

/-- The place where `rest`, the end of the text, starts. -/
def Cursor.moved (c : Cursor) (rest : Text) : Cursor :=
  ⟨c.line + (lineEnds c.rest - lineEnds rest), rest⟩

/-- Passes blanks, line ends and comments; `comment` says that a comment goes on. -/
def skipFrom : (comment : Bool) → Nat → Text → Cursor
  | _, n, [] => ⟨n, []⟩
  | comment, n, c :: r =>
    if c = ch '\n' then skipFrom false (n + 1) r
    else if comment || isSpace c then skipFrom comment n r
    else if c = ch '#' then skipFrom true n r
    else ⟨n, c :: r⟩

/-- Passes blanks, line ends and comments. -/
def Cursor.skip (c : Cursor) : Cursor := skipFrom false c.line c.rest

/-- The first byte from here on. -/
def Cursor.head (c : Cursor) : UInt8 := head0 c.rest

/-- The place one byte further on. -/
def Cursor.next (c : Cursor) : Cursor := ⟨c.line, c.rest.drop 1⟩

/-- The quoted scalar at a place, and the place after it. -/
def quotedNode (c : Cursor) : Except ReadError (Yaml × Cursor) :=
  match quotedText? c.rest with
  | some (s, rest) => .ok (.scalar c.line s false, c.moved rest)
  | none => failed .unclosedQuote c.line (c.moved []).line

/-- The scalar in brackets at a place, and the place after it. -/
def flowScalar (c : Cursor) : Except ReadError (Yaml × Cursor) :=
  if isQuote c.head then quotedNode c
  else if c.head = ch '*' then aliasFailure c.line c.rest
  else if startsPlain true c.rest then
    let span := plainSpan true false c.rest
    .ok (.scalar c.line (foldLines (split (ch '\n') span)) true,
      c.moved (c.rest.drop span.length))
  else if endsFlow c.head || c.head = ch ':' then failed .noContent c.line c.line
  else failed .strayCharacter c.line c.line

mutual

/-- The node in brackets, or scalar among them, at a place, and the place after it. -/
def flowNode : (fuel : Nat) → Cursor → Except ReadError (Yaml × Cursor)
  | 0, c => failed .noContent c.line c.line
  | fuel + 1, c =>
    if c.head = ch '[' then
      (flowItems fuel c.line c.next).map fun (items, after) => (.sequence c.line items, after)
    else if c.head = ch '\x7b' then
      (flowFields fuel c.line c.next).map fun (fields, after) => (.mapping c.line fields, after)
    else flowScalar c

/-- The value after a colon, which can be left out, or a null if there is no colon, and
the place after it. -/
def flowValue : (fuel : Nat) → Cursor → Except ReadError (Yaml × Cursor)
  | 0, c => failed .noContent c.line c.line
  | fuel + 1, c =>
    if c.head = ch ':' then
      let c := c.next.skip
      if c.head = ch ',' || c.head = ch ']' || c.head = ch '\x7d' then .ok (empty c.line, c)
      else flowNode fuel c
    else .ok (empty c.line, c)

/-- The items up to a closing bracket, and the place after it. An item with a colon after
it is a mapping of one field. The sequence starts on line `start`. -/
def flowItems : (fuel start : Nat) → Cursor → Except ReadError (List Yaml × Cursor)
  | 0, start, c => failed .noCommaOrBracket start c.line
  | fuel + 1, start, c =>
    let c := c.skip
    if c.rest.isEmpty then failed .noCommaOrBracket start c.line
    else if c.head = ch ']' then .ok ([], c.next)
    else match flowNode fuel c with
      | .error e => .error e
      | .ok (node, after) =>
        let after := after.skip
        let item : Except ReadError (Yaml × Cursor) :=
          if after.head = ch ':' then
            (flowValue fuel after).map fun (value, after) =>
              (.mapping c.line [(node, value)], after)
          else .ok (node, after)
        match item with
        | .error e => .error e
        | .ok (item, after) =>
          let after := after.skip
          if after.head = ch ',' then
            (flowItems fuel start after.next).map fun (items, after) => (item :: items, after)
          else if after.head = ch ']' then .ok ([item], after.next)
          else failed .noCommaOrBracket start after.line

/-- The fields up to a closing brace, and the place after it. The mapping starts on line
`start`. -/
def flowFields : (fuel start : Nat) → Cursor → Except ReadError (List (Yaml × Yaml) × Cursor)
  | 0, start, c => failed .noCommaOrBrace start c.line
  | fuel + 1, start, c =>
    let c := c.skip
    if c.rest.isEmpty then failed .noCommaOrBrace start c.line
    else if c.head = ch '\x7d' then .ok ([], c.next)
    else match flowNode fuel c with
      | .error e => .error e
      | .ok (key, after) =>
        match flowValue fuel after.skip with
        | .error e => .error e
        | .ok (value, after) =>
          let after := after.skip
          if after.head = ch ',' then
            (flowFields fuel start after.next).map fun (fields, after) =>
              ((key, value) :: fields, after)
          else if after.head = ch '\x7d' then .ok ([(key, value)], after.next)
          else failed .noCommaOrBrace start after.line

end

/-! ### Nodes by indentation -/

/-- A line: its number, how deep it is indented, and the rest of it. -/
structure Line where
  number : Nat
  indent : Nat
  text : Text

/-- The line with a number. -/
def Line.ofText (number : Nat) (t : Text) : Line :=
  let indent := (t.takeWhile (· = ch ' ')).length
  ⟨number, indent, withoutEnd (t.drop indent) [ch '\r']⟩

/-- Nothing or a comment. -/
def isSilent (t : Text) : Bool := isBlank t || head0 (trimLeft t) = ch '#'

/-- Without the lines in front that have nothing or a comment. -/
def skipSilent (ls : List Line) : List Line := ls.dropWhile fun l => isSilent l.text

/-- An item of a sequence. -/
def isItem (t : Text) : Bool := head0 t = ch '-' && blankNext (t.drop 1)

/-- The key on a line and what follows its colon. -/
def splitField? (l : Line) : Option (Yaml × Text) :=
  let afterColon (key : Yaml) (t : Text) : Option (Yaml × Text) :=
    if head0 t = ch ':' && blankNext (t.drop 1) then some (key, trim (t.drop 1)) else none
  if isQuote (head0 l.text) then
    (quotedText? l.text).bind fun (key, rest) =>
      afterColon (.scalar l.number key false) (trimLeft rest)
  else if startsPlain false l.text then
    let span := plainSpan false false l.text
    afterColon (.scalar l.number (trimRight span) true) (l.text.drop span.length)
  else none

/-- The lines indented at least as deep as `least` that go on a plain scalar, and the
rest. A comment ends it. -/
def gatherPlain (least : Nat) : List Line → Except ReadError (List Text × List Line)
  | [] => .ok ([], [])
  | l :: rest =>
    let more (t : Text) : Except ReadError (List Text × List Line) :=
      (gatherPlain least rest).map fun (ts, rest) => (t :: ts, rest)
    if isBlank l.text then more []
    else if l.indent < least || head0 l.text = ch '#' then .ok ([], l :: rest)
    else
      let span := plainSpan false true l.text
      let after := l.text.drop span.length
      if head0 after = ch ':' then failed .strayColon l.number l.number
      else if after.isEmpty then more span
      else .ok ([span], rest)

/-- The plain scalar that starts a text on a line, and the lines after it. -/
def plainNode (n least : Nat) (t : Text) (rest : List Line) :
    Except ReadError (Yaml × List Line) :=
  let span := plainSpan false false t
  let after := t.drop span.length
  if head0 after = ch ':' then failed .strayColon n n
  else if after.isEmpty then
    (gatherPlain least rest).map fun (ts, rest) => (.scalar n (foldLines (span :: ts)) true, rest)
  else .ok (.scalar n (trim span) true, rest)

/-- The lines after a node that was read from the text of a line and of the `rest`, up to
this place. Nothing but a comment can follow on its last line. -/
def linesAfter (n : Nat) (rest : List Line) (c : Cursor) : Except ReadError (List Line) :=
  if isSilent (c.rest.takeWhile (· ≠ ch '\n')) then .ok (rest.drop (c.line - n))
  else failed .noKey n c.line

/-- The value that stands on the line of its key or dash, and the lines after it. Those
that go on a plain scalar are indented at least as deep as `least`. -/
def inlineValue (n least : Nat) (t : Text) (rest : List Line) :
    Except ReadError (Yaml × List Line) :=
  let here : Cursor := ⟨n, join [ch '\n'] (t :: rest.map (·.text))⟩
  let finish (r : Except ReadError (Yaml × Cursor)) : Except ReadError (Yaml × List Line) :=
    r.bind fun (node, after) => (linesAfter n rest after).map (node, ·)
  if head0 t = ch '[' || head0 t = ch '\x7b' then finish (flowNode (2 * here.rest.length + 2) here)
  else if isQuote (head0 t) then finish (quotedNode here)
  else if isItem t then failed .strayDash n n
  else if head0 t = ch '*' then aliasFailure n t
  else if startsPlain false t then plainNode n least t rest
  else failed .strayCharacter n n

mutual

/-- The node of lines indented at least as deep as `least`, and the lines after it; a null
on line `number` if there are none. -/
def blockNode : (fuel : Nat) → (number least : Nat) → List Line →
    Except ReadError (Yaml × List Line)
  | 0, number, _, _ => failed .noKey number number
  | fuel + 1, number, least, ls =>
    match skipSilent ls with
    | [] => .ok (empty number, [])
    | l :: rest =>
      if l.indent < least then .ok (empty number, l :: rest)
      else if isItem l.text then
        (blockItems fuel l.number l.indent (l :: rest)).map fun (items, rest) =>
          (.sequence l.number items, rest)
      else if (splitField? l).isSome then
        (blockFields fuel l.number l.indent (l :: rest)).map fun (fields, rest) =>
          (.mapping l.number fields, rest)
      else inlineValue l.number least l.text rest

/-- The items at a level of indentation, and the lines after them. The sequence starts on
line `start`. -/
def blockItems : (fuel : Nat) → (start indent : Nat) → List Line →
    Except ReadError (List Yaml × List Line)
  | 0, start, _, _ => failed .noDash start start
  | fuel + 1, start, indent, ls =>
    match skipSilent ls with
    | [] => .ok ([], [])
    | l :: rest =>
      if l.indent > indent then failed .noDash start l.number
      else if l.indent < indent || !isItem l.text then .ok ([], l :: rest)
      else
        let blanks := ((l.text.drop 1).takeWhile isSpace).length
        let body : Line := ⟨l.number, indent + 1 + blanks, l.text.drop (1 + blanks)⟩
        match blockNode fuel l.number (indent + 1) (body :: rest) with
        | .error e => .error e
        | .ok (item, rest) =>
          (blockItems fuel start indent rest).map fun (items, rest) => (item :: items, rest)

/-- The fields at a level of indentation, and the lines after them. The mapping starts on
line `start`. Items can stand as deep as the key they are the value of. -/
def blockFields : (fuel : Nat) → (start indent : Nat) → List Line →
    Except ReadError (List (Yaml × Yaml) × List Line)
  | 0, start, _, _ => failed .noKey start start
  | fuel + 1, start, indent, ls =>
    match skipSilent ls with
    | [] => .ok ([], [])
    | l :: rest =>
      if l.indent < indent then .ok ([], l :: rest)
      else if l.indent > indent || isItem l.text then failed .noKey start l.number
      else match splitField? l with
        | none => failed .noColon l.number l.number
        | some (key, body) =>
          let least :=
            match skipSilent rest with
            | next :: _ => if isItem next.text then indent else indent + 1
            | [] => indent + 1
          let value :=
            if isSilent body then blockNode fuel l.number least rest
            else inlineValue l.number (indent + 1) body rest
          match value with
          | .error e => .error e
          | .ok (value, rest) =>
            (blockFields fuel start indent rest).map fun (fields, rest) =>
              ((key, value) :: fields, rest)

end

/-! ### Documents -/

/-- The line is a mark between documents. -/
def Line.isMark (mark : String) (l : Line) : Bool :=
  l.indent = 0 && starts l.text (of mark) && blankNext (l.text.drop 3)

/-- The lines of the first document: what stands before the second mark, without the
directives and the mark at its start. -/
def firstDocument (ls : List Line) : List Line :=
  let ls := ls.dropWhile fun l => isSilent l.text || (l.indent = 0 && head0 l.text = ch '%')
  let ls : List Line :=
    match ls with
    | l :: rest =>
      if l.isMark "---" then ⟨l.number, 4, trimLeft (l.text.drop 3)⟩ :: rest else l :: rest
    | [] => []
  ls.takeWhile fun l => !(l.isMark "---" || l.isMark "...")

/-- The node of a text; a text without lines is a null. -/
def parse (t : Text) : Except ReadError Yaml := do
  let ls := (split (ch '\n') t).zipIdx 1
  let ls := firstDocument (ls.map fun (t, n) => Line.ofText n t)
  let (node, rest) ← blockNode (4 * ls.length + 4) 0 0 ls
  match skipSilent rest with
  | [] => return node
  | l :: _ => failed .noDocument 0 l.number

end Stylesheet.Yaml
