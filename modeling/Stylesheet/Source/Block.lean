import Stylesheet.Text
import Stylesheet.Diagnostic

/-!
# Blocks

Normalized source is a sequence of blocks: a header with a body in braces, or a loose
declaration without a body, ended by a semicolon. Braces count outside quotes and
parentheses only. The header of a block starts after the last semicolon or closing
brace, unless a line before it is left over: then that line is a loose declaration of
its own, except that a header may go on over several lines after a comma.

Blocks are found by one pass from left to right. A text that is unbalanced yields the
blocks before the imbalance, and the error.

## Main definitions

* `Block` — a header, a body if there is one, and the offset of the header
* `Scan` — the state of the pass
* `locate` — the blocks of a text, and the structural error if there is one
-/

namespace Stylesheet

open Text

/-- A header and its body; a loose declaration has no body. The offset is that of the
header in the text the block was found in. -/
structure Block where
  header : Text
  body : Option Text
  offset : Nat
  deriving DecidableEq

/-- The state of the pass over a text. -/
structure Scan where
  /-- How many braces are open. -/
  depth : Nat := 0
  /-- How many parentheses are open. -/
  paren : Nat := 0
  /-- The quotation mark of the open string and where it stands. -/
  quote : Option (UInt8 × Nat) := none
  /-- The next byte is escaped. -/
  escaped : Bool := false
  /-- The outermost open brace belongs to an interpolation. -/
  skip : Bool := false
  /-- Where the pending header starts. -/
  init : Nat := 0
  /-- Where the pending header's opening brace is. -/
  start : Nat := 0
  /-- The earliest place from which a header of several lines may start. -/
  safe : Nat := 0
  /-- Where loose declarations not yet yielded start. -/
  loose : Nat := 0
  /-- The start of a line that may begin a new header. -/
  line : Option Nat := none
  deriving DecidableEq

/-- Only white space between two offsets. -/
def blankBetween (src : Text) (i j : Nat) : Bool := i ≥ j || isBlank (slice src i j)

/-- The number of leading blanks of a header. -/
def leading (t : Text) : Nat := (t.takeWhile isSpace).length

/-- The declarations ended by semicolons in parts of a text, the first part starting at
an offset. -/
def looseParts : Nat → List Text → List Block
  | _, [] => []
  | offset, part :: rest =>
    let decl := trim part
    let later := looseParts (offset + part.length + 1) rest
    if decl.isEmpty then later else ⟨decl, none, offset + leading part⟩ :: later

/-- The loose declarations between two offsets. -/
def looseBlocks (src : Text) (i j : Nat) : List Block :=
  looseParts i (split (ch ';') (slice src i j))

/-- The byte before an offset is a number sign. -/
def afterHash (src : Text) (i : Nat) : Bool := i > 0 && at0 src (i - 1) = ch '#'

namespace Scan

/-- The line under way has something before the byte at `i`. -/
def lineStarted (src : Text) (s : Scan) (i : Nat) : Option Nat :=
  match s.line with
  | some l => if blankBetween src l (i - 1) then none else some l
  | none => none

/-- An opening brace at `i`. At the top level it starts an interpolation, or ends a
header and releases the loose declarations before it. -/
def openBrace (src : Text) (s : Scan) (i : Nat) : Scan × List Block :=
  if s.depth = 0 then
    if afterHash src i then ({ s with depth := 1, skip := true }, [])
    else
      let init := (s.lineStarted src i).getD s.init
      if s.loose < init then
        ({ s with depth := 1, start := i, init := init, loose := init, line := none },
          looseBlocks src s.loose init)
      else ({ s with depth := 1, start := i, init := init, line := none }, [])
  else ({ s with depth := s.depth + 1 }, [])

/-- The block whose body ends at `i`, unless its header is empty. -/
def finished (src : Text) (s : Scan) (i : Nat) : List Block :=
  let raw := slice src s.init s.start
  let header := trim raw
  if header.isEmpty then []
  else [⟨header, some (trim (slice src (s.start + 1) i)), s.init + leading raw⟩]

/-- A closing brace at `i` that has a partner. -/
def closeBrace (src : Text) (s : Scan) (i : Nat) : Scan × List Block :=
  if s.depth > 1 then ({ s with depth := s.depth - 1 }, [])
  else if s.skip then ({ s with depth := 0, skip := false }, [])
  else
    ({ s with depth := 0, init := i + 1, safe := i + 1, loose := i + 1, line := none },
      s.finished src i)

/-- Any other byte at `i` at the top level: a semicolon ends a declaration, commas and
line ends decide where a header starts. -/
def boundary (src : Text) (s : Scan) (i : Nat) (c : UInt8) : Scan :=
  if c = ch ';' then { s with init := i + 1, safe := i + 1, line := none }
  else if c = ch ',' then
    { s with init := (s.lineStarted src i).getD s.init, line := none, safe := i + 1 }
  else if c = ch '\n' then
    match s.line with
    | none => if blankBetween src s.safe (i - 1) then s else { s with line := some (i + 1) }
    | some l =>
      if blankBetween src l (i - 1) then s else { s with init := i + 1, line := none }
  else s

/-- The byte `c` at `i`: the new state and the blocks it completes. -/
def step (src : Text) (s : Scan) (i : Nat) (c : UInt8) :
    Except StructuralError (Scan × List Block) :=
  match s.quote with
  | some (q, _) =>
    .ok (if s.escaped then { s with escaped := false }
      else if c = ch '\\' then { s with escaped := true }
      else if c = q then { s with quote := none }
      else s, [])
  | none =>
    if isQuote c then .ok ({ s with quote := some (c, i) }, [])
    else if c = ch '(' then .ok ({ s with paren := s.paren + 1, line := none, safe := i + 1 }, [])
    else if c = ch ')' then .ok ({ s with paren := s.paren - 1 }, [])
    else if s.paren > 0 then .ok (s, [])
    else if c = ch '\x7b' then .ok (s.openBrace src i)
    else if c = ch '\x7d' then
      if s.depth = 0 then .error ⟨.unexpectedClose, i, trim (slice src s.loose i)⟩
      else .ok (s.closeBrace src i)
    else if s.depth = 0 then .ok (s.boundary src i c, [])
    else .ok (s, [])

/-- What the end of the text leaves: the last loose declarations, or the imbalance. -/
def finish (src : Text) (s : Scan) : List Block × Option StructuralError :=
  if s.depth > 0 then
    let header := if s.skip then [] else trim (slice src s.init s.start)
    if s.paren > 0 then ([], some ⟨.unclosedParen, s.start, header⟩)
    else match s.quote with
      | some (_, i) => ([], some ⟨.unclosedString, i, header⟩)
      | none => ([], some ⟨.unclosedBlock, s.start, header⟩)
  else match s.quote with
    | some (_, i) => ([], some ⟨.unclosedString, i, []⟩)
    | none =>
      if s.paren > 0 then ([], some ⟨.unclosedParen, s.safe - 1, []⟩)
      else (looseBlocks src s.loose src.length, none)

/-- The blocks of what is left of a text, from offset `i` on. -/
def run (src : Text) (s : Scan) : Nat → Text → List Block × Option StructuralError
  | _, [] => s.finish src
  | i, c :: r =>
    match s.step src i c with
    | .error e => ([], some e)
    | .ok (s', found) =>
      let (more, failure) := run src s' (i + 1) r
      (found ++ more, failure)

end Scan

/-- The blocks of a text in order, and the structural error that ends them. -/
def locate (src : Text) : List Block × Option StructuralError := Scan.run src {} 0 src

end Stylesheet
