import Stylesheet.Css.Token
import Stylesheet.Text.Printable

/-!
# Reading plain CSS

Compiled output is read back to see that it is a style sheet, and its rules,
declarations and at-rules are counted. Reading stops at the first error, and the end of
the text closes whatever is open.

Rules can be nested: what starts with a name among declarations is a rule if an opening
brace follows, and a declaration if a semicolon or the closing brace comes first. Which
texts are selectors or values is not asked: as in the syntax of CSS, anything may stand
there whose brackets are in pairs.

The reader takes one token at a time. A closing brace that ends a declaration is read a
second time, as what closes the block.

## Main definitions

* `Block` — what a block holds
* `Mode` — what is being read
* `Reader`, `Reader.step`, `Reader.finish` — reading token by token
* `Report`, `readCss` — the counts, and the first error
-/

namespace Stylesheet.Css

open Text

/-- What the block being read holds. -/
inductive Block where
  /-- The rules of the whole sheet. -/
  | sheet
  /-- The rules of an at-rule. -/
  | rules
  /-- Declarations and nested rules. -/
  | declarations
  /-- Anything, in an at-rule that is not known. -/
  | unknown
  deriving DecidableEq

/-- What is being read. -/
inductive Mode where
  /-- The start of a rule or declaration. -/
  | start
  /-- A rule before its block. -/
  | selector
  /-- An at-rule before its block, with what its block will hold. -/
  | atRule (block : Block)
  /-- A declaration of which an asterisk was read. -/
  | starred
  /-- A declaration or nested rule of which the name was read, up to this offset. -/
  | named (stop : Nat)
  /-- The same with no colon after the name, read up to this offset. As much was read
  after the name, white space counted once. -/
  | unmarked (stop held : Nat)
  /-- A declaration or nested rule of which the name and a colon were read. -/
  | value
  /-- A custom property of which the name was read. -/
  | customNamed
  /-- A custom property of which the colon was read. -/
  | customValue
  deriving DecidableEq

/-- What is wrong with a sheet. -/
inductive Fault where
  | endsInRule
  | endsInAtRule
  | endsInDeclaration
  | endsInCustom
  | noColon
  | noColonInCustom
  | strayInDeclaration (text : Text)
  deriving DecidableEq

/-- The wording of a fault. -/
def Fault.message : Fault → Text
  | .endsInRule => of "unexpected ending in qualified rule"
  | .endsInAtRule => of "unexpected ending in at rule"
  | .endsInDeclaration => of "unexpected ending in declaration"
  | .endsInCustom => of "unexpected ending in custom property"
  | .noColon => of "expected colon in declaration"
  | .noColonInCustom => of "expected colon in custom property"
  | .strayInDeclaration t => of "unexpected token '" ++ t ++ of "' in declaration"

/-- What reading a sheet found. -/
structure Report where
  rulesets : Nat := 0
  declarations : Nat := 0
  atRules : Nat := 0
  deriving DecidableEq

/-- The state of reading: the open blocks, innermost first, and how many brackets are
open. -/
structure Reader where
  report : Report := {}
  blocks : List Block := []
  level : Int := 0
  mode : Mode := .start
  deriving DecidableEq

/-- A fault and its offset. -/
abbrev Failure := Fault × Nat

namespace Reader

/-- Stops at a fault, with what was counted before it. -/
def fail (r : Reader) (fault : Fault) (offset : Nat) : Except (Report × Failure) Reader :=
  .error (r.report, fault, offset)

/-- The innermost open block. -/
def block (r : Reader) : Block := r.blocks.headD .sheet

/-- Counts a rule and opens its block. -/
def openRule (r : Reader) : Reader :=
  { r with report.rulesets := r.report.rulesets + 1, blocks := .declarations :: r.blocks,
           mode := .start }

/-- Counts an at-rule. -/
def countAtRule (r : Reader) : Reader :=
  { r with report.atRules := r.report.atRules + 1, mode := .start }

/-- Counts a declaration. -/
def countDeclaration (r : Reader) : Reader :=
  { r with report.declarations := r.report.declarations + 1, mode := .start }

/-- Closes the innermost block. -/
def closeBlock (r : Reader) : Reader := { r with blocks := r.blocks.drop 1, mode := .start }

/-- Does a token open a bracket, brace or call? -/
def opens (k : TokenKind) : Bool := k = .bracketOpen || k = .braceOpen || k = .function

/-- Does a token close a bracket or brace? -/
def closes (k : TokenKind) : Bool := k = .bracketClose || k = .braceClose

/-- Counts the open brackets past a token. -/
def nest (r : Reader) (k : TokenKind) : Reader :=
  if opens k then { r with level := r.level + 1 }
  else if closes k then { r with level := r.level - 1 }
  else r

/-- What the block of an at-rule holds, by its name without a vendor's mark. -/
def blockOf (keyword : Text) : Block :=
  let name := lower (keyword.drop 1)
  let name :=
    if head0 name = ch '-' then
      match indexOf (ch '-') (name.drop 1) with
      | some i => name.drop (i + 2)
      | none => name
    else name
  if name = of "font-face" || name = of "page" then .declarations
  else if ["document", "keyframes", "layer", "media", "supports"].any (of · = name) then .rules
  else .unknown

/-- A token before the block of a rule. -/
def selectorStep (r : Reader) (t : CssToken) : Except (Report × Failure) Reader :=
  if t.kind = .braceOpen && r.level = 0 then .ok r.openRule
  else if closes t.kind && r.level = 0 then r.fail .endsInRule t.stop
  else .ok { r.nest t.kind with mode := .selector }

/-- The name of a declaration or nested rule. -/
def nameStep (r : Reader) (t : CssToken) (shown : Text) : Except (Report × Failure) Reader :=
  match t.kind with
  | .atKeyword => .ok { r with mode := .atRule (blockOf shown) }
  | .ident | .delim => .ok { r with mode := .named t.stop }
  | .customName => .ok { r with mode := .customNamed }
  | _ => r.fail (.strayInDeclaration shown) (t.stop - shown.length)

/-- A token at the start of a rule or declaration. -/
def startStep (r : Reader) (t : CssToken) : Except (Report × Failure) Reader :=
  match r.block with
  | .sheet =>
    if t.kind = .marker then .ok r
    else if t.kind = .atKeyword then .ok { r with mode := .atRule (blockOf t.text) }
    else if t.kind = .customName then .ok { r with mode := .customNamed }
    else r.selectorStep t
  | .rules =>
    if t.kind = .braceClose then .ok r.closeBlock
    else if t.kind = .atKeyword then .ok { r with mode := .atRule (blockOf t.text) }
    else r.selectorStep t
  | .declarations =>
    if t.kind = .semicolon then .ok r
    else if t.kind = .braceClose then .ok r.closeBlock
    else if t.text = [ch '*'] && t.kind = .delim then .ok { r with mode := .starred }
    else r.nameStep t t.text
  | .unknown =>
    if t.kind = .braceClose && r.level = 0 then .ok r.closeBlock else .ok (r.nest t.kind)

/-- Reads a brace again that ended what was counted. -/
def again (r : Reader) (t : CssToken) : Except (Report × Failure) Reader :=
  if t.kind = .braceClose then r.startStep t else .ok r

/-- A semicolon or closing brace outside brackets. -/
def ends (r : Reader) (t : CssToken) : Bool :=
  (t.kind = .semicolon || t.kind = .braceClose) && r.level = 0

/-- A token of a declaration or nested rule, which goes on as `onward` says unless it is
ended here with the outcome `ended` or opens the block of a rule. -/
def itemStep (r : Reader) (t : CssToken) (ended : Except (Report × Failure) Reader)
    (onward : Mode) : Except (Report × Failure) Reader :=
  if t.kind = .braceOpen && r.level = 0 then .ok r.openRule
  else if r.ends t then ended
  else if closes t.kind && r.level = 0 then r.fail .endsInDeclaration t.stop
  else .ok { r.nest t.kind with mode := onward }

/-- A token of a declaration or nested rule whose name has no colon after it. The fault of
a declaration is placed as far before its end as was read after its name. -/
def unmarkedStep (r : Reader) (t : CssToken) (stop held : Nat) :
    Except (Report × Failure) Reader :=
  let gap := if stop < t.offset then 1 else 0
  r.itemStep t (r.fail .noColon (t.stop - held)) (.unmarked t.stop (held + gap + t.text.length))

/-- One token. -/
def step (r : Reader) (t : CssToken) : Except (Report × Failure) Reader :=
  match r.mode with
  | .start => r.startStep t
  | .selector => r.selectorStep t
  | .atRule block =>
    if t.kind = .braceOpen && r.level = 0 then
      .ok { r.countAtRule with blocks := block :: r.blocks }
    else if r.ends t then r.countAtRule.again t
    else if closes t.kind && r.level = 0 then r.fail .endsInAtRule t.stop
    else .ok (r.nest t.kind)
  | .starred => r.nameStep t (ch '*' :: t.text)
  | .named stop =>
    if t.kind = .colon then .ok { r with mode := .value } else r.unmarkedStep t stop 0
  | .unmarked stop held => r.unmarkedStep t stop held
  | .value => r.itemStep t (r.countDeclaration.again t) .value
  | .customNamed =>
    if t.kind = .colon then .ok { r with mode := .customValue }
    else r.fail .noColonInCustom t.offset
  | .customValue =>
    if r.ends t then r.countDeclaration.again t
    else if closes t.kind && r.level = 0 then r.fail .endsInCustom t.stop
    else .ok (r.nest t.kind)

/-- The end of the text, which is at this offset. -/
def finish (r : Reader) (stop : Nat) : Report × Option Failure :=
  match r.mode with
  | .start | .starred => (r.report, none)
  | .selector => (r.report, some (.endsInRule, stop))
  | .atRule _ => (r.countAtRule.report, none)
  | .named _ => (r.report, some (.noColon, stop))
  | .unmarked _ held => (r.report, some (.noColon, stop - held))
  | .customNamed => (r.report, some (.noColonInCustom, stop))
  | .value | .customValue => (r.countDeclaration.report, none)

/-- Reads tokens up to the first error. -/
def run (stop : Nat) : Reader → List CssToken → Report × Option Failure
  | r, [] => r.finish stop
  | r, t :: rest =>
    match r.step t with
    | .error (report, failure) => (report, some failure)
    | .ok r => run stop r rest

end Reader

/-- What a sheet has, up to the first error. -/
def readCss (t : Text) : Report × Option Failure := Reader.run t.length {} (cssTokens t)

/-! ### Where an error is -/

/-- The line and column of an offset, and the line it is on. -/
structure Position where
  line : Nat
  column : Nat
  text : Text

/-- The line that starts with a text: up to a line end. -/
def lineText (t : Text) : Text := t.takeWhile fun c => c ≠ ch '\n' && c ≠ ch '\r'

/-- The length of the line end a text starts with, separators of other scripts
included. -/
def lineBreak : Text → Nat
  | c :: r =>
    if c = ch '\n' then 1
    else if c = ch '\r' then if head0 r = ch '\n' then 2 else 1
    else if starts (c :: r) [0xE2, 0x80, 0xA8] || starts (c :: r) [0xE2, 0x80, 0xA9] then 3
    else 0
  | [] => 0

/-- Goes on to an offset, `left` bytes away, from the start of a line on; `before` are the
bytes of the line so far, last first, and `skip` those of a line end still to pass. -/
def positionFrom : (skip left line : Nat) → (before : Text) → Text → Position
  | _, 0, line, before, t => ⟨line, charCount before + 1, before.reverse ++ lineText t⟩
  | _, _ + 1, line, before, [] => ⟨line, charCount before + 1, before.reverse⟩
  | k + 1, left + 1, line, _, _ :: r => positionFrom k left (if k = 0 then line + 1 else line) [] r
  | 0, left + 1, line, before, c :: r =>
    match lineBreak (c :: r) with
    | 0 => positionFrom 0 left line (c :: before) r
    | 1 => positionFrom 0 left (line + 1) [] r
    | n + 1 => if n > left then ⟨line, charCount before + 1, before.reverse ++ lineText (c :: r)⟩
      else positionFrom n left line [] r

/-- The position of an offset in a text. -/
def positionOf (t : Text) (offset : Nat) : Position := positionFrom 0 offset 1 [] t

/-- A character that leaves a mark or a space. -/
def isGraphic (c : Char) : Bool :=
  isPrintable c ||
    spaceWidth (of c.toString) > 0 && c.toNat > 0x85 && c.toNat ≠ 0x2028 && c.toNat ≠ 0x2029

/-- At most sixty characters of a line around a column, and the column in them. -/
def excerpt (line : List Char) (column : Nat) : String × Nat :=
  let n := line.length
  if n ≤ 60 then (String.ofList line, column)
  else if column ≤ 40 then (String.ofList (line.take 57) ++ "...", column)
  else if column + 23 ≥ n then
    ("..." ++ String.ofList (line.drop (n - 44)), column + 47 - n)
  else ("..." ++ String.ofList ((line.take (column + 20)).drop (column - 21)) ++ "...", 24)

/-- A number with blanks before it, five characters wide. -/
def padNumber (n : Nat) : Text :=
  let t := ofNat n
  List.replicate (5 - t.length) (ch ' ') ++ t

/-- The line of a position with a mark below the column. A dot stands for a character that
leaves nothing to see. -/
def Position.shown (p : Position) : Text :=
  let chars := p.text.asString.toList.map fun c => if isGraphic c then c else '·'
  let (line, column) := excerpt chars p.column
  padNumber p.line ++ of ": " ++ of line ++ [ch '\n'] ++
    List.replicate (6 + column) (ch ' ') ++ [ch '^']

/-- The wording of a failure in a text, with its place. -/
def describeFailure (t : Text) (f : Failure) : Text :=
  let p := positionOf t f.2
  f.1.message ++ of " on line " ++ ofNat p.line ++ of " and column " ++ ofNat p.column ++
    ch '\n' :: p.shown

end Stylesheet.Css
