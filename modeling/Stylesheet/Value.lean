import Stylesheet.Text
import Stylesheet.Text.Case
import Stylesheet.Double.Shortest
import Stylesheet.Value.Color

/-!
# Values

What an expression evaluates to: a truth value, a number with a unit, a color, a text
with or without quotes, or a list of positional and keyed members.

## Main definitions

* `Number`, `Value`, `Entry` — the values and the members of lists
* `Value.text`, `Value.unquoted` — how values are written, with and without quotes
* `Value.truthy` — what counts as true in a condition
* `Value.toColor?`, `Value.toEntries` — a value as a color or a list
-/

namespace Stylesheet

open Text

/-- A magnitude in a unit; the unit is empty for a bare number. -/
structure Number where
  value : Float
  unit : Text := []

/-- A number whose unit is put in lower case. -/
def Number.of (value : Float) (unit : Text) : Number := ⟨value, lower unit⟩

/-- How a number is written. -/
def Number.text (n : Number) : Text := Double.format n.value ++ n.unit

/-- No unit. -/
def Number.unitless (n : Number) : Bool := n.unit.isEmpty

/-- The result of an expression. A list member is a key, empty for a positional
member, and a value. The separator of a list is empty for lists written with spaces. -/
inductive Value where
  | bool (b : Bool)
  | number (n : Number)
  | color (c : Color)
  | string (text : Text) (quote : Option Char)
  | list (sep : Text) (items : List (Text × Value))
  deriving Inhabited

/-- A list member: a key, empty for a positional member, and a value. -/
abbrev Entry := Text × Value

/-- The kinds of value. -/
inductive Kind where
  | bool
  | number
  | color
  | string
  | list
  deriving DecidableEq

/-- The name of a kind. -/
def Kind.name : Kind → Text
  | .bool => of "bool"
  | .number => of "number"
  | .color => of "color"
  | .string => of "string"
  | .list => of "list"

/-- A text in quotation marks, with the marks inside it escaped. -/
def quotedWith (quote : Char) (t : Text) : Text :=
  let q := of quote.toString
  q ++ replace q (ch '\\' :: q) t ++ q

namespace Value

/-- An unquoted string. -/
def plain (t : Text) : Value := .string t none

/-- A string in double quotes. -/
def quoted (t : Text) : Value := .string t (some '"')

/-- A bare number. -/
def ofFloat (f : Float) : Value := .number ⟨f, []⟩

/-- A number in a unit. -/
def ofMeasure (f : Float) (unit : Text) : Value := .number (Number.of f unit)

/-- A list of positional members. -/
def ofList (sep : Text) (items : List Value) : Value := .list sep (items.map ([], ·))

/-- The kind of a value. -/
def kind : Value → Kind
  | .bool _ => .bool
  | .number _ => .number
  | .color _ => .color
  | .string .. => .string
  | .list .. => .list

/-- What stands between the members of a list. -/
def sepText (sep : Text) : Text := if sep.isEmpty then [ch ' '] else sep ++ [ch ' ']

mutual

/-- How a value is written. A list leaves out members that are written as nothing. -/
def text : Value → Text
  | .bool b => of (if b then "true" else "false")
  | .number n => n.text
  | .color c => c.text
  | .string t none => t
  | .string t (some q) => quotedWith q t
  | .list sep items => join (sepText sep) ((texts items).filter fun t => !t.isEmpty)

/-- How the members of a list are written. -/
def texts : List (Text × Value) → List Text
  | [] => []
  | (_, v) :: rest => v.text :: texts rest

end

/-- The text of a string without its quotes, and any other value as written. -/
def unquoted : Value → Text
  | .string t _ => t
  | v => v.text

/-- What counts as true: everything but false, zero, an empty list, and the unquoted
texts that are blank, `0` or `false`. -/
def truthy : Value → Bool
  | .bool b => b
  | .number n => n.value != 0
  | .string _ (some _) => true
  | .string t none =>
    let t := trim t
    !(t.isEmpty || t = of "0" || t = of "false")
  | .list _ items => !items.isEmpty
  | .color _ => true

/-- A color, or an unquoted string that spells one. -/
def toColor? : Value → Option Color
  | .color c => some c
  | .string t none => Color.parse? t
  | _ => none

end Value

/-! ### Values as lists -/

/-- Where a splitting scan stands: inside which quotes and how many brackets. -/
structure Nesting where
  quote : Option UInt8 := none
  depth : Nat := 0

/-- Passing one byte outside quotes. -/
def Nesting.pass (s : Nesting) (c : UInt8) : Nesting :=
  if isQuote c then { s with quote := some c }
  else if c = ch '(' || c = ch '[' then { s with depth := s.depth + 1 }
  else if c = ch ')' || c = ch ']' then { s with depth := s.depth - 1 }
  else s

/-- The parts of a text between separators outside quotes and brackets, `part` being
the one under way, last byte first. -/
def splitOutsideFrom (sep : UInt8) : Nesting → (part : Text) → Text → List Text
  | _, part, [] => [part.reverse]
  | s, part, c :: r =>
    match s.quote with
    | some q => splitOutsideFrom sep (if c = q then { s with quote := none } else s) (c :: part) r
    | none =>
      if c = sep && s.depth = 0 then part.reverse :: splitOutsideFrom sep s [] r
      else splitOutsideFrom sep (s.pass c) (c :: part) r

/-- The parts of a text between separators outside quotes and brackets. -/
def splitOutside (sep : UInt8) (t : Text) : List Text := splitOutsideFrom sep {} [] t

/-- A value as the separator and members of a list. An unquoted string is split at its
commas, or at its spaces if it has no comma; any other value is a list of itself. -/
def Value.toEntries (v : Value) : Text × List Entry :=
  match v with
  | .list sep items => (sep, items)
  | .string t none =>
    let t := trim t
    if t.isEmpty then ([], [])
    else if hasByte t (ch ',') then
      let parts := ((splitOutside (ch ',') t).map trim).filter fun p => !p.isEmpty
      ([ch ','], parts.map fun p => ([], .plain p))
    else ([], (fields t).map fun p => ([], .plain p))
  | v => ([], [([], v)])

/-- A value as a list value. -/
def Value.asList (v : Value) : Value :=
  let (sep, items) := v.toEntries
  .list sep items

/-- The first member stored under a key. -/
def keyed? (items : List Entry) (key : Text) : Option Value := items.lookup key

end Stylesheet
