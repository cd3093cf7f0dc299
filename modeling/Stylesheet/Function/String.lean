import Stylesheet.Function

/-!
# String functions and introspection

Quoting, case and length of strings, the kind of a value, choice by a condition, and
background positions.

## Main definitions

* `stringFunctions`, `introspectionFunctions` — the registrations
-/

namespace Stylesheet

open Text

namespace StringFunction

/-- The unquoted arguments with spaces between them. -/
def joinedText (a : Args) : Text := join [ch ' '] (a.positional.map Value.unquoted)

/-- The arguments as one unquoted string. -/
def unquote (a : Args) : Except FunctionError Value := .ok (.plain (joinedText a))

/-- The arguments as one quoted string. -/
def quote (a : Args) : Except FunctionError Value := .ok (.quoted (joinedText a))

/-- The number of characters. -/
def length (a : Args) : Except FunctionError Value := do
  return .ofFloat (Float.ofNat (chars (← a.value 0 (of "string")).unquoted).length)

/-- A string with its text changed, its quotes kept. -/
def mapped (f : Text → Text) (a : Args) : Except FunctionError Value := do
  match ← a.value 0 (of "string") with
  | .string t q => return .string (f t) q
  | v => return .plain (f v.text)

/-- The name of the kind of a value. -/
def typeOf (a : Args) : Except FunctionError Value := do
  return .plain (← a.value 0 (of "value")).kind.name

/-- `$if-true` or `$if-false`, as `$condition` says. -/
def choose (a : Args) : Except FunctionError Value := do
  if (← a.value 0 (of "condition")).truthy then a.value 1 (of "if-true")
  else return (a.get? 2 (of "if-false")).getD (.plain [])

/-- The one of two words that occurs, or the other if `opposite`. -/
def pick (opposite : Bool) (words : List Text) (first second : Text) : Text :=
  if words.contains first then if opposite then second else first
  else if words.contains second then if opposite then first else second
  else of "center"

/-- The horizontal and vertical part of a position, mirrored if `opposite`. -/
def position (opposite : Bool) (a : Args) : Except FunctionError Value :=
  let words := a.positional.flatMap fun v =>
    (fields v.unquoted).map (strip (· = ch ','))
  let horizontal := pick opposite words (of "left") (of "right")
  let vertical := pick opposite words (of "top") (of "bottom")
  .ok (if horizontal = vertical then .plain horizontal
    else .ofList [] [.plain horizontal, .plain vertical])

end StringFunction

open StringFunction in
/-- The string functions. -/
def stringFunctions : List Function :=
  [ ("unquote", variadic, unquote), ("quote", variadic, quote), ("e", 1, unquote),
    ("escape", 1, unquote), ("str-length", 1, StringFunction.length),
    ("to-upper-case", 1, mapped upper), ("to-lower-case", 1, mapped lower)
  ].map fun (name, arity, run) => ⟨of name, arity, of "string", run⟩

open StringFunction in
/-- Functions about values of any kind. -/
def introspectionFunctions : List Function :=
  [ ("type-of", 1, typeOf), ("if", 2, choose), ("if", 3, choose),
    ("position", variadic, position false), ("opposite-position", variadic, position true)
  ].map fun (name, arity, run) => ⟨of name, arity, of "introspection", run⟩

end Stylesheet
