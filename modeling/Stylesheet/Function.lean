import Stylesheet.Value.Operators

/-!
# Functions

Functions that expressions call by name. A function is registered under a name and a
number of arguments, or under a name alone for any number that has no registration of
its own. A call passes positional and named arguments.

## Main definitions

* `Args` — the arguments of a call, and how a function reads them
* `FunctionError` — why a call has no result
* `Function`, `Table` — registrations
* `Table.register`, `Table.lookup?`, `Table.call`, `Table.entries`
-/

namespace Stylesheet

open Text

/-- Why a function refuses its arguments. -/
inductive FunctionError where
  | missing (name : Text)
  | notNumber (name value : Text)
  | notColor (name value : Text)
  | indexRange (index : Int) (size : Nat)
  | unknownSeparator (value : Text)
  | hasUnit (number : Text)
  | noNumbers
  | notAngle (number : Text)
  | noSelectors
  | unknownDisplay (value : Text)
  | mixedUnits (first second : Text)
  deriving DecidableEq

/-- The wording of a refusal. -/
def FunctionError.message : FunctionError → Text
  | .missing name => of "invalid argument: missing $" ++ name
  | .notNumber name v => of "invalid argument: $" ++ name ++ of ": " ++ v ++ of " is not a number"
  | .notColor name v => of "invalid argument: $" ++ name ++ of ": " ++ v ++ of " is not a color"
  | .indexRange i n =>
    of "invalid argument: index " ++ ofInt i ++ of " out of range for list of " ++ ofNat n
  | .unknownSeparator v => of "invalid argument: unknown separator " ++ v
  | .hasUnit n => of "invalid argument: " ++ n ++ of " must be unitless"
  | .noNumbers => of "invalid argument: at least one number is required"
  | .notAngle n => of "invalid argument: " ++ n ++ of " is not an angle"
  | .noSelectors => of "invalid argument: nest needs at least one selector"
  | .unknownDisplay v => of "invalid argument: unknown display " ++ v
  | .mixedUnits a b =>
    of "incompatible operands: " ++ a ++ of " and " ++ b ++ of " are incompatible"

/-- Inserts into an association list, in place of an entry with the same key. -/
def assign {α : Type} (key : Text) (v : α) : List (Text × α) → List (Text × α)
  | [] => [(key, v)]
  | (k, w) :: rest => if k = key then (key, v) :: rest else (k, w) :: assign key v rest

/-- The arguments of a call; named ones without their sigil. -/
structure Args where
  positional : List Value := []
  named : List (Text × Value) := []

namespace Args

/-- Positional and named arguments apart; of arguments with one name the last counts. -/
def ofEntries (entries : List Entry) : Args :=
  entries.foldl
    (fun a e =>
      if e.1.isEmpty then { a with positional := a.positional ++ [e.2] }
      else { a with named := assign (without e.1 [ch '$']) e.2 a.named })
    {}

/-- The number of arguments. -/
def size (a : Args) : Nat := a.positional.length + a.named.length

/-- The argument of a name, or else the positional one at an index. -/
def get? (a : Args) (i : Int) (name : Text) : Option Value :=
  match a.named.lookup name with
  | some v => some v
  | none => if i < 0 then none else a.positional[i.toNat]?

/-- A required argument. -/
def value (a : Args) (i : Int) (name : Text) : Except FunctionError Value :=
  match a.get? i name with
  | some v => .ok v
  | none => .error (.missing name)

end Args

/-- A value as a number; a string that is a numeral is one. -/
def Value.toNumber (name : Text) (v : Value) : Except FunctionError Number :=
  match v with
  | .number n => .ok n
  | .string t _ =>
    match Double.read? (trim t) with
    | some f => .ok ⟨f, []⟩
    | none => .error (.notNumber name v.text)
  | _ => .error (.notNumber name v.text)

namespace Args

/-- A required number. -/
def number (a : Args) (i : Int) (name : Text) : Except FunctionError Number := do
  (← a.value i name).toNumber name

/-- A required color; keywords count. -/
def color (a : Args) (i : Int) (name : Text) : Except FunctionError Color := do
  let v ← a.value i name
  match v.toColor? with
  | some c => return c
  | none => throw (.notColor name v.text)

/-- A required number without its fraction. -/
def int (a : Args) (i : Int) (name : Text) : Except FunctionError Int := do
  return Double.toWord (← a.number i name).value

/-- Required numbers in the order of their names. -/
def numbersFrom (a : Args) : Int → List Text → Except FunctionError (List Number)
  | _, [] => .ok []
  | i, name :: names => do
    let n ← a.number i name
    let ns ← numbersFrom a (i + 1) names
    return n :: ns

/-- A single argument as a list, or several arguments as the members of one. -/
def asEntries (a : Args) : Text × List Entry :=
  match a.positional with
  | [v] => v.toEntries
  | vs => ([ch ','], vs.map ([], ·))

/-- The members of `asEntries`. -/
def members (a : Args) : List Value := a.asEntries.2.map (·.2)

end Args

/-- An amount given as a percentage or a bare number; bare numbers from 1 on are
percentages, smaller ones fractions. -/
def Number.fraction (n : Number) : Float :=
  if n.unit = Number.percent || n.value ≥ 1 || n.value ≤ -1 then n.value / 100 else n.value

/-- A registration. The arity is `-1` for a function of any number of arguments. -/
structure Function where
  name : Text
  arity : Int
  category : Text
  run : Args → Except FunctionError Value

/-- The arity of functions taking any number of arguments. -/
def variadic : Int := -1

/-- What a registration of a name for a number of arguments is stored under: the two in one text,
with `n` for any number. -/
def Function.keyOf (name : Text) (arity : Int) : Text :=
  name ++ ch ':' :: if arity = variadic then of "n" else ofInt arity

/-- What a registration is stored under. -/
def Function.keyText (f : Function) : Text := Function.keyOf f.name f.arity

/-- Functions by name and number of arguments. -/
structure Table where
  functions : List Function := []

namespace Table

/-- Adds a registration in place of one with the same key. -/
def register (t : Table) (f : Function) : Table :=
  ⟨f :: t.functions.filter fun g => g.keyText ≠ f.keyText⟩

/-- Adds registrations in order. -/
def registerAll (t : Table) (fs : List Function) : Table := fs.foldl register t

/-- The registration under a key. -/
def find? (t : Table) (name : Text) (arity : Int) : Option Function :=
  t.functions.find? fun f => f.keyText = Function.keyOf name arity

/-- The function for a call with `arity` arguments: the one registered for just as many,
or else the one for any number. -/
def lookup? (t : Table) (name : Text) (arity : Int) : Option Function :=
  (t.find? name arity) <|> (t.find? name variadic)

/-- The result of a call, or nothing if no function answers to it. -/
def call (t : Table) (name : Text) (entries : List Entry) :
    Except FunctionError (Option Value) :=
  match t.lookup? name entries.length with
  | some f => (f.run (Args.ofEntries entries)).map some
  | none => .ok none

/-- Listed by category, then by name, then by arity. -/
def precedes (f g : Function) : Bool :=
  if f.category ≠ g.category then le f.category g.category
  else if f.name ≠ g.name then le f.name g.name
  else f.arity ≤ g.arity

/-- Every registration, by category, name and arity. -/
def entries (t : Table) : List Function := t.functions.mergeSort precedes

end Table

end Stylesheet
