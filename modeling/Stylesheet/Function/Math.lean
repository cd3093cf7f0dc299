import Stylesheet.Function
import Stylesheet.Double.Trig

/-!
# Math functions

Rounding, units, extrema, trigonometry and ranges of numbers.

## Main definitions

* `mathFunctions` — the registrations
-/

namespace Stylesheet

open Text

namespace MathFunction

/-- A bare number as a percentage. -/
def percentage (a : Args) : Except FunctionError Value := do
  let n ← a.number 0 (of "number")
  if n.unitless then return .number ⟨n.value * 100, Number.percent⟩
  else throw (.hasUnit n.text)

/-- No unit? -/
def unitless (a : Args) : Except FunctionError Value := do
  return .bool (← a.number 0 (of "number")).unitless

/-- The unit in quotes. -/
def unit (a : Args) : Except FunctionError Value := do
  return .quoted (← a.number 0 (of "number")).unit

/-- Can the two numbers be combined? -/
def comparable (a : Args) : Except FunctionError Value := do
  let m ← a.number 0 (of "number1")
  let n ← a.number 1 (of "number2")
  return .bool (m.unitless || n.unitless || Stylesheet.comparable m.unit n.unit)

/-- A function of the magnitude that keeps the unit. -/
def rounding (f : Float → Float) (a : Args) : Except FunctionError Value := do
  let n ← a.number 0 (of "number")
  return .ofMeasure (f n.value) n.unit

/-- The number that wins `op` against those before it. -/
def extremumFrom (op : CompareOp) : Number → List Value → Except FunctionError Number
  | best, [] => .ok best
  | best, v :: rest => do
    let n ← v.toNumber (of "numbers")
    if !n.unitless && !best.unitless && !Stylesheet.comparable n.unit best.unit then
      throw (.mixedUnits best.text n.text)
    extremumFrom op (if Value.compare op (.number n) (.number best) then n else best) rest

/-- The member that wins `op` against all others. -/
def extremum (op : CompareOp) (a : Args) : Except FunctionError Value :=
  match a.members with
  | [] => .error .noNumbers
  | v :: rest => do
    let best ← v.toNumber (of "numbers")
    return .number (← extremumFrom op best rest)

/-- A function of an angle; bare numbers are radians. -/
def trig (f : Float → Float) (a : Args) : Except FunctionError Value := do
  let n ← a.number 0 (of "angle")
  if n.unitless then return .ofFloat (f n.value)
  else match convert? n.value n.unit (of "rad") with
    | some v => return .ofFloat (f v)
    | none => throw (.notAngle n.text)

/-- The ratio of a circle's circumference to its diameter. -/
def pi (_ : Args) : Except FunctionError Value :=
  .ok (.ofFloat 3.14159265358979323846264338327950288)

/-- The integers from `first` through `last`. -/
def interval (first last : Int) : List Int :=
  (List.range (last - first + 1).toNat).map fun (i : Nat) => first + i

/-- The integers from zero, or from `$from`, through `$through`. -/
def range (a : Args) : Except FunctionError Value := do
  let (first, last) ←
    match a.positional with
    | [_] => do pure (0, ← a.int 0 (of "through"))
    | _ => do
      let first ← a.int 0 (of "from")
      pure (first, ← a.int 1 (of "through"))
  return .ofList [ch ','] ((interval first last).map fun i => .ofFloat (Double.ofInt i))

end MathFunction

open MathFunction in
/-- The math functions. -/
def mathFunctions : List Function :=
  [ ("percentage", 1, percentage), ("unitless", 1, unitless), ("unit", 1, unit),
    ("comparable", 2, MathFunction.comparable), ("round", 1, rounding Double.round),
    ("ceil", 1, rounding Float.ceil), ("floor", 1, rounding Float.floor),
    ("abs", 1, rounding Float.abs), ("min", variadic, extremum .lt),
    ("max", variadic, extremum .gt), ("pi", 0, pi), ("sin", 1, trig Double.sin),
    ("cos", 1, trig Double.cos), ("tan", 1, trig Double.tan), ("range", 1, range),
    ("range", 2, range) ].map fun (name, arity, run) => ⟨of name, arity, of "math", run⟩

end Stylesheet
