import Stylesheet.Value
import Stylesheet.Value.Units

/-!
# Operators

Arithmetic, negation and comparison of values, as one coercion matrix. Lists combine
member by member; numbers after conversion of units; colors channel by channel, with
numbers and color keywords promoted to colors; addition with a string concatenates.

## Main definitions

* `ArithOp`, `CompareOp` — the operators
* `ArithError` — why an operation has no result
* `Value.arith`, `Value.negate` — arithmetic
* `Value.equal`, `Value.compare` — comparison
-/

namespace Stylesheet

open Text

/-- The arithmetic operators. -/
inductive ArithOp where
  | add
  | sub
  | mul
  | div
  deriving DecidableEq

/-- The sign of an operator. -/
def ArithOp.sign : ArithOp → Text
  | .add => of "+"
  | .sub => of "-"
  | .mul => of "*"
  | .div => of "/"

/-- Why operands cannot be combined. -/
inductive ArithError where
  | divisionByZero
  | operands (left : Kind) (op : ArithOp) (right : Kind)
  | negation (kind : Kind)
  deriving DecidableEq

/-- The wording of an arithmetic error. -/
def ArithError.message : ArithError → Text
  | .divisionByZero => of "division by zero"
  | .operands a op b =>
    of "incompatible operands: " ++ a.name ++ ch ' ' :: op.sign ++ ch ' ' :: b.name
  | .negation k => of "incompatible operands: -" ++ k.name

/-- An operator on magnitudes. -/
def ArithOp.apply (op : ArithOp) (a b : Float) : Except ArithError Float :=
  match op with
  | .add => .ok (a + b)
  | .sub => .ok (a - b)
  | .mul => .ok (a * b)
  | .div => if b == 0 then .error .divisionByZero else .ok (a / b)

/-- Addition or subtraction, which never fail. -/
def ArithOp.sum (op : ArithOp) (a b : Float) : Float :=
  match op with
  | .sub => a - b
  | _ => a + b

/-- The operators that scale a number. -/
def ArithOp.scales : ArithOp → Bool
  | .mul | .div => true
  | _ => false

namespace Number

/-- The percent sign as a unit. -/
def percent : Text := [ch '%']

/-- A product or quotient where at most one side has a unit. -/
def scale (op : ArithOp) (a b : Number) : Except ArithError Number := do
  let v ← op.apply a.value b.value
  return ⟨v, if a.unit.isEmpty && op = .mul then b.unit else a.unit⟩

/-- Operands of one unit, or of units both known. Where the units do not convert, the
magnitudes are combined as they are, in the unit on the left. -/
def arithConverted (op : ArithOp) (a b : Number) : Except ArithError Number := do
  let converted := convert? b.value b.unit a.unit
  let v ← op.apply a.value (converted.getD b.value)
  return ⟨v, if op = .div && converted.isSome then [] else a.unit⟩

/-- Operands of one unit; a quotient has none. -/
def arithSame (op : ArithOp) (a b : Number) : Except ArithError Number := do
  let v ← op.apply a.value b.value
  return ⟨v, if op = .div then [] else a.unit⟩

/-- Operands of which one is bare: a factor, or a summand that takes the other's unit,
counting as a fraction of the whole next to a percentage. -/
def arithBare (op : ArithOp) (a b : Number) : Except ArithError Number :=
  if op.scales then scale op a b
  else if a.unit = percent || b.unit = percent then
    let fraction (n : Number) : Float := if n.unit = percent then n.value / 100 else n.value
    .ok ⟨op.sum (fraction a) (fraction b) * 100, percent⟩
  else .ok ⟨op.sum a.value b.value, if a.unit.isEmpty then b.unit else a.unit⟩

/-- Arithmetic on numbers. A percentage next to a dimension is a share of it. -/
def arith (op : ArithOp) (a b : Number) : Except ArithError Number :=
  if a.unit = b.unit then arithSame op a b
  else if a.unit.isEmpty || b.unit.isEmpty then arithBare op a b
  else if a.unit = percent then arithSame op ⟨b.value * a.value / 100, b.unit⟩ b
  else if b.unit = percent then
    if op.scales then arithBare op a ⟨b.value / 100, []⟩
    else arithSame op a ⟨a.value * b.value / 100, a.unit⟩
  else arithConverted op a b

end Number

namespace Color

/-- The gray with every channel at a magnitude. -/
def gray (n : Number) : Color := ⟨n.value, n.value, n.value, 1, {}⟩

/-- Arithmetic on colors: channel by channel, with the mean of the alphas. -/
def arith (op : ArithOp) (a b : Color) : Except ArithError Color := do
  let r ← op.apply a.r b.r
  let g ← op.apply a.g b.g
  let bl ← op.apply a.b b.b
  return { clamp ⟨r, g, bl, (a.a + b.a) / 2, {}⟩ with hints := a.hints.merge b.hints }

end Color

namespace Value

/-- The quotation mark of a string. -/
def quote? : Value → Option Char
  | .string _ q => q
  | _ => none

/-- The texts one after the other, in the first quotation marks there are. -/
def concat (op : ArithOp) (a b : Value) : Except ArithError Value :=
  match op with
  | .add => .ok (.string (a.unquoted ++ b.unquoted) (a.quote? <|> b.quote?))
  | _ => .error (.operands a.kind op b.kind)

/-- Arithmetic on values that are not lists. -/
def arithAtom (op : ArithOp) (a b : Value) : Except ArithError Value :=
  match a, b with
  | .number m, .number n => (m.arith op n).map .number
  | .number m, .color c => ((Color.gray m).arith op c).map .color
  | .number m, .string .. =>
    match b.toColor? with
    | some c => if op = .add then concat op a b else ((Color.gray m).arith op c).map .color
    | none => concat op a b
  | .color c, .number n => (c.arith op (Color.gray n)).map .color
  | .color c, .color d => (c.arith op d).map .color
  | .color c, .string .. =>
    match b.toColor? with
    | some d => (c.arith op d).map .color
    | none => concat op a b
  | .string .., .color d =>
    match a.toColor? with
    | some c => (c.arith op d).map .color
    | none => concat op a b
  | .string .., .number n =>
    match a.toColor? with
    | some c => if op = .add then concat op a b else (c.arith op (Color.gray n)).map .color
    | none => concat op a b
  | .string .., _ => concat op a b
  | _, .string .. => concat op a b
  | _, _ => .error (.operands a.kind op b.kind)

mutual

/-- An atom on the left of a value, member by member if that is a list. -/
def arithLeft (op : ArithOp) (a : Value) : Value → Except ArithError Value
  | .list sep items => (arithLeftAll op a items).map (.list sep)
  | b => arithAtom op a b

/-- An atom on the left of each member. -/
def arithLeftAll (op : ArithOp) (a : Value) :
    List (Text × Value) → Except ArithError (List (Text × Value))
  | [] => .ok []
  | (k, v) :: rest => do
    let x ← arithLeft op a v
    let xs ← arithLeftAll op a rest
    return (k, x) :: xs

end

/-- The partner of a member: the one with its key, or the positional one at its place. -/
def partner? (others : List Entry) (i : Nat) (key : Text) : Option Value :=
  if key.isEmpty then
    match others[i]? with
    | some (k, v) => if k.isEmpty then some v else none
    | none => none
  else keyed? others key

mutual

/-- Arithmetic on values. Two lists combine member by member, a member without a
partner staying as it is; a list and another value combine each member with it. -/
def arith (op : ArithOp) : Value → Value → Except ArithError Value
  | .list sep items, .list _ others => (arithPairs op others 0 items).map (.list sep)
  | .list sep items, b => (arithEach op b items).map (.list sep)
  | a, b => arithLeft op a b

/-- Each member with its partner. -/
def arithPairs (op : ArithOp) (others : List (Text × Value)) (i : Nat) :
    List (Text × Value) → Except ArithError (List (Text × Value))
  | [] => .ok []
  | (k, v) :: rest => do
    let x ←
      match partner? others i k with
      | some w => arith op v w
      | none => .ok v
    let xs ← arithPairs op others (i + 1) rest
    return (k, x) :: xs

/-- Each member with one value. -/
def arithEach (op : ArithOp) (b : Value) :
    List (Text × Value) → Except ArithError (List (Text × Value))
  | [] => .ok []
  | (k, v) :: rest => do
    let x ← arith op v b
    let xs ← arithEach op b rest
    return (k, x) :: xs

end

mutual

/-- The negation of a number, of an unquoted text by a minus sign, or of each member. -/
def negate : Value → Except ArithError Value
  | .number n => .ok (.number { n with value := -n.value })
  | .string t none => .ok (.plain (ch '-' :: t))
  | .list sep items => (negateAll items).map (.list sep)
  | v => .error (.negation v.kind)

/-- The negation of each member. -/
def negateAll : List (Text × Value) → Except ArithError (List (Text × Value))
  | [] => .ok []
  | (k, v) :: rest => do
    let x ← negate v
    let xs ← negateAll rest
    return (k, x) :: xs

end

/-! ### Comparison -/

/-- Equality of two values that are not both lists. Numbers are equal up to a billionth
after conversion; a color equals whatever spells it; strings are equal without their
quotes; anything else is compared as text. -/
def equalAtom (a b : Value) : Bool :=
  match a, b with
  | .number m, .number n =>
    comparable m.unit n.unit &&
      (m.value - (convert? n.value n.unit m.unit).getD n.value).abs < 1e-9
  | .color c, _ =>
    match b.toColor? with
    | some d => c.r == d.r && c.g == d.g && c.b == d.b && c.a == d.a
    | none => a.unquoted = b.unquoted
  | .string s _, .string t _ => s = t
  | .string .., .color d =>
    match a.toColor? with
    | some c => d.r == c.r && d.g == c.g && d.b == c.b && d.a == c.a
    | none => a.unquoted = b.unquoted
  | .bool x, .bool y => x = y
  | _, _ => a.unquoted = b.unquoted

mutual

/-- Equality of values; lists have equal keys and equal values, whatever separates them. -/
def equal : Value → Value → Bool
  | .list _ items, .list _ others => equalAll items others
  | a, b => equalAtom a b

/-- Equality of members. -/
def equalAll : List (Text × Value) → List (Text × Value) → Bool
  | [], [] => true
  | (k, v) :: rest, (l, w) :: others => k = l && equal v w && equalAll rest others
  | _, _ => false

end

/-- The order of numbers after conversion, and of all else as text. -/
def order (a b : Value) : Ordering :=
  match a, b with
  | .number m, .number n =>
    let v := (convert? n.value n.unit m.unit).getD n.value
    if m.value < v then .lt else if m.value > v then .gt else .eq
  | _, _ =>
    let s := a.unquoted
    let t := b.unquoted
    if s = t then .eq else if le s t then .lt else .gt

end Value

/-- The comparison operators. -/
inductive CompareOp where
  | eq
  | ne
  | lt
  | le
  | gt
  | ge
  deriving DecidableEq

/-- The result of a comparison. -/
def Value.compare (op : CompareOp) (a b : Value) : Bool :=
  match op with
  | .eq => a.equal b
  | .ne => !a.equal b
  | .lt => a.order b = .lt
  | .le => a.order b ≠ .gt
  | .gt => a.order b = .gt
  | .ge => a.order b ≠ .lt

end Stylesheet
