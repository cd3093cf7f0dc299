/-!
# Doubles as binary fractions

A finite double is a sign, a natural mantissa and a power of two. Reading numerals,
remainders and shortest numerals are all exact arithmetic on that form, so this file
decodes a double into it and rounds an exact quotient back.

## Main definitions

* `Binary` — sign, mantissa and exponent
* `Binary.ofFloat` — decoding
* `Binary.truncate` — the integer part
* `Double.ofRatio` — the double nearest to a quotient, ties to the even mantissa
* `Double.remainder` — the exact remainder, with the sign of the dividend
* `Double.toWord` — the integer part as a signed 64-bit word
* `Double.round` — the nearest integer
-/

namespace Stylesheet

/-- The number `mantissa * 2 ^ exponent`, negated if `negative`. -/
structure Binary where
  negative : Bool
  mantissa : Nat
  exponent : Int

/-- The value of a finite double. -/
def Binary.ofFloat (f : Float) : Binary :=
  let bits : Nat := f.toBits.toNat
  let field : Nat := bits / Nat.pow 2 52 % 2048
  let fraction : Nat := bits % Nat.pow 2 52
  { negative := bits / Nat.pow 2 63 = 1
    mantissa := if field = 0 then fraction else Nat.pow 2 52 + fraction
    exponent := if field = 0 then -1074 else (field : Int) - 1075 }

/-- The integer part. -/
def Binary.truncate (b : Binary) : Int :=
  let n : Nat :=
    if b.exponent ≥ 0 then b.mantissa * Nat.pow 2 b.exponent.toNat
    else b.mantissa / Nat.pow 2 (-b.exponent).toNat
  if b.negative then -n else n

/-- The smallest mantissa of a normal double is next to a smaller gap, unless the
exponent is the least one. -/
def Binary.narrowBelow (b : Binary) : Bool := b.mantissa = Nat.pow 2 52 && b.exponent > -1074

namespace Double

/-- The double with this sign, mantissa below `2 ^ 53 + 1` and exponent at least
`-1074`; a value too large for a double is infinite. -/
def assemble (negative : Bool) (mantissa : Nat) (exponent : Int) : Float :=
  let (m, e) :=
    if mantissa = Nat.pow 2 53 then (Nat.pow 2 52, exponent + 1) else (mantissa, exponent)
  let sign : Nat := if negative then Nat.pow 2 63 else 0
  let field := (e + 1075).toNat
  let body :=
    if m < Nat.pow 2 52 then m
    else if field ≥ 2047 then 2047 * Nat.pow 2 52
    else field * Nat.pow 2 52 + (m - Nat.pow 2 52)
  Float.ofBits (UInt64.ofNat (sign + body))

/-- The quotient rounded to the nearest integer, a half to the even one. -/
def roundQuotient (num den : Nat) : Nat :=
  let q := num / den
  let r := num % den
  if 2 * r > den || (2 * r = den && q % 2 = 1) then q + 1 else q

/-- `num / den` scaled by `2 ^ (-e)`, as numerator and denominator. -/
def scaled (num den : Nat) (e : Int) : Nat × Nat :=
  if e ≥ 0 then (num, den * Nat.pow 2 e.toNat) else (num * Nat.pow 2 (-e).toNat, den)

/-- The exponent `e` with `2 ^ e ≤ num / den < 2 ^ (e + 1)`. -/
def binaryLog (num den : Nat) : Int :=
  let e : Int := (Nat.log2 num : Int) - Nat.log2 den
  let (n, d) := scaled num den e
  if n < d then e - 1 else e

/-- The double nearest to `num / den`, a tie going to the even mantissa. -/
def ofRatio (negative : Bool) (num den : Nat) : Float :=
  if num = 0 then assemble negative 0 (-1074)
  else
    let unit := max (binaryLog num den - 52) (-1074)
    let (n, d) := scaled num den unit
    assemble negative (roundQuotient n d) unit

/-- The double nearest to a binary fraction. -/
def ofBinary (b : Binary) : Float :=
  if b.exponent ≥ 0 then ofRatio b.negative (b.mantissa * Nat.pow 2 b.exponent.toNat) 1
  else ofRatio b.negative b.mantissa (Nat.pow 2 (-b.exponent).toNat)

/-- The remainder of `x` by `y`: `x` less a whole multiple of `y`, with the sign of
`x` and smaller than `y`. Not a number unless `x` is finite and `y` is not zero. -/
def remainder (x y : Float) : Float :=
  if x.isNaN || x.isInf || y.isNaN || y == 0 then 0.0 / 0.0
  else if y.isInf then x
  else
    let a := Binary.ofFloat x
    let b := Binary.ofFloat y
    let e := min a.exponent b.exponent
    let m := a.mantissa * Nat.pow 2 (a.exponent - e).toNat
    let n := b.mantissa * Nat.pow 2 (b.exponent - e).toNat
    ofBinary ⟨a.negative, m % n, e⟩

/-- The integer part as a signed 64-bit word. What does not fit is the least word. -/
def toWord (f : Float) : Int :=
  -- What is not finite is decoded with the greatest exponent of all, so it does not fit either.
  let i := (Binary.ofFloat f).truncate
  if -9223372036854775808 ≤ i ∧ i < 9223372036854775808 then i else -9223372036854775808

/-- The nearest integer, a half going away from zero. What is not finite stays as it is. -/
def round (f : Float) : Float :=
  let b := Binary.ofFloat f
  if b.exponent ≥ 0 then f
  else
    let den := Nat.pow 2 (-b.exponent).toNat
    ofRatio b.negative ((2 * b.mantissa + den) / (2 * den)) 1

/-- The double of an integer. -/
def ofInt (n : Int) : Float := ofRatio (n < 0) n.natAbs 1

/-- The larger of two doubles; not a number if either is. -/
def larger (a b : Float) : Float :=
  if a.isNaN || b.isNaN then 0.0 / 0.0 else if a < b then b else a

/-- The smaller of two doubles; not a number if either is. -/
def smaller (a b : Float) : Float :=
  if a.isNaN || b.isNaN then 0.0 / 0.0 else if b < a then b else a

/-- The value moved into the interval from `lo` to `hi`. -/
def clamp (lo hi v : Float) : Float := larger lo (smaller hi v)

end Double

end Stylesheet
