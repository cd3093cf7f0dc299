import Stylesheet.Text
import Stylesheet.Double.Binary

/-!
# Shortest numerals

The numeral of a double with the fewest digits that is read back as the same double,
and of those the one nearest to it. Written in positional notation, never with an
exponent. A stylesheet number is first rounded to three decimal places, a half going
away from zero.

## Main definitions

* `Double.shortest` — digits and power of ten of the shortest numeral
* `Double.positional` — a numeral in positional notation
* `Double.format` — how numbers are written in stylesheets
-/

namespace Stylesheet.Double

/-- A number on the decimal grid: `digits * 10 ^ power`. -/
structure Decimal where
  digits : Nat
  power : Int
  deriving DecidableEq

/-- The values that are read as one double: all those from `low` to `high`, in units
of `1 / den`, with `mid` the double itself. The ends belong if `closed`. -/
structure Reading where
  low : Nat
  mid : Nat
  high : Nat
  den : Nat
  closed : Bool

/-- The values read as a positive double, in quarters of its last place. -/
def Reading.ofBinary (b : Binary) : Reading :=
  let e := b.exponent - 2
  let up := Nat.pow 2 e.toNat
  { low := (4 * b.mantissa - if b.narrowBelow then 1 else 2) * up
    mid := 4 * b.mantissa * up
    high := (4 * b.mantissa + 2) * up
    den := Nat.pow 2 (-e).toNat
    closed := b.mantissa % 2 = 0 }

/-- The number of decimal digits of a natural number. -/
def digitCount (n : Nat) : Nat := (Nat.toDigits 10 n).length

/-- The power of ten just above a value: the least `k` with `value < 10 ^ k`, for
values above `10 ^ (-400)`. -/
def Reading.magnitude (r : Reading) : Int :=
  (digitCount (r.mid * Nat.pow 10 400 / r.den) : Int) - 400

/-- The neighbour of the double on the grid of multiples of `10 ^ power` that is read
as the double, if there is one; the nearer if there are two. -/
def Reading.onGrid (r : Reading) (power : Int) : Option Nat :=
  let scale := Nat.pow 10 (-power).toNat
  let den := r.den * Nat.pow 10 power.toNat
  let mid := r.mid * scale
  let below := mid / den
  let above := below + 1
  let inside (less : Nat) (more : Nat) : Bool := less < more || (r.closed && less = more)
  let belowIn := inside (r.low * scale) (below * den)
  let aboveIn := inside (above * den) (r.high * scale)
  match belowIn, aboveIn with
  | true, true =>
    let down := mid - below * den
    let up := above * den - mid
    some (if down < up || (down = up && below % 2 = 0) then below else above)
  | true, false => some below
  | false, true => some above
  | false, false => none

/-- The coarsest grid with a hit, trying numerals of `n` digits and then of more. -/
def Reading.search (r : Reading) (magnitude : Int) : (tries n : Nat) → Decimal
  | 0, n => ⟨r.mid * Nat.pow 10 (n - magnitude).toNat / r.den, magnitude - n⟩
  | tries + 1, n =>
    match r.onGrid (magnitude - n) with
    | some d => ⟨d, magnitude - n⟩
    | none => r.search magnitude tries (n + 1)

/-- Trailing zeros moved into the power of ten. -/
def Decimal.reduce : (fuel : Nat) → Decimal → Decimal
  | 0, d => d
  | fuel + 1, d =>
    if d.digits ≠ 0 && d.digits % 10 = 0 then Decimal.reduce fuel ⟨d.digits / 10, d.power + 1⟩
    else d

/-- The shortest decimal read as this positive binary fraction. -/
def shortest (b : Binary) : Decimal :=
  let r := Reading.ofBinary b
  let d := r.search r.magnitude 17 1
  Decimal.reduce (digitCount d.digits) d

/-- Positional notation. -/
def positional (d : Decimal) : Text :=
  let digits := Text.ofNat d.digits
  if d.power ≥ 0 then digits ++ List.replicate d.power.toNat (ch '0')
  else
    let places := (-d.power).toNat
    if places < digits.length then
      digits.take (digits.length - places) ++ ch '.' :: digits.drop (digits.length - places)
    else ch '0' :: ch '.' :: List.replicate (places - digits.length) (ch '0') ++ digits

/-- Rounded to three decimal places, a half going away from zero. -/
def toThousandths (f : Float) : Float := round (f * 1000) / 1000

/-- A number as stylesheets write it: three decimal places at most, the fewest digits,
no exponent and no negative zero. -/
def format (f : Float) : Text :=
  let r := toThousandths f
  if r.isNaN then Text.of "NaN"
  else if r.isInf then Text.of (if r < 0 then "-Inf" else "+Inf")
  else
    let b := Binary.ofFloat r
    if b.mantissa = 0 then [ch '0']
    else (if b.negative then [ch '-'] else []) ++ positional (shortest b)

end Stylesheet.Double
