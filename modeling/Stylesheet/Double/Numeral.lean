import Stylesheet.Text
import Stylesheet.Text.Case
import Stylesheet.Double.Binary

/-!
# Reading numerals

Text read as a double: decimal numerals with an optional fraction and exponent,
hexadecimal numerals with a mandatory binary exponent, underscores between digits, and
the words for infinity and not-a-number. The result is the nearest double; a numeral
beyond the largest one is refused.

## Main definitions

* `Double.read?` — the double a text denotes
-/

namespace Stylesheet.Double

open Text

/-- The words for values that are not numerals, an infinity with an optional sign. -/
def readWord? (t : Text) : Option Float :=
  let (negative, body) :=
    if head0 t = ch '-' then (true, t.drop 1)
    else if head0 t = ch '+' then (false, t.drop 1)
    else (false, t)
  let word := body.map lowerByte
  if word = of "inf" || word = of "infinity" then
    some (if negative then -(1.0 / 0.0) else 1.0 / 0.0)
  else if t.map lowerByte = of "nan" then some (0.0 / 0.0)
  else none

/-- What stands before a byte, for the rule on underscores. -/
inductive Before where
  | start
  | digit
  | underscore
  | other
  deriving DecidableEq

/-- Underscores stand only between digits. -/
def underscoresFit (isDigit : UInt8 → Bool) : Before → Text → Bool
  | before, [] => before ≠ .underscore
  | before, c :: r =>
    if isDigit c then underscoresFit isDigit .digit r
    else if c = ch '_' then before = .digit && underscoresFit isDigit .underscore r
    else before ≠ .underscore && underscoresFit isDigit .other r

/-- The digits of a mantissa: its value without the point, the number of digits after
the point, whether there is a digit, and what follows. -/
structure Mantissa where
  value : Nat := 0
  places : Nat := 0
  point : Bool := false
  any : Bool := false

/-- Reads digits and at most one point. -/
def readMantissa (base : Nat) (isDigit : UInt8 → Bool) : Mantissa → Text → Mantissa × Text
  | m, [] => (m, [])
  | m, c :: r =>
    if c = ch '_' then readMantissa base isDigit m r
    else if c = ch '.' then
      if m.point then (m, c :: r) else readMantissa base isDigit { m with point := true } r
    else if isDigit c then
      readMantissa base isDigit
        { m with
          value := m.value * base + hexValue c
          places := if m.point then m.places + 1 else m.places
          any := true } r
    else (m, c :: r)

/-- The digits of an exponent; further digits of an enormous one are ignored. -/
def readExponent : Nat → Text → Nat × Text
  | e, [] => (e, [])
  | e, c :: r =>
    if c = ch '_' then readExponent e r
    else if isDigit c then
      readExponent (if e < 10000 then e * 10 + hexValue c else e) r
    else (e, c :: r)

/-- The exponent after its mark: a sign and at least one digit, to the end. -/
def exponentOf? (t : Text) : Option Int :=
  let (negative, digits) :=
    if head0 t = ch '-' then (true, t.drop 1)
    else if head0 t = ch '+' then (false, t.drop 1)
    else (false, t)
  if isDigit (head0 digits) then
    match readExponent 0 digits with
    | (e, []) => some (if negative then -(e : Int) else e)
    | _ => none
  else none

/-- The quotient as a double, unless it is too large for one. -/
def finite? (negative : Bool) (num den : Nat) : Option Float :=
  let f := ofRatio negative num den
  if f.isInf then none else some f

/-- `m * base ^ e`, unless it is too large. Decimal exponents so high or low that the size
of `m` alone tells the result are not computed with. -/
def power? (negative : Bool) (m base : Nat) (e : Int) : Option Float :=
  if m = 0 then some (ofRatio negative 0 1)
  else
    let size : Int := Nat.log2 m
    if base = 10 && e + size * 3 / 10 > 400 then none
    else if base = 10 && e + size < -400 then some (ofRatio negative 0 1)
    else if e ≥ 0 then finite? negative (m * Nat.pow base e.toNat) 1
    else finite? negative m (Nat.pow base (-e).toNat)

/-- A numeral without its sign. -/
def readUnsigned? (negative : Bool) (t : Text) : Option Float :=
  let hex := t.length > 2 && head0 t = ch '0' && lowerByte (at0 t 1) = ch 'x'
  let base := if hex then 16 else 10
  let body := if hex then t.drop 2 else t
  let digit := if hex then isHex else isDigit
  if underscoresFit digit (if hex then .digit else .start) body then
    match readMantissa base digit {} body with
    | (m, rest) =>
      if !m.any then none
      else match rest with
        | [] => if hex then none else power? negative m.value 10 (-(m.places : Int))
        | c :: r =>
          if lowerByte c = ch (if hex then 'p' else 'e') then
            (exponentOf? r).bind fun e =>
              if hex then power? negative m.value 2 (e - 4 * m.places)
              else power? negative m.value 10 (e - m.places)
          else none
  else none

/-- The double a text denotes, all of it being a numeral or one of the words. -/
def read? (t : Text) : Option Float :=
  match readWord? t with
  | some f => some f
  | none =>
    if head0 t = ch '-' then readUnsigned? true (t.drop 1)
    else if head0 t = ch '+' then readUnsigned? false (t.drop 1)
    else readUnsigned? false t

end Stylesheet.Double
