import Stylesheet.Double.Binary

/-!
# Trigonometric functions

Sine, cosine and tangent of an angle in radians. The angle is reduced by a multiple of
a quarter of pi, which is subtracted in three parts so that no digits are lost, and the
function of the rest is a polynomial or a quotient of two. Angles too large for that
reduction are left to the functions of the machine.

## Main definitions

* `Double.sin`, `Double.cos`, `Double.tan`
-/

namespace Stylesheet.Double

/-- The polynomial with these coefficients, highest power first. -/
def horner (coefficients : List Float) (x : Float) : Float :=
  match coefficients with
  | [] => 0
  | c :: rest => rest.foldl (fun acc c => acc * x + c) c

/-- The angle from which the reduction loses digits. -/
def reduceLimit : Float := 536870912

/-- An angle as `octant` eighths of a turn and a rest. -/
structure Octant where
  octant : Nat
  rest : Float

/-- Reduces a non-negative angle to the nearest even octant boundary. -/
def reduceAngle (x : Float) : Octant :=
  let j := (toWord (x * (4 / 3.14159265358979323846264338327950288))).toNat
  let j := if j % 2 = 1 then j + 1 else j
  let y := ofInt j
  let z := ((x - y * 7.85398125648498535156e-1) - y * 3.77489470793079817668e-8)
    - y * 2.69515142907905952645e-15
  ⟨j % 8, z⟩

/-- The sine of a reduced angle. -/
def sineOf (z : Float) : Float :=
  let zz := z * z
  z + z * zz * horner [1.58962301576546568060e-10, -2.50507477628578072866e-8,
    2.75573136213857245213e-6, -1.98412698295895385996e-4, 8.33333333332211858878e-3,
    -1.66666666666666307295e-1] zz

/-- The cosine of a reduced angle. -/
def cosineOf (z : Float) : Float :=
  let zz := z * z
  1.0 - 0.5 * zz + zz * zz * horner [-1.13585365213876817300e-11, 2.08757008419747316778e-9,
    -2.75573141792967388112e-7, 2.48015872888517045348e-5, -1.38888888888730564116e-3,
    4.16666666666665929218e-2] zz

/-- Sine of an angle in radians. -/
def sin (x : Float) : Float :=
  if x == 0 || x.isNaN then x
  else if x.isInf then 0.0 / 0.0
  else if x.abs ≥ reduceLimit then x.sin
  else
    let r := reduceAngle x.abs
    let (k, flip) := if r.octant > 3 then (r.octant - 4, !(x < 0)) else (r.octant, x < 0)
    let y := if k = 1 || k = 2 then cosineOf r.rest else sineOf r.rest
    if flip then -y else y

/-- Cosine of an angle in radians. -/
def cos (x : Float) : Float :=
  if x.isNaN || x.isInf then 0.0 / 0.0
  else if x.abs ≥ reduceLimit then x.cos
  else
    let r := reduceAngle x.abs
    let (k, flip) := if r.octant > 3 then (r.octant - 4, true) else (r.octant, false)
    let flip := if k > 1 then !flip else flip
    let y := if k = 1 || k = 2 then sineOf r.rest else cosineOf r.rest
    if flip then -y else y

/-- Tangent of an angle in radians. -/
def tan (x : Float) : Float :=
  if x == 0 || x.isNaN then x
  else if x.isInf then 0.0 / 0.0
  else if x.abs ≥ reduceLimit then x.tan
  else
    let r := reduceAngle x.abs
    let z := r.rest
    let zz := z * z
    let y :=
      if zz > 1e-14 then
        z + z * (zz * horner [-1.30936939181383734205e4, 1.15351664838587416140e6,
            -1.79565251976484877988e7] zz /
          horner [1.0, 1.36812963470692954678e4, -1.32089234440210967447e6,
            2.50083801823357915839e7, -5.38695755929454629881e7] zz)
      else z
    let y := if r.octant % 4 = 2 then -1 / y else y
    if x < 0 then -y else y

end Stylesheet.Double
