import Stylesheet.Text
import Stylesheet.Text.Case

/-!
# Units

The units of CSS. Units of one dimension convert into each other through the
dimension's base unit: millimetre, degree, millisecond, hertz, dots per pixel. Relative
units are known but convert into nothing else.

## Main definitions

* `Dimension` — a family of convertible units
* `unitTable` — unit, dimension and factor to the base unit
* `isKnownUnit`, `dimensionOf?`, `comparable` — questions about units
* `convert?` — a magnitude in another unit
-/

namespace Stylesheet

open Text

/-- A family of mutually convertible units. -/
inductive Dimension where
  | length
  | angle
  | time
  | frequency
  | resolution
  | percentage
  deriving DecidableEq

/-- The name of a dimension. -/
def Dimension.name : Dimension → Text
  | .length => of "length"
  | .angle => of "angle"
  | .time => of "time"
  | .frequency => of "frequency"
  | .resolution => of "resolution"
  | .percentage => of "percentage"

/-- A convertible unit: `factor` base units of its dimension. -/
structure Measure where
  dimension : Dimension
  factor : Float

/-- The convertible units. -/
def unitTable : List (Text × Measure) := [
  (of "mm", ⟨.length, 1⟩),
  (of "cm", ⟨.length, 10⟩),
  (of "q", ⟨.length, 0.25⟩),
  (of "in", ⟨.length, 25.4⟩),
  (of "pt", ⟨.length, 0.352777777777777777777778⟩),
  (of "pc", ⟨.length, 4.23333333333333333333333⟩),
  (of "px", ⟨.length, 0.264583333333333333333333⟩),
  (of "deg", ⟨.angle, 1⟩),
  (of "grad", ⟨.angle, 0.9⟩),
  (of "rad", ⟨.angle, 57.2957795130823208767981548⟩),
  (of "turn", ⟨.angle, 360⟩),
  (of "ms", ⟨.time, 1⟩),
  (of "s", ⟨.time, 1000⟩),
  (of "hz", ⟨.frequency, 1⟩),
  (of "khz", ⟨.frequency, 1000⟩),
  (of "dppx", ⟨.resolution, 1⟩),
  (of "dpi", ⟨.resolution, 0.0104166666666666666666667⟩),
  (of "dpcm", ⟨.resolution, 0.0264583333333333333333333⟩),
  (of "%", ⟨.percentage, 1⟩)]

/-- Units relative to a font, the viewport or free space. -/
def relativeUnits : List Text :=
  ["em", "ex", "rem", "ch", "vw", "vh", "vmin", "vmax", "fr"].map of

/-- Every unit known, convertible ones first. -/
def knownUnits : List Text := unitTable.map (·.1) ++ relativeUnits

/-- The measure of a convertible unit, in any case. -/
def measureOf? (unit : Text) : Option Measure := unitTable.lookup (lower unit)

/-- A unit of CSS, in any case. -/
def isKnownUnit (unit : Text) : Bool := knownUnits.contains (lower unit)

/-- The dimension of a convertible unit. -/
def dimensionOf? (unit : Text) : Option Dimension := (measureOf? unit).map (·.dimension)

/-- Numbers in the two units can be combined: one has no unit, the units are the same,
or they belong to one dimension. -/
def comparable (a b : Text) : Bool :=
  a.isEmpty || b.isEmpty || a = b ||
    match dimensionOf? a, dimensionOf? b with
    | some da, some db => da = db
    | _, _ => false

/-- A magnitude in unit `src` expressed in unit `dst`, if the units convert. -/
def convert? (v : Float) (src dst : Text) : Option Float :=
  if lower src = lower dst then some v
  else match measureOf? src, measureOf? dst with
    | some s, some d => if s.dimension = d.dimension then some (v * s.factor / d.factor) else none
    | _, _ => none

end Stylesheet
