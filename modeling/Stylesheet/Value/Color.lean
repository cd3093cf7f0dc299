import Stylesheet.Text
import Stylesheet.Text.Case
import Stylesheet.Text.Quoted
import Stylesheet.Double.Binary
import Stylesheet.Double.Shortest
import Stylesheet.Double.Numeral
import Stylesheet.Value.ColorNames

/-!
# Colors

A color has red, green and blue from 0 to 255, an alpha from 0 to 1, and counts of the
spellings it was made from. The counts decide how it is written: as `hsl()` when the
spellings by hue prevail, as a hexadecimal color when it is not transparent, and as
`rgba()` otherwise.

What is read as a color is what CSS calls one: a keyword, a hexadecimal color, or `rgb()` and
`hsl()` with numbers or percentages, hues as angles, and commas, slashes or spaces between
them. Between channels and hue, saturation and lightness the formulas are those of CSS as
well. The way to the channels is there twice, once for the colors that functions make and
once for `hsl()` as it is written, because the two round differently.

## Main definitions

* `Color`, `Hints` — a color and where it came from
* `Color.rgba`, `Color.hsla` — colors from channels
* `Color.toHsl` — hue, saturation and lightness
* `Color.text`, `Color.hexText` — spellings
* `Color.parseHex?`, `Color.parse?` — reading a color
* `shortHex`, `shortestSpelling?` — shorter spellings of the same color
-/

namespace Stylesheet

open Text

/-- How often each spelling took part in a color. -/
structure Hints where
  hex : Nat := 0
  rgb : Nat := 0
  rgba : Nat := 0
  hsl : Nat := 0
  hsla : Nat := 0
  deriving DecidableEq

/-- The counts of two colors together. -/
def Hints.merge (h k : Hints) : Hints :=
  ⟨h.hex + k.hex, h.rgb + k.rgb, h.rgba + k.rgba, h.hsl + k.hsl, h.hsla + k.hsla⟩

/-- Spellings by hue outnumber the others. -/
def Hints.prefersHsl (h : Hints) : Bool := h.hsl + h.hsla > h.hex + h.rgb + h.rgba

/-- Red, green and blue from 0 to 255, alpha from 0 to 1. -/
structure Color where
  r : Float
  g : Float
  b : Float
  a : Float
  hints : Hints := {}

/-- Hue in degrees, saturation and lightness from 0 to 1. -/
structure Hsl where
  h : Float
  s : Float
  l : Float

/-- Moved into the interval from 0 to 1. -/
def clampUnit (v : Float) : Float := Double.clamp 0 1 v

namespace Color

/-- Every channel moved into its range. -/
def clamp (c : Color) : Color :=
  { c with
    r := Double.clamp 0 255 c.r
    g := Double.clamp 0 255 c.g
    b := Double.clamp 0 255 c.b
    a := clampUnit c.a }

/-- The color with these channels, spelt `rgb()` or, if transparent, `rgba()`. -/
def rgba (r g b a : Float) : Color :=
  let c := clamp ⟨r, g, b, a, {}⟩
  { c with hints := if c.a < 1 then { rgba := 1 } else { rgb := 1 } }

/-- A hue in degrees moved into one turn. -/
def turnHue (h : Float) : Float :=
  let h := Double.remainder h 360
  if h < 0 then h + 360 else h

/-- One channel of a color of given hue, `t` being the hue in turns relative to the
channel, and `t1`, `t2` the largest and smallest channel. -/
def hueChannel (t1 t2 t : Float) : Float :=
  let t := if t < 0 then t + 1 else t
  let t := if t > 1 then t - 1 else t
  if 6 * t < 1 then t2 + (t1 - t2) * 6 * t
  else if 2 * t < 1 then t1
  else if 3 * t < 2 then t2 + (t1 - t2) * (2.0 / 3.0 - t) * 6
  else t2

/-- The largest channel of a color with this saturation and lightness. -/
def peak (s l : Float) : Float := if l < 0.5 then l * (1 + s) else l + s - l * s

/-- The channels from 0 to 1 of a color given by hue, saturation and lightness. -/
def channelsOfHsl (c : Hsl) : Float × Float × Float :=
  if c.s == 0 then (c.l, c.l, c.l)
  else
    let t1 := peak c.s c.l
    let t2 := 2 * c.l - t1
    let h := c.h / 360
    (hueChannel t1 t2 (h + 1.0 / 3.0), hueChannel t1 t2 h, hueChannel t1 t2 (h - 1.0 / 3.0))

/-- The color of hue `h` in degrees, saturation and lightness from 0 to 1, and alpha. -/
def hsla (h s l a : Float) : Color :=
  let (r, g, b) := channelsOfHsl ⟨turnHue h, clampUnit s, clampUnit l⟩
  let c := clamp ⟨clampUnit r * 255, clampUnit g * 255, clampUnit b * 255, a, {}⟩
  { c with hints := if c.a < 1 then { hsla := 1 } else { hsl := 1 } }

/-- Hue, saturation and lightness of a color; grays have hue and saturation zero. -/
def toHsl (c : Color) : Hsl :=
  let r := c.r / 255
  let g := c.g / 255
  let b := c.b / 255
  let least := Double.smaller (Double.smaller r g) b
  let most := Double.larger (Double.larger r g) b
  let l := (most + least) / 2
  if least == most then ⟨0, 0, l⟩
  else
    let d := most - least
    let s := if l < 0.5 then d / (most + least) else d / (2 - most - least)
    let h :=
      if most == r then (g - b) / d
      else if most == g then 2 + (b - r) / d
      else 4 + (r - g) / d
    let h := h * 60
    ⟨if h < 0 then h + 360 else h, s, l⟩

/-- Alpha replaced. -/
def withAlpha (c : Color) (a : Float) : Color := { c with a := clampUnit a }

/-- Hue, saturation and lightness replaced; alpha and hints kept. -/
def withHsl (c : Color) (x : Hsl) : Color := { hsla x.h x.s x.l c.a with hints := c.hints }

/-- A channel as a whole number. -/
def byte (v : Float) : Int := Double.toWord (Double.round v)

/-- A whole number in base sixteen with at least two digits. -/
def hexPair (n : Int) : Text :=
  if n < 0 then ch '-' :: hexPadded 1 n.natAbs else hexPadded 2 n.natAbs

/-- The `#rrggbb` form, without alpha. -/
def hexText (c : Color) : Text :=
  ch '#' :: hexPair (byte c.r) ++ hexPair (byte c.g) ++ hexPair (byte c.b)

/-- A percentage. -/
def percentText (v : Float) : Text := Double.format (v * 100) ++ [ch '%']

/-- A call with arguments separated by a comma and a space. -/
def callText (name : String) (args : List Text) : Text :=
  of name ++ ch '(' :: join (of ", ") args ++ [ch ')']

/-- How a color is written. -/
def text (c : Color) : Text :=
  if c.hints.prefersHsl then
    let x := c.toHsl
    let channels := [Double.format x.h, percentText x.s, percentText x.l]
    if c.a ≥ 1 then callText "hsl" channels
    else callText "hsla" (channels ++ [Double.format c.a])
  else if c.a ≥ 1 then c.hexText
  else
    callText "rgba"
      [ofInt (byte c.r), ofInt (byte c.g), ofInt (byte c.b), Double.format c.a]

/-! ### Reading -/

/-- The number written by hexadecimal digits. -/
def hexNumber (digits : Text) : Nat := digits.foldl (fun n c => n * 16 + hexValue c) 0

/-- Each digit written twice. -/
def double (digits : Text) : Text := digits.flatMap fun c => [c, c]

/-- Reads `#rgb`, `#rgba`, `#rrggbb` and `#rrggbbaa`. -/
def parseHex? (t : Text) : Option Color :=
  match t with
  | [] => none
  | c :: digits =>
    if c = ch '#' && digits.all isHex then
      let full := if digits.length = 3 || digits.length = 4 then double digits else digits
      let channel (i : Nat) : Float := Float.ofNat (hexNumber (slice full i (i + 2)))
      if full.length = 6 then
        some ⟨channel 0, channel 2, channel 4, 1, { hex := 1 }⟩
      else if full.length = 8 then
        some ⟨channel 0, channel 2, channel 4, channel 6 / 255, { hex := 1 }⟩
      else none
    else none

/-- A percentage as a fraction, or else a number in units of `1 / whole`. -/
def portion? (whole : Float) (t : Text) : Option Float :=
  if ends t [ch '%'] then (Double.read? t.dropLast).map (· / 100)
  else (Double.read? t).map (· / whole)

/-- An angle in degrees. -/
def degrees? (t : Text) : Option Float :=
  let stem (unit : String) : Text := t.take (t.length - unit.length)
  if ends t (of "deg") then Double.read? (stem "deg")
  else if ends t (of "grad") then (Double.read? (stem "grad")).map fun f => f / 400 * 360
  else if ends t (of "rad") then
    (Double.read? (stem "rad")).map fun f => f / 3.14159265358979323846264338327950288 * 180
  else if ends t (of "turn") then (Double.read? (stem "turn")).map fun f => f * 360
  else Double.read? t

/-- One channel from a hue in sixths of a turn. The hue is brought into a turn by adding
one and taking the remainder again, whatever its sign, and rounded at each step. -/
def sixthChannel (n1 n2 h : Float) : Float :=
  let h := Double.remainder (Double.remainder h 6 + 6) 6
  if h < 1 then n1 + (n2 - n1) * h
  else if h < 3 then n2
  else if h < 4 then n1 + (n2 - n1) * (4 - h)
  else n1

/-- Channels from 0 to 1 of a color written as `hsl()`. -/
def channelsOfWritten (h s l : Float) : Float × Float × Float :=
  if s == 0 then (l, l, l)
  else
    let n2 := peak s l
    let n1 := 2 * l - n2
    let h := h / 60
    (clampUnit (sixthChannel n1 n2 (h + 2)), clampUnit (sixthChannel n1 n2 h),
      clampUnit (sixthChannel n1 n2 (h - 2)))

/-- The arguments of a color function: separated by commas, slashes and spaces. -/
def components (t : Text) : List Text :=
  (split (ch ' ') (t.map fun c => if c = ch ',' || c = ch '/' then ch ' ' else c)).filter
    fun part => !part.isEmpty

/-- Channels of the functions `rgb()` and `hsl()`, and of the same with alpha. -/
def channels? (name : Text) (args : List Text) : Option (Float × Float × Float) :=
  match args with
  | x :: y :: z :: _ =>
    if name = of "rgb" || name = of "rgba" then do
      let r ← portion? 255 x
      let g ← portion? 255 y
      let b ← portion? 255 z
      return (clampUnit r, clampUnit g, clampUnit b)
    else if name = of "hsl" || name = of "hsla" then do
      let h ← degrees? x
      let s ← portion? 1 y
      let l ← portion? 1 z
      return channelsOfWritten (turnHue h) (clampUnit s) (clampUnit l)
    else none
  | _ => none

/-- The color a function call in lower case denotes. -/
def parseCall? (t : Text) : Option Color := do
  let i ← indexOf (ch '(') t
  let name := trim (t.take i)
  let args := components (t.drop (i + 1)).dropLast
  let (r, g, b) ← channels? name args
  let a ←
    match args with
    | [_, _, _] => some 1
    | [_, _, _, a] => (portion? 1 a).map clampUnit
    | _ => none
  return clamp ⟨r * 255, g * 255, b * 255, a, {}⟩

/-- A call of one of the four color functions. -/
def isCall (t : Text) : Bool :=
  ["rgb(", "rgba(", "hsl(", "hsla("].any (fun p => starts t (of p)) && ends t [ch ')']

/-- The spelling a color in lower case has. -/
def hintsOf (t : Text) : Hints :=
  if starts t (of "hsla(") then { hsla := 1 }
  else if starts t (of "hsl(") then { hsl := 1 }
  else if starts t (of "rgba(") then { rgba := 1 }
  else if starts t (of "rgb(") then { rgb := 1 }
  else { hex := 1 }

/-- Reads a hexadecimal color, a keyword, or a call of a color function. -/
def parse? (t : Text) : Option Color :=
  let t := trim t
  match parseHex? t with
  | some c => some c
  | none =>
    let low := lower t
    let found :=
      match colorNameHex? low with
      | some hex => parseHex? hex
      | none => if isCall low then parseCall? low else none
    found.map fun c => { c with hints := hintsOf low }

end Color

/-! ### Shorter spellings -/

/-- `#rgb` for a `#rrggbb` color whose channels repeat their digit; any other text
unchanged. -/
def shortHex (t : Text) : Text :=
  match t with
  | [h, r, r', g, g', b, b'] =>
    if h = ch '#' && lowerByte r = lowerByte r' && lowerByte g = lowerByte g'
        && lowerByte b = lowerByte b' then
      [h, lowerByte r, lowerByte g, lowerByte b]
    else t
  | _ => t

/-- The shorter of two texts, and of two as long the first in alphabetical order. -/
def briefer (s t : Text) : Text :=
  if s.length < t.length || (s.length = t.length && le s t) then s else t

/-- The spellings of a keyword color and the shortest of them: the short hexadecimal
form unless another is strictly shorter. -/
def spellingsOf (name hex : Text) : List Text × Text :=
  let channel (i : Nat) : Text := ofNat (Color.hexNumber (slice hex i (i + 2)))
  let rgb := [channel 1, channel 3, channel 5]
  let short := shortHex hex
  let call := Color.callText "rgb" rgb
  let callA := Color.callText "rgba" (rgb ++ [[ch '1']])
  let best :=
    [name, call, callA].foldl (fun best t => if t.length < best.length then t else best) short
  ([name, hex, short, call, callA], best)

/-- Each spelling of a keyword color with the shortest one; a spelling that several
keywords share stands several times. -/
def spellings : List (Text × Text) :=
  colorNames.flatMap fun (name, hex) =>
    let (all, best) := spellingsOf name hex
    all.map (·, best)

/-- The briefest of the candidates. -/
def briefest? : List Text → Option Text
  | [] => none
  | t :: ts => some (ts.foldl briefer t)

/-- The shortest spelling of a keyword color given as keyword, hexadecimal color,
`rgb()` or opaque `rgba()` call, in any case. -/
def shortestSpelling? (t : Text) : Option Text :=
  let t := lower t
  briefest? ((spellings.filter (·.1 = t)).map (·.2))

end Stylesheet
