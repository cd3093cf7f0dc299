import Stylesheet.Function

/-!
# Color functions

Making colors, reading their channels, and changing them by hue, saturation,
lightness, channel or alpha.

## Main definitions

* `colorFunctions` — the registrations
-/

namespace Stylesheet

open Text

namespace ColorFunction

/-- A channel given from 0 to 255 or as a percentage. -/
def byteChannel (n : Number) : Float :=
  if n.unit = Number.percent then n.value * 255 / 100 else n.value

/-- An alpha given from 0 to 1 or as a percentage. -/
def alphaChannel (n : Number) : Float :=
  if n.unit = Number.percent then n.value / 100 else n.value

/-- `rgb($red, $green, $blue)`. -/
def rgb (a : Args) : Except FunctionError Value := do
  let r ← a.number 0 (of "red")
  let g ← a.number 1 (of "green")
  let b ← a.number 2 (of "blue")
  return .color (.rgba (byteChannel r) (byteChannel g) (byteChannel b) 1)

/-- `rgba($red, $green, $blue, $alpha)`. -/
def rgba (a : Args) : Except FunctionError Value := do
  let r ← a.number 0 (of "red")
  let g ← a.number 1 (of "green")
  let b ← a.number 2 (of "blue")
  let alpha ← a.number 3 (of "alpha")
  let c := Color.rgba (byteChannel r) (byteChannel g) (byteChannel b) (alphaChannel alpha)
  return .color { c with hints := { rgba := 1 } }

/-- `rgba($color, $alpha)`. -/
def rgbaOfColor (a : Args) : Except FunctionError Value := do
  let c ← a.color 0 (of "color")
  let alpha ← a.number 1 (of "alpha")
  return .color { c.withAlpha (alphaChannel alpha) with hints := { rgba := 1 } }

/-- `hsl($hue, $saturation, $lightness)`. -/
def hsl (a : Args) : Except FunctionError Value := do
  let h ← a.number 0 (of "hue")
  let s ← a.number 1 (of "saturation")
  let l ← a.number 2 (of "lightness")
  return .color (.hsla h.value s.fraction l.fraction 1)

/-- `hsla($hue, $saturation, $lightness, $alpha)`. -/
def hsla (a : Args) : Except FunctionError Value := do
  let h ← a.number 0 (of "hue")
  let s ← a.number 1 (of "saturation")
  let l ← a.number 2 (of "lightness")
  let alpha ← a.number 3 (of "alpha")
  return .color (.hsla h.value s.fraction l.fraction (alphaChannel alpha))

/-- A property of `$color`. -/
def channel (get : Color → Value) (a : Args) : Except FunctionError Value := do
  return get (← a.color 0 (of "color"))

/-- `$color` with hue, saturation and lightness changed by `$amount`. -/
def byHsl (adjust : Hsl → Float → Hsl) (a : Args) : Except FunctionError Value := do
  let c ← a.color 0 (of "color")
  let amount ← a.number 1 (of "amount")
  let x := adjust c.toHsl amount.fraction
  return .color (c.withHsl ⟨x.h, clampUnit x.s, clampUnit x.l⟩)

/-- `$color` with its hue turned by `$degrees`. -/
def adjustHue (a : Args) : Except FunctionError Value := do
  let c ← a.color 0 (of "color")
  let turn ← a.number 1 (of "degrees")
  let x := c.toHsl
  return .color (c.withHsl { x with h := x.h + turn.value })

/-- The opposite hue. -/
def complement (a : Args) : Except FunctionError Value := do
  let c ← a.color 0 (of "color")
  let x := c.toHsl
  return .color (c.withHsl { x with h := x.h + 180 })

/-- No saturation. -/
def grayscale (a : Args) : Except FunctionError Value := do
  let c ← a.color 0 (of "color")
  return .color (c.withHsl { c.toHsl with s := 0 })

/-- Every channel reflected. -/
def invert (a : Args) : Except FunctionError Value := do
  let c ← a.color 0 (of "color")
  return .color { Color.rgba (255 - c.r) (255 - c.g) (255 - c.b) c.a with hints := c.hints }

/-- Alpha moved by `$amount` in the direction of `sign`. -/
def byAlpha (sign : Float) (a : Args) : Except FunctionError Value := do
  let c ← a.color 0 (of "color")
  let amount ← a.number 1 (of "amount")
  let out := c.withAlpha (c.a + sign * amount.fraction)
  return .color (if out.a < 1 then { out with hints := { rgba := 1 } } else out)

/-- A blend of two colors, the more opaque one weighing more. -/
def mix (a : Args) : Except FunctionError Value := do
  let c ← a.color 0 (of "color1")
  let d ← a.color 1 (of "color2")
  let p ←
    match a.get? 2 (of "weight") with
    | some w => (w.toNumber (of "weight")).map fun n => clampUnit n.fraction
    | none => pure 0.5
  let w := p * 2 - 1
  let diff := c.a - d.a
  let w1 :=
    if w * diff == -1 then (w + 1) / 2 else ((w + diff) / (1 + w * diff) + 1) / 2
  let w2 := 1 - w1
  let out := Color.rgba (c.r * w1 + d.r * w2) (c.g * w1 + d.g * w2) (c.b * w1 + d.b * w2)
    (c.a * p + d.a * (1 - p))
  return .color { out with hints := if out.a < 1 then { rgba := 1 } else c.hints }

/-- How a channel, an amount and the channel's upper limit combine. -/
abbrev Edit := (current amount limit : Float) → Float

/-- The channel moved by the amount. -/
def adjust : Edit := fun current amount _ => current + amount

/-- The amount in place of the channel. -/
def change : Edit := fun _ amount _ => amount

/-- The channel moved towards its limit, or towards zero for a negative amount, by that
fraction of the distance. -/
def scale : Edit := fun current amount limit =>
  if amount > 0 then current + (limit - current) * amount else current + current * amount

/-- A named amount, if it is given. Scaling reads every amount as a percentage. -/
def amount? (a : Args) (scaling percent : Bool) (name : Text) :
    Except FunctionError (Option Float) :=
  match a.named.lookup name with
  | none => .ok none
  | some v => do
    let n ← v.toNumber name
    return some
      (if scaling || percent then n.fraction
       else if n.unit = Number.percent then n.value / 100
       else n.value)

/-- Changes the channels of `$color` named by keyword arguments: saturation, lightness
and hue first, then red, green and blue, then alpha. Scaling ignores the hue. -/
def edit (op : Edit) (scaling : Bool) (a : Args) : Except FunctionError Value := do
  let c ← a.color 0 (of "color")
  let x := c.toHsl
  let s ← amount? a scaling true (of "saturation")
  let l ← amount? a scaling true (of "lightness")
  let h ←
    match a.named.lookup (of "hue"), scaling with
    | some v, false => (v.toNumber (of "hue")).map fun n => some n.value
    | _, _ => pure none
  let shifted : Hsl :=
    { h := (h.map fun amt => op x.h amt 360).getD x.h
      s := (s.map fun amt => clampUnit (op x.s amt 1)).getD x.s
      l := (l.map fun amt => clampUnit (op x.l amt 1)).getD x.l }
  let out := if s.isSome || l.isSome || h.isSome then c.withHsl shifted else c
  let r ← amount? a scaling false (of "red")
  let g ← amount? a scaling false (of "green")
  let b ← amount? a scaling false (of "blue")
  let move (v : Float) (amt : Option Float) : Float := (amt.map fun m => op v m 255).getD v
  let out :=
    if r.isSome || g.isSome || b.isSome then
      { Color.rgba (move out.r r) (move out.g g) (move out.b b) out.a with hints := out.hints }
    else out
  match ← amount? a scaling false (of "alpha") with
  | none => return .color out
  | some amt =>
    let out := out.withAlpha (op out.a amt 1)
    return .color
      (if out.a < 1 && out.hints.hsl + out.hints.hsla = 0 then
        { out with hints := { rgba := 1 } }
      else out)

/-- The form `#AARRGGBB`. -/
def ieHex (a : Args) : Except FunctionError Value := do
  let c ← a.color 0 (of "color")
  let digits := Color.hexPair (Color.byte (c.a * 255)) ++ Color.hexPair (Color.byte c.r)
    ++ Color.hexPair (Color.byte c.g) ++ Color.hexPair (Color.byte c.b)
  return .plain (ch '#' :: digits.map upperByte)

end ColorFunction

open ColorFunction in
/-- The color functions. -/
def colorFunctions : List Function :=
  [ ("rgb", 3, rgb), ("rgba", 4, rgba), ("rgba", 2, rgbaOfColor), ("hsl", 3, hsl),
    ("hsla", 4, hsla),
    ("red", 1, channel fun c => .ofFloat (Double.round c.r)),
    ("green", 1, channel fun c => .ofFloat (Double.round c.g)),
    ("blue", 1, channel fun c => .ofFloat (Double.round c.b)),
    ("alpha", 1, channel fun c => .ofFloat c.a),
    ("opacity", 1, channel fun c => .ofFloat c.a),
    ("hue", 1, channel fun c => .number ⟨c.toHsl.h, of "deg"⟩),
    ("saturation", 1, channel fun c => .number ⟨c.toHsl.s * 100, Number.percent⟩),
    ("lightness", 1, channel fun c => .number ⟨c.toHsl.l * 100, Number.percent⟩),
    ("lighten", 2, byHsl fun x m => { x with l := x.l + m }),
    ("darken", 2, byHsl fun x m => { x with l := x.l - m }),
    ("saturate", 2, byHsl fun x m => { x with s := x.s + m }),
    ("desaturate", 2, byHsl fun x m => { x with s := x.s - m }),
    ("adjust-hue", 2, adjustHue), ("spin", 2, adjustHue), ("complement", 1, complement),
    ("grayscale", 1, grayscale), ("greyscale", 1, grayscale), ("invert", 1, invert),
    ("opacify", 2, byAlpha 1), ("fade-in", 2, byAlpha 1),
    ("transparentize", 2, byAlpha (-1)), ("fade-out", 2, byAlpha (-1)),
    ("mix", 2, mix), ("mix", 3, mix),
    ("adjust-color", variadic, edit adjust false),
    ("scale-color", variadic, edit scale true),
    ("change-color", variadic, edit change false),
    ("ie-hex-str", 1, ieHex) ].map fun (name, arity, run) => ⟨of name, arity, of "color", run⟩

end Stylesheet
