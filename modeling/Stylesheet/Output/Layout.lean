import Stylesheet.Compile.Fragment
import Stylesheet.Output.Shorten

/-!
# Layout

How ordered fragments are written. Consecutive fragments with the same media query share
one media block, and consecutive fragments with the same selectors share one rule. The
lines of the root stand outside any rule. Compressed output has no white space it can do
without and no semicolon before a closing brace.

## Main definitions

* `Item` — a rule or a raw at-rule
* `MediaGroup`, `MediaGroup.ofFragments` — what is written, grouped
* `Style.print` — the text of fragments
-/

namespace Stylesheet

open Text

/-- A rule with all its declarations, or an at-rule copied as it is. -/
inductive Item where
  | rule (selectors : List Text) (properties : List Property)
  | raw (block : RawBlock)
  deriving DecidableEq

/-- What stands under one media query, which is empty outside media blocks. -/
structure MediaGroup where
  query : Text
  items : List Item
  deriving DecidableEq

/-- A fragment that has something to write. -/
def Fragment.isEmitted (f : Fragment) : Bool := f.raw.isSome || !f.properties.isEmpty

/-- The fragments that have something to write. -/
def emittedOf (fragments : List Fragment) : List Fragment := fragments.filter Fragment.isEmitted

/-- Puts a fragment before items; one with the selectors of the first item joins it. -/
def Item.push (f : Fragment) (items : List Item) : List Item :=
  match f.raw, items with
  | some r, items => .raw r :: items
  | none, .rule selectors properties :: rest =>
    if join [ch ','] selectors = f.key then .rule f.selectors (f.properties ++ properties) :: rest
    else .rule f.selectors f.properties :: .rule selectors properties :: rest
  | none, items => .rule f.selectors f.properties :: items

/-- Fragments grouped by media query and selectors. -/
def MediaGroup.ofFragments : List Fragment → List MediaGroup
  | [] => []
  | f :: rest =>
    let query := mediaQuery f.media
    match ofFragments rest with
    | g :: groups =>
      if g.query = query then ⟨query, Item.push f g.items⟩ :: groups
      else ⟨query, Item.push f []⟩ :: g :: groups
    | [] => [⟨query, Item.push f []⟩]

/-! ### Raw at-rules -/

/-- The lines of a raw body in pretty output: one for each declaration if it has no
blocks, or else its own lines. -/
def rawLines (body : Text) : List Text :=
  if body.any fun c => c = ch '\x7b' || c = ch '\x7d' then
    ((split (ch '\n') body).map trim).filter fun l => !l.isEmpty
  else
    (((split (ch ';') body).map collapse).filter fun d => !d.isEmpty).map (· ++ [ch ';'])

/-- Punctuation that needs no space beside it. -/
def isTight (c : UInt8) : Bool :=
  c = ch '\x7b' || c = ch '\x7d' || c = ch ';' || c = ch ',' || c = ch ':'

/-- The bytes written so far, last first, with a space if one is due. -/
def withSpace (space : Bool) (out : Text) : Text :=
  if space && !out.isEmpty then ch ' ' :: out else out

/-- Squeezes a text onto what is written so far, last byte first. `space` says that white
space was passed, and `copy` bytes of a string are still to be copied. -/
def squeezeFrom : (copy : Nat) → (space : Bool) → (out : Text) → Text → Text
  | _, _, out, [] => out
  | k + 1, space, out, c :: r => squeezeFrom k space (c :: out) r
  | 0, space, out, c :: r =>
    if isQuote c then squeezeFrom (quotedRest c r) false (c :: withSpace space out) r
    else if isSpace c then squeezeFrom 0 (!isTight (head0 out)) out r
    else if isTight c then
      let out := if c = ch '\x7d' && head0 out = ch ';' then out.drop 1 else out
      squeezeFrom 0 false (c :: out) r
    else squeezeFrom 0 false (c :: withSpace space out) r

/-- A raw body without the white space and the last semicolons it can do without; quoted
strings stay as they are. -/
def squeeze (body : Text) : Text := withoutEnd (squeezeFrom 0 false [] body).reverse [ch ';']

/-! ### Printing -/

namespace Style

/-- A space, except in compressed output. -/
def space (s : Style) : Text := if s.compress then [] else [ch ' ']

/-- A line at a level of indentation; compressed output has no lines. -/
def line (s : Style) (level : Nat) (t : Text) : Text :=
  if s.compress then t else (List.replicate (2 * level) (ch ' ')) ++ t ++ [ch '\n']

/-- A block with a header. -/
def block (s : Style) (level : Nat) (header content : Text) : Text :=
  s.line level (header ++ s.space ++ [ch '\x7b']) ++
    (if s.compress then withoutEnd content [ch ';'] else content) ++
    s.line level [ch '\x7d']

/-- The text of a declaration. -/
def declaration (s : Style) (p : Property) : Text :=
  match p.value with
  | some v => p.name ++ ch ':' :: s.space ++ s.shorten v
  | none => p.name

/-- The lines of a rule's declarations. One marked `!default` is left out if the rule has
set the property, and a line is not written twice in a row. `seen` are the properties set,
and `last` is the line before. -/
def lines (s : Style) : (seen : List Text) → (last : Text) → List Property → List Text
  | _, _, [] => []
  | seen, last, p :: rest =>
    let t := s.declaration p
    let mark := of "!default"
    let isDefault := has t mark
    let t :=
      if isDefault then trim (replace (of "  ") (of " ") (replace mark [] t)) else t
    if (isDefault && seen.contains p.name) || t = last then s.lines seen last rest
    else t :: s.lines (p.name :: seen) t rest

/-- The lines of declarations at a level of indentation. -/
def declarations (s : Style) (level : Nat) (properties : List Property) : Text :=
  (s.lines [] [] properties).flatMap fun l => s.line level (l ++ [ch ';'])

/-- The text of a rule or raw at-rule. -/
def item (s : Style) (level : Nat) : Item → Text
  | .rule selectors properties =>
    if (join [ch ','] selectors).isEmpty then s.declarations level properties
    else
      s.block level (join (ch ',' :: s.space) selectors) (s.declarations (level + 1) properties)
  | .raw r =>
    if s.compress then r.header ++ ch '\x7b' :: squeeze r.body ++ [ch '\x7d']
    else s.block level r.header ((rawLines r.body).flatMap (s.line (level + 1)))

/-- The text of what stands under one media query. -/
def group (s : Style) (g : MediaGroup) : Text :=
  if g.query.isEmpty then g.items.flatMap (s.item 0)
  else s.block 0 (of "@media " ++ g.query) (g.items.flatMap (s.item 1))

/-- The text of ordered fragments. -/
def print (s : Style) (fragments : List Fragment) : Text :=
  (MediaGroup.ofFragments (emittedOf fragments)).flatMap s.group

end Style

end Stylesheet
