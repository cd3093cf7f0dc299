import Mathlib
import Stylesheet.Compile.Interpolation
import Stylesheet.Output.Shorten
import Stylesheet.Proofs.Source.Chunks
import Stylesheet.Source.Normalize

/-!
# Plain stylesheets

A plain stylesheet is a list of rules, some of them in media blocks. This file says how
one is written, in compressed text or on lines, and which stylesheets are written so that
nothing in them has a meaning besides that of plain CSS.

## Main definitions

* `PlainRule`, `PlainItem` — rules and media blocks
* `PlainItem.render`, `renderSheet` — their text
* `PlainRule.Proper`, `PlainItem.Proper`, `ProperSheet` — what is plain about them
-/

namespace Stylesheet

open Text

/-- A rule: its selectors, and its declarations by name and value. -/
structure PlainRule where
  selectors : List Text
  declarations : List (Text × Text)
  deriving DecidableEq

/-- A rule at the top level, or a media block with the rules in it. -/
inductive PlainItem where
  | rule (r : PlainRule)
  | media (query : Text) (rules : List PlainRule)
  deriving DecidableEq

/-! ### Text -/

section Rendering

variable (compress : Bool)

/-- The end of a line; compressed text is not divided into lines. -/
def lineEnd : Text := if compress then [] else [ch '\n']

/-- Two spaces for each level; compressed text is not indented. -/
def indent (level : Nat) : Text := if compress then [] else List.replicate (2 * level) (ch ' ')

/-- The space that compressed text does without. -/
def gap : Text := if compress then [] else [ch ' ']

/-- A header, and a content on lines of its own in braces. -/
def renderBlock (level : Nat) (header content : Text) : Text :=
  header ++ gap compress ++ ch '\x7b' ::
    (lineEnd compress ++ indent compress (level + 1) ++ content ++
      lineEnd compress ++ indent compress level) ++ [ch '\x7d']

namespace PlainRule

/-- The selectors between commas. -/
def header (r : PlainRule) : Text := join (ch ',' :: gap compress) r.selectors

/-- A declaration. -/
def declaration (d : Text × Text) : Text := d.1 ++ ch ':' :: gap compress ++ d.2

/-- The declarations between semicolons; the last has one too, except in compressed
text. -/
def content (level : Nat) (r : PlainRule) : Text :=
  join (ch ';' :: lineEnd compress ++ indent compress level)
    (r.declarations.map (declaration compress)) ++ if compress then [] else [ch ';']

/-- The text of a rule. -/
def render (level : Nat) (r : PlainRule) : Text :=
  renderBlock compress level (r.header compress) (r.content compress (level + 1))

end PlainRule

/-- The rules in a media block. -/
def renderRules (rules : List PlainRule) : Text :=
  join (lineEnd compress ++ indent compress 1) (rules.map (PlainRule.render compress 1))

/-- The text of a rule or media block. -/
def PlainItem.render : PlainItem → Text
  | .rule r => r.render compress 0
  | .media query rules =>
    renderBlock compress 0 (of "@media " ++ query) (renderRules compress rules)

/-- The text of a stylesheet. -/
def renderSheet (sheet : List PlainItem) : Text :=
  sheet.flatMap fun i => i.render compress ++ lineEnd compress

end Rendering

example : renderSheet false [.media (of "print") [⟨[of "a", of ".b"], [(of "color", of "red")]⟩]] =
    of "@media print \x7b\n  a, .b \x7b\n    color: red;\n  \x7d\n\x7d\n" := by decide

/-! ### What is plain -/

/-- The bytes that mean something in selectors. -/
def selectorMarks : Text :=
  [ch '\x7b', ch '\x7d', ch '(', ch ')', ch ';', ch ',', ch '"', ch '\'', ch '&', ch '$', ch '/']

/-- The bytes that mean something in media queries. -/
def queryMarks : Text :=
  [ch '\x7b', ch '\x7d', ch ';', ch '"', ch '\'', ch '$', ch '#', ch '/']

/-- A selector that stands for itself. -/
@[mk_iff]
structure PlainSelector (s : Text) : Prop where
  ne_nil : s ≠ []
  collapsed : collapse s = s
  no_mark : ∀ c ∈ s, c ∉ selectorMarks
  no_extends : has s (of " extends ") = false

/-- A media query that stands for itself. -/
@[mk_iff]
structure PlainQuery (q : Text) : Prop where
  ne_nil : q ≠ []
  collapsed : collapse q = q
  parens : parensBalanced 0 q = true
  no_mark : ∀ c ∈ q, c ∉ queryMarks

/-- A declaration that stands for itself: a name in small letters, and a value with
nothing to evaluate that the style writes as it is. -/
@[mk_iff]
structure PlainDeclaration (style : Style) (d : Text × Text) : Prop where
  name_ne_nil : d.1 ≠ []
  name_bytes : ∀ c ∈ d.1, (ch 'a' ≤ c ∧ c ≤ ch 'z') ∨ c = ch '-'
  value_ne_nil : d.2 ≠ []
  value_trimmed : trim d.2 = d.2
  value_line : ch '\n' ∉ d.2
  value_plain : isPlain d.2 = true
  value_short : style.shorten d.2 = d.2

/-- A rule that stands for itself. -/
@[mk_iff]
structure PlainRule.Proper (style : Style) (r : PlainRule) : Prop where
  selectors_ne_nil : r.selectors ≠ []
  selectors_sorted : r.selectors.Pairwise fun s t => le s t = true
  selectors_nodup : r.selectors.Nodup
  selectors_plain : ∀ s ∈ r.selectors, PlainSelector s
  first_mark : ∀ s ∈ r.selectors.head?, head0 s ∉ [ch '@', ch '+', ch '=']
  last_mark : ∀ s ∈ r.selectors.getLast?, ∀ c ∈ s.getLast?, c ∉ [ch ':', ch '#']
  not_self : r.selectors ≠ [of "self"]
  declarations_ne_nil : r.declarations ≠ []
  declarations_plain : ∀ d ∈ r.declarations, PlainDeclaration style d
  declarations_differ : r.declarations.IsChain (· ≠ ·)

/-- Neighbours that are not written as one: rules with other selectors, media blocks with
another query. -/
def PlainItem.Apart : PlainItem → PlainItem → Prop
  | .rule r, .rule r' => r.selectors ≠ r'.selectors
  | .media q _, .media q' _ => q ≠ q'
  | _, _ => True

/-- An item that stands for itself. -/
inductive PlainItem.Proper (style : Style) : PlainItem → Prop
  | rule {r : PlainRule} (h : r.Proper style) : Proper style (.rule r)
  | media {query : Text} {rules : List PlainRule} (hquery : PlainQuery query) (hne : rules ≠ [])
      (hrules : ∀ r ∈ rules, r.Proper style)
      (hdiffer : rules.IsChain fun r r' => r.selectors ≠ r'.selectors) :
      Proper style (.media query rules)

/-- A stylesheet that stands for itself. -/
@[mk_iff]
structure ProperSheet (style : Style) (sheet : List PlainItem) : Prop where
  items : ∀ i ∈ sheet, i.Proper style
  apart : sheet.IsChain PlainItem.Apart

/-! ### Deciding what is plain -/

instance (s : Text) : Decidable (PlainSelector s) := decidable_of_iff _ (plainSelector_iff s).symm

instance (q : Text) : Decidable (PlainQuery q) := decidable_of_iff _ (plainQuery_iff q).symm

instance (style : Style) (d : Text × Text) : Decidable (PlainDeclaration style d) :=
  decidable_of_iff _ (plainDeclaration_iff style d).symm

instance (style : Style) (r : PlainRule) : Decidable (r.Proper style) :=
  decidable_of_iff _ (PlainRule.proper_iff style r).symm

instance (i j : PlainItem) : Decidable (i.Apart j) :=
  match i, j with
  | .rule r, .rule r' => inferInstanceAs (Decidable (r.selectors ≠ r'.selectors))
  | .media q _, .media q' _ => inferInstanceAs (Decidable (q ≠ q'))
  | .rule _, .media _ _ => .isTrue trivial
  | .media _ _, .rule _ => .isTrue trivial

instance (style : Style) (i : PlainItem) : Decidable (i.Proper style) :=
  match i with
  | .rule r => decidable_of_iff (r.Proper style) ⟨.rule, fun | .rule h => h⟩
  | .media query rules =>
    decidable_of_iff
      (PlainQuery query ∧ rules ≠ [] ∧ (∀ r ∈ rules, r.Proper style) ∧
        rules.IsChain fun r r' => r.selectors ≠ r'.selectors)
      ⟨fun ⟨hquery, hne, hrules, hdiffer⟩ => .media hquery hne hrules hdiffer,
        fun | .media hquery hne hrules hdiffer => ⟨hquery, hne, hrules, hdiffer⟩⟩

instance (style : Style) (sheet : List PlainItem) : Decidable (ProperSheet style sheet) :=
  decidable_of_iff _ (properSheet_iff style sheet).symm

end Stylesheet
