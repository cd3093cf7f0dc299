import Stylesheet.Compile.Header

/-!
# Interpolations and references in text

Text outside expressions can hold expressions in `#{` and `}`, and references to
variables. This file takes such a text apart; what stands in place of its expressions is
for the evaluator to say.

## Main definitions

* `isPlain` — text with nothing to evaluate
* `Segment`, `segments` — a text and the expressions interpolated in it
* `substitute` — references replaced by values
-/

namespace Stylesheet

open Text

/-- A byte that occurs in text with nothing to evaluate. -/
def isPlainByte (c : UInt8) : Bool :=
  isWord c || isSpace c || c = ch '#' || c = ch '.' || c = ch ',' || c = ch ':' || c = ch '%' ||
    c = ch '-'

/-- Text with nothing to evaluate: words, numbers and simple punctuation, but no
operator. -/
def isPlain (t : Text) : Bool :=
  t.all isPlainByte && !has t (of "- ") &&
    !(fields t).any fun w => w = of "and" || w = of "or" || w = of "not"

/-- A part of a text: as it is, or the expression interpolated there. -/
inductive Segment where
  | text (t : Text)
  | expr (t : Text)
  deriving DecidableEq

/-- The offset, counted from `i`, of the brace that closes the `depth` open ones. -/
def closingBrace? : (depth i : Nat) → Text → Option Nat
  | _, _, [] => none
  | depth, i, c :: r =>
    if c = ch '\x7b' then closingBrace? (depth + 1) (i + 1) r
    else if c = ch '\x7d' then if depth = 1 then some i else closingBrace? (depth - 1) (i + 1) r
    else closingBrace? depth (i + 1) r

/-- The segments of a text, `part` being the one under way, last byte first, and `skip`
the bytes of an interpolation still to pass. -/
def segmentsFrom : (skip : Nat) → (part : Text) → Text → List Segment
  | _, part, [] => [.text part.reverse]
  | 0, part, c :: r =>
    if c = ch '#' && head0 r = ch '\x7b' then
      match closingBrace? 0 0 r with
      | some stop => .text part.reverse :: .expr (slice r 1 stop) :: segmentsFrom (stop + 1) [] r
      | none => [.text (part.reverse ++ c :: r)]
    else segmentsFrom 0 (c :: part) r
  | k + 1, part, _ :: r => segmentsFrom k part r

/-- A text and the expressions interpolated in it. What follows an interpolation that is
not closed is text. -/
def segments (t : Text) : List Segment := segmentsFrom 0 [] t

/-- References replaced by what `valueOf` gives for them; `skip` counts the bytes of a
reference still to pass. -/
def substituteFrom (valueOf : Text → Option Text) : (skip : Nat) → Text → Text
  | _, [] => []
  | 0, c :: r =>
    match leadingVar? (c :: r) with
    | some (name, _) => (valueOf name).getD name ++ substituteFrom valueOf (name.length - 1) r
    | none => c :: substituteFrom valueOf 0 r
  | k + 1, _ :: r => substituteFrom valueOf k r

/-- Every reference to a variable replaced by its value; unknown names stay. -/
def substitute (vars : Context) (shown : Value → Text) (t : Text) : Text :=
  substituteFrom (fun name => (vars.lookup name).map shown) 0 t

end Stylesheet
