import Mathlib.Data.List.Forall2
import Stylesheet.Proofs.Output.Spacing
import Stylesheet.Selector

/-!
# The rules of a squeezed body

The body of an at-rule that is copied as it is may have rules in it. In compressed output it
is squeezed, and squeezing drops white space beside punctuation without asking where the
punctuation stands. A declaration needs no space before its colon, but in a selector a space
before a colon is a combinator: `.x :hover` is squeezed to `.x:hover`, which is another
selector.

This file says when the rules stay. Squeezing always gives a text that can be cut into blocks
again. Its rules are those of the body exactly if each of them, taken alone, keeps its
selectors, so the question is one about single leads. One kind of lead is set apart: one that
ends in a number sign once it is squeezed takes the brace after it for an interpolation. For
plain leads no rule has to be looked at: there the rules stay.

## Main definitions

* `KeepsRules` — a text has the rules of another, in all of their bodies
* `Everywhere` — what holds of all leads of a text and of the bodies of its rules
* `SelectorsKept` — a lead has the same selectors when it is squeezed

## Main results

* `squeeze_keepsRules` — when the rules of a body stay when it is squeezed
* `pseudoClass_not_kept` — a space before a colon
-/

namespace Stylesheet

open Text

/-! ### Lists made part by part -/

section Lists

variable {α β γ : Type} {R : β → γ → Prop} {l : List α} {f : α → List β} {g : α → List γ}

theorem length_flatMap_le (h : ∀ a ∈ l, (f a).length ≤ (g a).length) :
    (l.flatMap f).length ≤ (l.flatMap g).length := by
  induction l with
  | nil => exact le_rfl
  | cons a l ih =>
    obtain ⟨ha, hl⟩ := List.forall_mem_cons.mp h
    have hmore := ih hl
    simp only [List.flatMap_cons, List.length_append]
    omega

/-- Where no part of one list is longer than its counterpart, lists that agree as a whole agree
part by part. -/
theorem forall₂_flatMap_iff (h : ∀ a ∈ l, (f a).length ≤ (g a).length) :
    List.Forall₂ R (l.flatMap f) (l.flatMap g) ↔ ∀ a ∈ l, List.Forall₂ R (f a) (g a) := by
  induction l with
  | nil => simp
  | cons a l ih =>
    obtain ⟨ha, hl⟩ := List.forall_mem_cons.mp h
    rw [List.forall_mem_cons, List.flatMap_cons, List.flatMap_cons, ← ih hl]
    constructor
    · intro hall
      have hlength := hall.length_eq
      have hmore := length_flatMap_le hl
      rw [List.length_append, List.length_append] at hlength
      have hsame : (f a).length = (g a).length := by omega
      have hfirst := List.forall₂_take (f a).length hall
      have hrest := List.forall₂_drop (f a).length hall
      rw [List.take_left, hsame, List.take_left] at hfirst
      rw [List.drop_left, hsame, List.drop_left] at hrest
      exact ⟨hfirst, hrest⟩
    · exact fun ⟨hfirst, hrest⟩ => List.rel_append hfirst hrest

/-- A condition that is no matter of the members counts if there are members. -/
theorem forall₂_and_const_iff {P : Prop} {xs : List β} {ys : List γ} :
    List.Forall₂ (fun x y => R x y ∧ P) xs ys ↔ List.Forall₂ R xs ys ∧ (xs ≠ [] → P) := by
  induction xs generalizing ys with
  | nil => simp
  | cons x xs ih =>
    cases ys with
    | nil => simp
    | cons y ys =>
      rw [List.forall₂_cons, List.forall₂_cons, ih]
      simp only [ne_eq, reduceCtorEq, not_false_eq_true, forall_const]
      tauto

theorem forall_forall₂_iff {S : Nat → β → γ → Prop} {xs : List β} {ys : List γ} :
    (∀ n, List.Forall₂ (S n) xs ys) ↔ List.Forall₂ (fun x y => ∀ n, S n x y) xs ys := by
  induction xs generalizing ys with
  | nil => cases ys <;> simp
  | cons x xs ih => cases ys <;> simp [forall_and, ih]

end Lists

/-! ### Rules that are kept -/

/-- The selectors of a block with a header. -/
def headerSelectors (header : Text) : List Text := (parseSelectors header).1

/-- Down to a depth, `s` is cut into blocks, and those with a body have in order the selectors
of the blocks of `t` that have one, and keep the rules of their bodies. -/
def KeepsTo : Nat → Text → Text → Prop
  | 0, _, _ => True
  | n + 1, t, s => (locate s).2 = none ∧ List.Forall₂
      (fun b b' => headerSelectors b'.1 = headerSelectors b.1 ∧ KeepsTo n b.2 b'.2)
        (braced t) (braced s)

/-- To every depth `s` has the rules of `t`. -/
def KeepsRules (t s : Text) : Prop := ∀ n, KeepsTo n t s

/-- What holds of every lead of a text, and of the leads in the bodies of its blocks. -/
inductive Everywhere (P : Text → Prop) : Text → Prop
  | intro {t : Text} {ss : List (Text × Text)} (ht : Sections t ss) (here : ∀ s ∈ ss, P s.1)
      (below : ∀ s ∈ ss, headersOf s.1 ≠ [] → Everywhere P (trim s.2)) : Everywhere P t

/-- A lead taken alone gives a header with the same selectors when it is squeezed. -/
def SelectorsKept (u : Text) : Prop :=
  (headersOf (squeeze u)).map headerSelectors = (headersOf u).map headerSelectors

instance (u : Text) : Decidable (SelectorsKept u) :=
  inferInstanceAs (Decidable ((headersOf (squeeze u)).map headerSelectors = _))

theorem everywhere_iff {P : Text → Prop} {t : Text} {ss : List (Text × Text)}
    (ht : Sections t ss) : Everywhere P t ↔
      ∀ s ∈ ss, P s.1 ∧ (headersOf s.1 ≠ [] → Everywhere P (trim s.2)) := by
  constructor
  · rintro ⟨ht', here, below⟩ s hs
    obtain rfl := ht.unique ht'
    exact ⟨here s hs, below s hs⟩
  · exact fun h => .intro ht (fun s hs => (h s hs).1) fun s hs => (h s hs).2

/-- What follows for a lead from what holds everywhere holds everywhere. -/
theorem Everywhere.imp {P Q : Text → Prop} {t : Text} (h : Everywhere P t)
    (hPQ : ∀ u, Unbroken u → u.getLast? ≠ some (ch '#') → P u → Q u) : Everywhere Q t := by
  induction h with
  | intro ht here below ih =>
    refine .intro ht (fun s hs => ?_) ih
    obtain ⟨hu, hhash, -⟩ := ht.of_mem hs
    exact hPQ s.1 hu hhash (here s hs)

/-- Rules are kept if they are kept at the top and in the bodies. -/
theorem keepsRules_iff {t s : Text} : KeepsRules t s ↔ (locate s).2 = none ∧ List.Forall₂
    (fun b b' => headerSelectors b'.1 = headerSelectors b.1 ∧ KeepsRules b.2 b'.2)
      (braced t) (braced s) := by
  have hunfold : KeepsRules t s ↔ ∀ n, KeepsTo (n + 1) t s := by
    constructor
    · exact fun h n => h (n + 1)
    · rintro h (_ | n)
      · exact trivial
      · exact h n
  simp only [hunfold, KeepsTo, forall_and, forall_const, forall_forall₂_iff]
  rfl

/-! ### The blocks of a squeezed body -/

/-- The brace after a lead still opens a block when the lead is squeezed, and no interpolation. -/
def OpensBlock (u : Text) : Prop := (squeeze u).getLast? ≠ some (ch '#')

instance (u : Text) : Decidable (OpensBlock u) :=
  inferInstanceAs (Decidable ((squeeze u).getLast? ≠ some (ch '#')))

/-- The header of a lead that is squeezed. -/
theorem headersOf_squeeze {u : Text} (hu : Unbroken u) (hopens : OpensBlock u) :
    headersOf (squeeze u) = if trim (squeeze u) = [] then [] else [trim (squeeze u)] :=
  headersOf_of_line hu.squeeze hopens hu.onLine_squeeze.trimLeft

/-- The blocks of `s` are those of `t`, squeezed. -/
def Squeezes (t s : Text) : Prop :=
  Balanced s ∧ ∃ ss, Sections t ss ∧
    braced s = ss.flatMap fun a => (headersOf (squeeze a.1)).map (·, trim (squeeze a.2))

theorem squeezes_squeeze {t : Text} {ss : List (Text × Text)} (ht : Sections t ss)
    (hopens : ∀ s ∈ ss, OpensBlock s.1) : Squeezes t (squeeze t) := by
  have hsections := ht.squeeze hopens
  refine ⟨hsections.balanced, ss, ht, ?_⟩
  rw [hsections.braced_eq, List.flatMap_map]

/-- White space before a lead does not make it end otherwise. -/
theorem OpensBlock.append {w u : Text} (hw : Spaces w) (hu : Unbroken u) (h : OpensBlock u) :
    OpensBlock (w ++ u) := by
  have hpad : Unbroken (w ++ u) := (unbroken_of_inBlank (inBlank_of_mem_spaces hw)).append hu
  obtain ⟨v, hv, heq⟩ := exists_squeezed_append hw hu.balanced
  intro hlast
  rw [hpad.squeeze_eq, heq, List.getLast?_append, ← hu.squeeze_eq] at hlast
  cases hend : (squeeze u).getLast? with
  | none =>
    rw [hend, Option.none_or] at hlast
    have hblank := inBlank_of_mem_spaces hv _ (List.mem_of_getLast? hlast)
    exact absurd hblank (by decide)
  | some c =>
    rw [hend, Option.some_or, ← hend] at hlast
    exact h hlast

/-- A lead behind white space, on either side, gives the header that the lead gives. -/
theorem headersOf_of_append_eq {w x u v : Text} (hw : Spaces w) (hx : Spaces x) (hu : Unbroken u)
    (hopens : OpensBlock u) (hv : Unbroken v) (hhash : v.getLast? ≠ some (ch '#'))
    (h : x ++ v = squeeze (w ++ u)) : headersOf v = headersOf (squeeze u) := by
  have hpad : Unbroken (w ++ u) := (unbroken_of_inBlank (inBlank_of_mem_spaces hw)).append hu
  have hline : OnLine v := by
    have hall := hpad.onLine_squeeze
    rw [← h] at hall
    exact hall.right (balanced_of_inBlank (inBlank_of_mem_spaces hx))
  have htrim : trim v = trim (squeeze u) := by
    obtain ⟨y, hy, heq⟩ := exists_squeezed_append hw hu.balanced
    rw [hpad.squeeze_eq, heq, ← hu.squeeze_eq] at h
    rw [← hx.trim_append v, h, hy.trim_append]
  rw [headersOf_of_line hv hhash hline.trimLeft, headersOf_squeeze hu hopens, htrim]

/-- The trimmed body of a block, and the trimmed body of the block squeezed. -/
theorem squeezes_trim {body : Text} (hbody : Balanced body) {ss : List (Text × Text)}
    (hss : Sections (trim body) ss) (hopens : ∀ s ∈ ss, OpensBlock s.1) :
    Squeezes (trim body) (trim (squeeze body)) := by
  obtain ⟨w, v, hbodyeq, hw, hv⟩ := exists_trim_spaces body
  obtain ⟨w', v', hsqueezed, hw', hv'⟩ := exists_trim_spaces (squeeze body)
  -- the sections of the body squeezed, from those of the body trimmed
  obtain ⟨x, hx, hpadded⟩ :=
    (hss.pad_right (inBlank_of_mem_spaces hv)).pad_left (inBlank_of_mem_spaces hw)
  rw [← List.append_assoc, ← hbodyeq] at hpadded
  -- and from those of the squeezed body trimmed
  obtain ⟨ss', hss'⟩ := hbody.squeeze.trim.exists_sections
  obtain ⟨x', hx', hpadded'⟩ :=
    (hss'.pad_right (inBlank_of_mem_spaces hv')).pad_left (inBlank_of_mem_spaces hw')
  rw [← List.append_assoc, ← hsqueezed] at hpadded'
  have hxspaces : Spaces x := by
    rcases hx with rfl | rfl
    · exact .nil
    · exact hw
  have hxspaces' : Spaces x' := by
    rcases hx' with rfl | rfl
    · exact .nil
    · exact hw'
  refine ⟨hbody.squeeze.trim, ss, hss, ?_⟩
  rw [hss'.braced_eq]
  -- without blocks there are none in the squeezed body either
  cases ss with
  | nil =>
    have hsame := (hpadded.squeeze (by simp)).unique hpadded'
    cases ss' with
    | nil => rfl
    | cons a ss' => cases hsame
  | cons a ss =>
    obtain ⟨hfirst, hrest⟩ := List.forall_mem_cons.mp hopens
    obtain ⟨hu, -, -⟩ := hss.of_mem List.mem_cons_self
    have hall : ∀ s ∈ (x ++ a.1, a.2) :: ss, (squeeze s.1).getLast? ≠ some (ch '#') :=
      List.forall_mem_cons.mpr ⟨hfirst.append hxspaces hu, hrest⟩
    have hsame := (Sections.squeeze hpadded hall).unique hpadded'
    cases ss' with
    | nil => cases hsame
    | cons a' ss' =>
      -- the first lead may have white space before it, which no header has
      obtain ⟨hv, hhash, -⟩ := hss'.of_mem List.mem_cons_self
      simp only [List.modifyHead_cons, List.map_cons, List.cons.injEq, Prod.mk.injEq] at hsame
      obtain ⟨⟨hlead, hbodies⟩, hmore⟩ := hsame
      rw [List.flatMap_cons, List.flatMap_cons, ← hmore, ← hbodies, List.flatMap_map,
        headersOf_of_append_eq hxspaces hxspaces' hu hfirst hv hhash hlead.symm]

/-! ### When the rules are kept -/

/-- A lead that gives a header gives one when it is squeezed. -/
theorem length_headersOf_le {u : Text} (hu : Unbroken u) (hhash : u.getLast? ≠ some (ch '#'))
    (hopens : OpensBlock u) : (headersOf u).length ≤ (headersOf (squeeze u)).length := by
  rw [headersOf_squeeze hu hopens, headersOf_eq hu hhash]
  split_ifs with hblank
  · rw [hu.squeeze_eq] at hblank
    rw [leadHeader_of_spaces (spaces_of_squeezed hblank)]
  · unfold leadHeader
    split_ifs <;> simp

theorem selectorsKept_iff {u : Text} : SelectorsKept u ↔
    List.Forall₂ (fun h h' => headerSelectors h' = headerSelectors h) (headersOf u)
      (headersOf (squeeze u)) := by
  rw [SelectorsKept, eq_comm, ← List.forall₂_eq_eq_eq, List.forall₂_map_left_iff,
    List.forall₂_map_right_iff]
  simp only [eq_comm]

theorem PlainLead.opensBlock {u : Text} (hu : Unbroken u) (hhash : u.getLast? ≠ some (ch '#'))
    (h : PlainLead u) : OpensBlock u := by
  rw [OpensBlock, hu.squeeze_eq]
  exact h.opens hhash

theorem PlainLead.selectorsKept {u : Text} (hu : Unbroken u) (hhash : u.getLast? ≠ some (ch '#'))
    (h : PlainLead u) : SelectorsKept u := by
  rw [SelectorsKept, headersOf_squeeze hu (h.opensBlock hu hhash),
    headersOf_of_line hu hhash h.line, hu.squeeze_eq]
  by_cases hblank : trim u = []
  · have hspaces : Spaces u := spaces_iff_trim.mpr hblank
    rw [if_pos hblank, if_pos (spaces_iff_trim.mp hspaces.squeezed)]
  · have hsqueezed : trim (squeezed u) ≠ [] := fun h =>
      hblank (spaces_iff_trim.mp (spaces_of_squeezed h))
    rw [if_neg hblank, if_neg hsqueezed]
    exact congrArg (fun s => [s]) h.selectors_eq

/-- A colon without white space beside it, and one with it. -/
example : SelectorsKept (of "\n  .x:hover ") ∧ ¬SelectorsKept (of ".x :hover ") := by
  decide +kernel

/-- The rules of a text and of one that squeezes it. -/
theorem keepsRules_iff_of_squeezes {t s : Text} (hopens : Everywhere OpensBlock t)
    (h : Squeezes t s) : KeepsRules t s ↔ Everywhere SelectorsKept t := by
  induction hopens generalizing s with
  | @intro t ss ht here below ih =>
    obtain ⟨hbalanced, ss', ht', hbraced⟩ := h
    obtain rfl := ht.unique ht'
    have hlengths : ∀ a ∈ ss, ((headersOf a.1).map (·, trim a.2)).length ≤
        ((headersOf (squeeze a.1)).map (·, trim (squeeze a.2))).length := by
      intro a ha
      obtain ⟨hu, hhash, -⟩ := ht.of_mem ha
      simpa using length_headersOf_le hu hhash (here a ha)
    rw [keepsRules_iff, everywhere_iff ht, ht.braced_eq, hbraced, forall₂_flatMap_iff hlengths,
      locate_eq_none_iff, and_iff_right hbalanced]
    refine forall₂_congr fun a ha => ?_
    rw [List.forall₂_map_left_iff, List.forall₂_map_right_iff]
    change List.Forall₂ (fun h h' => headerSelectors h' = headerSelectors h ∧
      KeepsRules (trim a.2) (trim (squeeze a.2))) _ _ ↔ _
    rw [forall₂_and_const_iff, ← selectorsKept_iff]
    refine and_congr_right fun _ => forall_congr' fun hne => ?_
    obtain ⟨hss, hinner, -⟩ := below a ha hne
    exact ih a ha hne (squeezes_trim (ht.of_mem ha).2.2 hss hinner)

/-- A body can be cut into blocks after it is squeezed. Its rules are then those it had exactly
if every lead before a rule keeps its selectors, provided that no lead comes to end in a number
sign. Plain leads do. -/
theorem squeeze_keepsRules {t : Text} (h : (locate t).2 = none) :
    (locate (squeeze t)).2 = none ∧
      (Everywhere OpensBlock t → (KeepsRules t (squeeze t) ↔ Everywhere SelectorsKept t)) ∧
      (Everywhere PlainLead t → KeepsRules t (squeeze t)) := by
  have hiff (hopens : Everywhere OpensBlock t) :
      KeepsRules t (squeeze t) ↔ Everywhere SelectorsKept t := by
    refine keepsRules_iff_of_squeezes hopens ?_
    obtain ⟨ht, here, -⟩ := hopens
    exact squeezes_squeeze ht here
  refine ⟨?_, hiff, fun hplain => ?_⟩
  · rw [locate_eq_none_iff] at h ⊢
    exact h.squeeze
  · exact (hiff (hplain.imp fun _ => PlainLead.opensBlock)).mpr
      (hplain.imp fun _ => PlainLead.selectorsKept)

/-- The body of an animation. -/
def fade : Text := of "from \x7b opacity: 0; \x7d to \x7b opacity: 1; \x7d"

theorem fade_sections :
    Sections fade [(of "from ", of " opacity: 0; "), (of " to ", of " opacity: 1; ")] := by
  have hparts : fade = of "from " ++ ch '\x7b' :: (of " opacity: 0; " ++ ch '\x7d' ::
      (of " to " ++ ch '\x7b' :: (of " opacity: 1; " ++ ch '\x7d' :: []))) := by decide +kernel
  rw [hparts]
  refine .block ?_ ?_ ?_ (.block ?_ ?_ ?_ .nil) <;> decide +kernel

theorem everywhere_fade {P : Text → Prop} (hfrom : P (of "from ")) (hto : P (of " to ")) :
    Everywhere P fade := by
  have hbody {d t : Text} (hd : Unbroken d) (ht : trim t = d ++ [ch ';']) :
      Everywhere P (trim t) := by
    rw [ht]
    exact .intro (.ended hd .nil) nofun nofun
  have hfirst : Everywhere P (trim (of " opacity: 0; ")) :=
    hbody (d := of "opacity: 0") (by decide +kernel) (by decide +kernel)
  have hsecond : Everywhere P (trim (of " opacity: 1; ")) :=
    hbody (d := of "opacity: 1") (by decide +kernel) (by decide +kernel)
  exact .intro fade_sections (by simp [hfrom, hto]) (by simp [hfirst, hsecond])

/-- The rules of an animation are kept. -/
theorem fade_kept :
    (locate fade).2 = none ∧ Everywhere OpensBlock fade ∧ Everywhere PlainLead fade ∧
      KeepsRules fade (squeeze fade) ∧ Everywhere SelectorsKept fade := by
  have hok : (locate fade).2 = none := by decide +kernel
  have hopens : Everywhere OpensBlock fade :=
    everywhere_fade (by decide +kernel) (by decide +kernel)
  have hplain : Everywhere PlainLead fade :=
    everywhere_fade (by decide +kernel) (by decide +kernel)
  obtain ⟨-, hiff, hkept⟩ := squeeze_keepsRules hok
  exact ⟨hok, hopens, hplain, hkept hplain, (hiff hopens).mp (hkept hplain)⟩

/-! ### A space before a colon -/

theorem KeepsRules.selectors_eq {t s : Text} (h : KeepsRules t s) :
    (braced s).map (headerSelectors ·.1) = (braced t).map (headerSelectors ·.1) := by
  obtain ⟨-, hblocks⟩ := keepsRules_iff.mp h
  rw [eq_comm, ← List.forall₂_eq_eq_eq, List.forall₂_map_left_iff, List.forall₂_map_right_iff]
  exact hblocks.imp fun _ _ hb => hb.1.symm

/-- A descendant with a pseudo-class is taken for an element with it. -/
theorem pseudoClass_not_kept :
    (locate (of ".x :hover \x7b a: b \x7d")).2 = none ∧
      ¬KeepsRules (of ".x :hover \x7b a: b \x7d") (squeeze (of ".x :hover \x7b a: b \x7d")) :=
  ⟨by decide +kernel, fun h => absurd h.selectors_eq (by decide +kernel)⟩

end Stylesheet
