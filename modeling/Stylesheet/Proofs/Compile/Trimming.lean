import Mathlib.Data.List.Basic
import Mathlib.Tactic.SplitIfs
import Stylesheet.Compile.Extend

/-!
# Trimming

A selector that extends another takes its place. What the two share at their ends stays as it is,
so it is trimmed off both first, in whole parts. At the start they are cut after a space or before
a mark that both have. Of what is then left they are cut at the end before a space or a mark.

Both cuts are found by one kind of scan. It passes the bytes the texts share, and remembers the
last place where they may be cut.

## Main definitions

* `IsCommonStart`, `IsCommonEnd` — what two selectors share in whole parts
* `IsLongest` — the longest text with a property
* `Offered`, `farthestFrom` — the places where two texts may be cut, and the scan for the last

## Main results

* `farthestFrom_spec` — the scan finds the last place, by induction on the bytes it passes
* `exists_commonStart`, `exists_commonEnd` — the two cuts
* `trimCommon_eq_iff` — what is left of two selectors between the longest shared parts
-/

namespace Stylesheet

open Text

/-! ### What selectors share -/

/-- A start that two selectors share in whole parts: it ends with a space, or stands before the
same mark in both. -/
def IsCommonStart (a b start : Text) : Prop :=
  ∃ c p, a = start ++ c ∧ b = start ++ p ∧
    (start = [] ∨ start.getLast? = some (ch ' ') ∨
      ∃ m, isMark m = true ∧ c.head? = some m ∧ p.head? = some m)

/-- An end that two selectors share in whole parts: it starts with a space or a mark. -/
def IsCommonEnd (a b tail : Text) : Prop :=
  ∃ c p, a = c ++ tail ∧ b = p ++ tail ∧
    (tail = [] ∨ ∃ m, (m = ch ' ' ∨ isMark m = true) ∧ tail.head? = some m)

/-- The longest text with a property. -/
def IsLongest (P : Text → Prop) (t : Text) : Prop := P t ∧ ∀ u, P u → u.length ≤ t.length

theorem IsLongest.length_eq {P : Text → Prop} {t u : Text} (ht : IsLongest P t)
    (hu : IsLongest P u) : t.length = u.length :=
  Nat.le_antisymm (hu.2 t ht.1) (ht.2 u hu.1)

/-! ### The last place to cut -/

/-- Two texts may be cut at an offset: they are the same up to a byte that `offer` allows to cut
before, which is `some 0`, or after, which is `some 1`. -/
def Offered (offer : UInt8 → Option Nat) (a b : Text) (n : Nat) : Prop :=
  ∃ t m r s w, a = t ++ m :: r ∧ b = t ++ m :: s ∧ offer m = some w ∧ n = t.length + w

/-- The last offset where two texts may be cut, or `best`. The texts go on from offset `i`. -/
def farthestFrom (offer : UInt8 → Option Nat) : (i best : Nat) → Text → Text → Nat
  | i, best, c :: a, d :: b =>
    if c = d then farthestFrom offer (i + 1) (((offer c).map (i + ·)).getD best) a b else best
  | _, best, [], _ => best
  | _, best, _ :: _, [] => best

variable {offer : UInt8 → Option Nat} {a b : Text} {n : Nat}

theorem offered_cons {c : UInt8} : Offered offer (c :: a) (c :: b) n ↔
    offer c = some n ∨ ∃ m, Offered offer a b m ∧ n = m + 1 := by
  constructor
  · rintro ⟨t, m, r, s, w, ha, hb, hoffer, rfl⟩
    cases t with
    | nil =>
      obtain ⟨rfl, rfl⟩ := List.cons.inj ha
      exact .inl (by simpa using hoffer)
    | cons e t =>
      obtain ⟨rfl, rfl⟩ := List.cons.inj ha
      obtain ⟨-, rfl⟩ := List.cons.inj hb
      refine .inr ⟨t.length + w, ⟨t, m, r, s, w, rfl, rfl, hoffer, rfl⟩, ?_⟩
      exact Nat.add_right_comm t.length 1 w
  · rintro (hoffer | ⟨m, ⟨t, e, r, s, w, rfl, rfl, hoffer, rfl⟩, rfl⟩)
    · exact ⟨[], c, a, b, n, rfl, rfl, hoffer, (Nat.zero_add n).symm⟩
    · exact ⟨c :: t, e, r, s, w, rfl, rfl, hoffer, Nat.add_right_comm t.length w 1⟩

theorem not_offered_of_ne {c d : UInt8} (hne : c ≠ d) : ¬ Offered offer (c :: a) (d :: b) n := by
  rintro ⟨t, m, r, s, w, ha, hb, -, -⟩
  cases t <;> exact hne ((List.cons.inj ha).1.trans (List.cons.inj hb).1.symm)

/-- The scan for the last place: it is no earlier than the best one known before, and if it is
another then the texts may be cut there. -/
theorem farthestFrom_spec (hoffer : ∀ c w, offer c = some w → w ≤ 1) {i best : Nat}
    (hbest : best ≤ i) (a b : Text) :
    best ≤ farthestFrom offer i best a b ∧
      (farthestFrom offer i best a b = best ∨
        ∃ n, Offered offer a b n ∧ farthestFrom offer i best a b = i + n) ∧
      ∀ n, Offered offer a b n → i + n ≤ farthestFrom offer i best a b := by
  fun_induction farthestFrom offer i best a b with
  | case1 i best a c b ih =>
    -- What is offered at this byte is at least as far as the best place before it.
    have hnext : best ≤ ((offer c).map (i + ·)).getD best ∧
        ((offer c).map (i + ·)).getD best ≤ i + 1 := by
      cases hc : offer c with
      | none => exact ⟨Nat.le_refl _, Nat.le_trans hbest (Nat.le_succ i)⟩
      | some w =>
        have hle : i + w ≤ i + 1 := Nat.add_le_add_left (hoffer c w hc) i
        exact ⟨Nat.le_trans hbest (Nat.le_add_right i w), hle⟩
    -- What is best for the rest is offered `n` bytes further on, or else it is this byte's own
    -- place.
    obtain ⟨hle, hfound, hlast⟩ := ih hnext.2
    refine ⟨Nat.le_trans hnext.1 hle, ?_, ?_⟩
    · obtain hsame | ⟨n, hn, heq⟩ := hfound
      · rw [hsame]
        cases hc : offer c with
        | none => exact .inl rfl
        | some w => exact .inr ⟨w, offered_cons.mpr (.inl hc), rfl⟩
      · exact .inr ⟨n + 1, offered_cons.mpr (.inr ⟨n, hn, rfl⟩), by omega⟩
    · intro n hn
      obtain hc | ⟨m, hm, rfl⟩ := offered_cons.mp hn
      · simpa [hc] using hle
      · have hlast := hlast m hm
        omega
  | case2 i best c a d b hne =>
    exact ⟨Nat.le_refl _, .inl rfl, fun n hn => absurd hn (not_offered_of_ne hne)⟩
  | case3 i best b =>
    exact ⟨Nat.le_refl _, .inl rfl, fun n ⟨t, m, r, s, w, ha, _⟩ => by simp at ha⟩
  | case4 i best c a =>
    exact ⟨Nat.le_refl _, .inl rfl, fun n ⟨t, m, r, s, w, _, hb, _⟩ => by simp at hb⟩

/-- Two texts are the same up to a place where they may be cut. -/
theorem Offered.take_eq (hoffer : ∀ c w, offer c = some w → w ≤ 1) (h : Offered offer a b n) :
    a.take n = b.take n ∧ n ≤ a.length := by
  obtain ⟨t, m, r, s, w, rfl, rfl, hm, rfl⟩ := h
  have hw := hoffer m w hm
  rw [List.take_length_add_append, List.take_length_add_append]
  constructor
  · obtain rfl | rfl : w = 0 ∨ w = 1 := by omega
    all_goals rfl
  · rw [List.length_append, List.length_cons]
    omega

/-- The last place to cut two texts is their start or one where they may be cut, and they are the
same up to it. -/
theorem farthestFrom_zero (hoffer : ∀ c w, offer c = some w → w ≤ 1) (a b : Text) :
    (farthestFrom offer 0 0 a b = 0 ∨ Offered offer a b (farthestFrom offer 0 0 a b)) ∧
      (∀ n, Offered offer a b n → n ≤ farthestFrom offer 0 0 a b) ∧
      a.take (farthestFrom offer 0 0 a b) = b.take (farthestFrom offer 0 0 a b) ∧
      farthestFrom offer 0 0 a b ≤ a.length := by
  obtain ⟨-, hfound, hlast⟩ := farthestFrom_spec hoffer (Nat.le_refl 0) a b
  simp only [Nat.zero_add] at hfound hlast
  have hplace : farthestFrom offer 0 0 a b = 0 ∨
      Offered offer a b (farthestFrom offer 0 0 a b) := by
    obtain hzero | ⟨n, hn, heq⟩ := hfound
    · exact .inl hzero
    · exact .inr (heq ▸ hn)
  refine ⟨hplace, hlast, ?_⟩
  obtain hzero | hcut := hplace
  · rw [hzero]
    exact ⟨rfl, Nat.zero_le _⟩
  · exact hcut.take_eq hoffer

/-! ### The two cuts -/

/-- Selectors may be cut at the start after a space and before a mark. -/
def startOffer (c : UInt8) : Option Nat :=
  if c = ch ' ' then some 1 else if isMark c then some 0 else none

/-- Read from the end, selectors may be cut after a space or a mark. -/
def endOffer (c : UInt8) : Option Nat := if c = ch ' ' || isMark c then some 1 else none

theorem startOffer_eq_some_iff {c : UInt8} {w : Nat} :
    startOffer c = some w ↔ c = ch ' ' ∧ w = 1 ∨ isMark c = true ∧ w = 0 := by
  have hspace : isMark (ch ' ') = false := by decide
  unfold startOffer
  split_ifs with h hmark
  · simp only [h, hspace, true_and, Bool.false_eq_true, false_and, or_false, Option.some.injEq]
    exact eq_comm
  · simp only [h, hmark, false_and, true_and, false_or, Option.some.injEq]
    exact eq_comm
  · simp [h, hmark]

theorem endOffer_eq_some_iff {c : UInt8} {w : Nat} :
    endOffer c = some w ↔ (c = ch ' ' ∨ isMark c = true) ∧ w = 1 := by
  unfold endOffer
  split_ifs with h
  · have hoffer : c = ch ' ' ∨ isMark c = true := by simpa using h
    simp only [hoffer, true_and, Option.some.injEq]
    exact eq_comm
  · have hoffer : ¬ (c = ch ' ' ∨ isMark c = true) := by simpa using h
    simp [hoffer]

theorem commonStartFrom_eq (i best : Nat) (a b : Text) :
    commonStartFrom i best a b = farthestFrom startOffer i best a b := by
  fun_induction farthestFrom startOffer i best a b with
  | case1 i best a c b ih =>
    rw [commonStartFrom, if_pos rfl, ← ih]
    congr 1
    unfold startOffer
    split_ifs <;> rfl
  | case2 i best c a d b hne => rw [commonStartFrom, if_neg hne]
  | case3 | case4 => rfl

theorem commonEndFrom_eq (i best : Nat) (a b : Text) :
    commonEndFrom i best a b = farthestFrom endOffer i best a b := by
  fun_induction farthestFrom endOffer i best a b with
  | case1 i best a c b ih =>
    rw [commonEndFrom, if_pos rfl, ← ih]
    congr 1
    unfold endOffer
    split_ifs <;> rfl
  | case2 i best c a d b hne => rw [commonEndFrom, if_neg hne]
  | case3 | case4 => rfl

/-- A start that two selectors share in whole parts is empty, or they may be cut after it. -/
theorem isCommonStart_iff {start : Text} : IsCommonStart a b start ↔
    start <+: a ∧ start <+: b ∧ (start = [] ∨ Offered startOffer a b start.length) := by
  constructor
  · rintro ⟨c, p, rfl, rfl, hcut⟩
    refine ⟨List.prefix_append _ _, List.prefix_append _ _, hcut.imp_right ?_⟩
    rintro (hspace | ⟨m, hmark, hc, hp⟩)
    · -- A space offers the place after it, a mark the place before it.
      obtain ⟨t, rfl⟩ := List.getLast?_eq_some_iff.mp hspace
      exact ⟨t, ch ' ', c, p, 1, by simp, by simp, rfl, by simp⟩
    · obtain ⟨c, rfl⟩ := List.head?_eq_some_iff.mp hc
      obtain ⟨p, rfl⟩ := List.head?_eq_some_iff.mp hp
      exact ⟨start, m, c, p, 0, rfl, rfl, startOffer_eq_some_iff.mpr (.inr ⟨hmark, rfl⟩), rfl⟩
  · rintro ⟨⟨c, rfl⟩, ⟨p, rfl⟩, hcut⟩
    refine ⟨c, p, rfl, rfl, hcut.imp_right ?_⟩
    rintro ⟨t, m, r, s, w, ha, hb, hoffer, hlength⟩
    obtain ⟨rfl, rfl⟩ | ⟨hmark, rfl⟩ := startOffer_eq_some_iff.mp hoffer
    · -- Both ways of cutting the text have the same length.
      have hstart : start = t ++ [ch ' '] :=
        (List.append_inj (ha.trans (List.append_cons t _ r)) (by simpa using hlength)).1
      exact .inl (by simp [hstart])
    · obtain ⟨-, rfl⟩ := List.append_inj ha hlength
      obtain ⟨-, rfl⟩ := List.append_inj hb hlength
      exact .inr ⟨m, hmark, rfl, rfl⟩

/-- An end that two selectors share in whole parts is empty, or they may be cut before it. -/
theorem isCommonEnd_iff {tail : Text} : IsCommonEnd a b tail ↔
    tail <:+ a ∧ tail <:+ b ∧ (tail = [] ∨ Offered endOffer a.reverse b.reverse tail.length) := by
  constructor
  · rintro ⟨c, p, rfl, rfl, hcut⟩
    refine ⟨List.suffix_append _ _, List.suffix_append _ _, hcut.imp_right ?_⟩
    rintro ⟨m, hmark, htail⟩
    obtain ⟨t, rfl⟩ := List.head?_eq_some_iff.mp htail
    exact ⟨t.reverse, m, c.reverse, p.reverse, 1, by simp, by simp,
      endOffer_eq_some_iff.mpr ⟨hmark, rfl⟩, by simp⟩
  · rintro ⟨⟨c, rfl⟩, ⟨p, rfl⟩, hcut⟩
    refine ⟨c, p, rfl, rfl, hcut.imp_right ?_⟩
    rintro ⟨t, m, r, s, w, ha, hb, hoffer, hlength⟩
    obtain ⟨hmark, rfl⟩ := endOffer_eq_some_iff.mp hoffer
    rw [List.reverse_append, List.append_cons] at ha
    have htail : tail.reverse = t ++ [m] := (List.append_inj ha (by simpa using hlength)).1
    exact ⟨m, hmark, by rw [← List.getLast?_reverse, htail, List.getLast?_concat]⟩

theorem startOffer_le (c : UInt8) (w : Nat) (h : startOffer c = some w) : w ≤ 1 := by
  obtain ⟨-, rfl⟩ | ⟨-, rfl⟩ := startOffer_eq_some_iff.mp h
  · exact Nat.le_refl 1
  · exact Nat.zero_le 1

theorem endOffer_le (c : UInt8) (w : Nat) (h : endOffer c = some w) : w ≤ 1 :=
  Nat.le_of_eq (endOffer_eq_some_iff.mp h).2

/-- The scan from the start finds the longest start that is shared in whole parts. -/
theorem exists_commonStart (a b : Text) : ∃ start, IsLongest (IsCommonStart a b) start ∧
    a = start ++ a.drop (commonStart a b) ∧ b = start ++ b.drop (commonStart a b) := by
  obtain ⟨hplace, hlast, htake, hle⟩ := farthestFrom_zero startOffer_le a b
  rw [← commonStartFrom_eq, ← commonStart] at hplace hlast htake hle
  have hlength : (a.take (commonStart a b)).length = commonStart a b := List.length_take_of_le hle
  have hb : b = a.take (commonStart a b) ++ b.drop (commonStart a b) := by
    rw [htake, List.take_append_drop]
  refine ⟨a.take (commonStart a b), ⟨isCommonStart_iff.mpr ⟨?_, ?_, ?_⟩, ?_⟩,
    (List.take_append_drop _ _).symm, hb⟩
  · exact List.take_prefix _ _
  · exact ⟨_, hb.symm⟩
  · rw [hlength]
    exact hplace.imp_left fun hzero => by rw [hzero, List.take_zero]
  · intro start hstart
    rw [hlength]
    obtain rfl | hcut := (isCommonStart_iff.mp hstart).2.2
    · exact Nat.zero_le _
    · exact hlast _ hcut

/-- The scan from the end finds the longest end that is shared in whole parts. -/
theorem exists_commonEnd (a b : Text) : ∃ tail, IsLongest (IsCommonEnd a b) tail ∧
    a = a.take (a.length - commonEnd a b) ++ tail ∧
      b = b.take (b.length - commonEnd a b) ++ tail := by
  obtain ⟨hplace, hlast, htake, hle⟩ := farthestFrom_zero endOffer_le a.reverse b.reverse
  rw [← commonEndFrom_eq, ← commonEnd] at hplace hlast htake hle
  rw [List.length_reverse] at hle
  -- Read from the end, what is passed is what the texts end with.
  have hdrop : a.drop (a.length - commonEnd a b) = b.drop (b.length - commonEnd a b) := by
    rw [List.take_reverse, List.take_reverse] at htake
    exact List.reverse_injective htake
  have hlength : (a.drop (a.length - commonEnd a b)).length = commonEnd a b := by
    rw [List.length_drop]
    omega
  have hb : b = b.take (b.length - commonEnd a b) ++ a.drop (a.length - commonEnd a b) := by
    rw [hdrop, List.take_append_drop]
  refine ⟨a.drop (a.length - commonEnd a b), ⟨isCommonEnd_iff.mpr ⟨?_, ?_, ?_⟩, ?_⟩,
    (List.take_append_drop _ _).symm, hb⟩
  · exact List.drop_suffix _ _
  · exact ⟨_, hb.symm⟩
  · rw [hlength]
    exact hplace.imp_left fun hzero => by rw [hzero, Nat.sub_zero, List.drop_length]
  · intro tail htail
    rw [hlength]
    obtain rfl | hcut := (isCommonEnd_iff.mp htail).2.2
    · exact Nat.zero_le _
    · exact hlast _ hcut

/-! ### What is left -/

theorem exists_trimCommon (child parent : Text) : ∃ start tail,
    child = start ++ (trimCommon child parent).1 ++ tail ∧
      parent = start ++ (trimCommon child parent).2 ++ tail ∧
      IsLongest (IsCommonStart child parent) start ∧
      IsLongest (IsCommonEnd ((trimCommon child parent).1 ++ tail)
        ((trimCommon child parent).2 ++ tail)) tail := by
  obtain ⟨start, hstart, hchild, hparent⟩ := exists_commonStart child parent
  -- The end is looked for only in what the start leaves of both texts.
  obtain ⟨tail, htail, hc, hp⟩ := exists_commonEnd (child.drop (commonStart child parent))
    (parent.drop (commonStart child parent))
  have hc' : (trimCommon child parent).1 ++ tail = child.drop (commonStart child parent) := hc.symm
  have hp' : (trimCommon child parent).2 ++ tail = parent.drop (commonStart child parent) := hp.symm
  refine ⟨start, tail, ?_, ?_, hstart, ?_⟩
  · rw [List.append_assoc, hc']
    exact hchild
  · rw [List.append_assoc, hp']
    exact hparent
  · rw [hc', hp']
    exact htail

/-- Trimming leaves what is between the longest start that two selectors share in whole parts and
the longest end that what comes after it shares in whole parts. -/
theorem trimCommon_eq_iff {child parent c p : Text} : trimCommon child parent = (c, p) ↔
    ∃ start tail, child = start ++ c ++ tail ∧ parent = start ++ p ++ tail ∧
      IsLongest (IsCommonStart child parent) start ∧
      IsLongest (IsCommonEnd (c ++ tail) (p ++ tail)) tail := by
  constructor
  · intro h
    simpa only [h] using exists_trimCommon child parent
  · rintro ⟨start, tail, hchild, hparent, hstart, htail⟩
    -- The longest shared parts are the only ones, so what is between them is the same.
    obtain ⟨start', tail', hchild', hparent', hstart', htail'⟩ := exists_trimCommon child parent
    have heq := hchild.symm.trans hchild'
    have heq' := hparent.symm.trans hparent'
    simp only [List.append_assoc] at heq heq'
    obtain ⟨-, hc⟩ := List.append_inj heq (hstart.length_eq hstart')
    obtain ⟨-, hp⟩ := List.append_inj heq' (hstart.length_eq hstart')
    rw [← hc, ← hp] at htail'
    have hlength := htail'.length_eq htail
    obtain ⟨hleft, -⟩ := List.append_inj' hc hlength.symm
    obtain ⟨hright, -⟩ := List.append_inj' hp hlength.symm
    exact Prod.ext hleft.symm hright.symm

/-- The mark that both names start with is no part of what they share. -/
example : trimCommon (of ".nav .b:hover") (of ".nav .a:hover") = (of ".b", of ".a") := by decide

end Stylesheet
