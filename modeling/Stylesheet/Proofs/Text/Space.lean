import Mathlib.Tactic.SplitIfs
import Stylesheet.Proofs.Text.Words

/-!
# White space at the ends of a text

What trimming takes away is white space, character by character. From the right the bytes
of a character come last first, but the characters are the same, so both ends can be
described in one way.

## Main definitions

* `Text.Spaces` — a text made of white-space characters

## Main results

* `Text.Spaces.isBlank` — such a text is blank
* `Text.exists_trim_spaces` — a text is its trimmed self between white space
* `Text.snug_trim` — a trimmed text has no white space at its ends
-/

namespace Stylesheet.Text

/-- A text made of whole white-space characters. -/
inductive Spaces : Text → Prop
  | nil : Spaces []
  | one {a : UInt8} {t : Text} (ha : blank1 a = true) (ht : Spaces t) : Spaces (a :: t)
  | two {a b : UInt8} {t : Text} (hab : blank2 a b = true) (ht : Spaces t) :
    Spaces (a :: b :: t)
  | three {a b c : UInt8} {t : Text} (habc : blank3 a b c = true) (ht : Spaces t) :
    Spaces (a :: b :: c :: t)

theorem Spaces.append {t u : Text} (ht : Spaces t) (hu : Spaces u) : Spaces (t ++ u) := by
  induction ht with
  | nil => exact hu
  | one ha ht ih => exact .one ha ih
  | two hab ht ih => exact .two hab ih
  | three habc ht ih => exact .three habc ih

/-- The bytes still to be skipped are skipped first. -/
theorem dropSpace_eq_drop (width : Text → Nat) (k : Nat) (t : Text) :
    dropSpace width k t = dropSpace width 0 (t.drop k) := by
  induction k generalizing t with
  | zero => rfl
  | succ k ih =>
    cases t with
    | nil => rfl
    | cons a t =>
      rw [dropSpace, List.drop_succ_cons]
      exact ih t

theorem dropSpace_zero_cons (width : Text → Nat) (a : UInt8) (r : Text) :
    dropSpace width 0 (a :: r) =
      if width (a :: r) = 0 then a :: r else dropSpace width 0 (r.drop (width (a :: r) - 1)) := by
  rw [dropSpace]
  split
  case h_1 hwidth => rw [if_pos hwidth]
  case h_2 n hwidth =>
    rw [hwidth, if_neg n.succ_ne_zero, dropSpace_eq_drop]
    rfl

theorem spaceWidth_blank2 {a b : UInt8} (h : blank2 a b = true) (r : Text) :
    spaceWidth (a :: b :: r) = 2 := by
  have ha : blank1 a = false := by
    simp only [blank2, Bool.and_eq_true, decide_eq_true_eq] at h
    rw [h.1]
    decide
  cases r <;> simp [spaceWidth, ha, h]

theorem spaceWidth_blank3 {a b c : UInt8} (h : blank3 a b c = true) (r : Text) :
    spaceWidth (a :: b :: c :: r) = 3 := by
  have ha : blank1 a = false ∧ blank2 a b = false := by
    simp only [blank3, Bool.or_eq_true, Bool.and_eq_true, decide_eq_true_eq] at h
    rcases h with ((⟨⟨rfl, rfl⟩, -⟩ | ⟨⟨rfl, rfl⟩, -⟩) | ⟨⟨rfl, rfl⟩, -⟩) | ⟨⟨rfl, rfl⟩, -⟩ <;>
      decide
  simp [spaceWidth, ha, h]

/-- The bytes of the white-space character a text starts with. -/
theorem spaces_of_spaceWidth {a : UInt8} {r : Text} {n : Nat} (h : spaceWidth (a :: r) = n + 1) :
    Spaces (a :: r.take n) := by
  match r with
  | [] =>
    rw [spaceWidth] at h
    split_ifs at h with ha
    exact .one ha (by simpa using .nil)
  | [b] =>
    rw [spaceWidth] at h
    split_ifs at h with ha hab
    · obtain rfl : n = 0 := by omega
      exact .one ha .nil
    · obtain rfl : n = 1 := by omega
      exact .two hab .nil
  | b :: c :: r =>
    rw [spaceWidth] at h
    split_ifs at h with ha hab habc
    · obtain rfl : n = 0 := by omega
      exact .one ha .nil
    · obtain rfl : n = 1 := by omega
      exact .two hab .nil
    · obtain rfl : n = 2 := by omega
      exact .three habc .nil

/-- The bytes of the white-space character a text ends with, the text being given last byte
first. -/
theorem spaces_of_spaceWidthRev {a : UInt8} {r : Text} {n : Nat}
    (h : spaceWidthRev (a :: r) = n + 1) : Spaces (a :: r.take n).reverse := by
  match r with
  | [] =>
    rw [spaceWidthRev] at h
    split_ifs at h with ha
    simpa using Spaces.one ha .nil
  | [b] =>
    rw [spaceWidthRev] at h
    split_ifs at h with ha hab
    · obtain rfl : n = 0 := by omega
      exact .one ha .nil
    · obtain rfl : n = 1 := by omega
      exact .two hab .nil
  | b :: c :: r =>
    rw [spaceWidthRev] at h
    split_ifs at h with ha hab habc
    · obtain rfl : n = 0 := by omega
      exact .one ha .nil
    · obtain rfl : n = 1 := by omega
      exact .two hab .nil
    · obtain rfl : n = 2 := by omega
      exact .three habc .nil

/-- What is dropped is one white-space character after the other, as `P` collects them. -/
theorem exists_dropSpace_spaces (width : Text → Nat) (P : Text → Prop) (hnil : P [])
    (hchar : ∀ a r n w, width (a :: r) = n + 1 → P w → P (a :: r.take n ++ w)) (t : Text) :
    ∃ w, t = w ++ dropSpace width 0 t ∧ P w := by
  induction hn : t.length using Nat.strongRecOn generalizing t with
  | _ n ih =>
    cases t with
    | nil => exact ⟨[], rfl, hnil⟩
    | cons a r =>
      rw [dropSpace_zero_cons]
      cases hwidth : width (a :: r) with
      | zero => exact ⟨[], by simp, hnil⟩
      | succ k =>
        rw [if_neg k.succ_ne_zero, Nat.succ_sub_one]
        have hless : (r.drop k).length < n := by
          rw [← hn, List.length_cons, List.length_drop]
          omega
        obtain ⟨w, hw, hspaces⟩ := ih _ hless (r.drop k) rfl
        refine ⟨a :: r.take k ++ w, ?_, hchar a r k w hwidth hspaces⟩
        rw [List.append_assoc, ← hw, List.cons_append, List.take_append_drop]

/-- White space stands before the rest of a text. -/
theorem exists_trimLeft_spaces (t : Text) : ∃ w, t = w ++ trimLeft t ∧ Spaces w :=
  exists_dropSpace_spaces spaceWidth Spaces .nil
    (fun _ _ _ _ hwidth hspaces => (spaces_of_spaceWidth hwidth).append hspaces) t

/-- A text is its trimmed self between white space. -/
theorem exists_trim_spaces (t : Text) :
    ∃ w v, t = w ++ trim t ++ v ∧ Spaces w ∧ Spaces v := by
  obtain ⟨w, hw, hwspaces⟩ := exists_trimLeft_spaces t
  obtain ⟨v, hv, hvspaces⟩ := exists_dropSpace_spaces spaceWidthRev
    (fun w => Spaces w.reverse) .nil
    (fun a r n w hwidth hspaces => by
      rw [List.reverse_append]
      exact hspaces.append (spaces_of_spaceWidthRev hwidth)) (trimLeft t).reverse
  refine ⟨w, v.reverse, ?_, hwspaces, hvspaces⟩
  have hend : trimLeft t = trim t ++ v.reverse := by
    simpa [trim, trimRight] using congrArg List.reverse hv
  rw [List.append_assoc, ← hend]
  exact hw

/-- White-space characters are dropped one by one. -/
theorem Spaces.trimLeft {t : Text} (h : Spaces t) : trimLeft t = [] := by
  induction h with
  | nil => rfl
  | @one a t ha ht ih =>
    have hwidth : spaceWidth (a :: t) = 1 := spaceWidth_blank a t ha
    rw [Text.trimLeft, dropSpace_zero_cons, hwidth]
    exact ih
  | @two a b t hab ht ih =>
    rw [Text.trimLeft, dropSpace_zero_cons, spaceWidth_blank2 hab]
    exact ih
  | @three a b c t habc ht ih =>
    rw [Text.trimLeft, dropSpace_zero_cons, spaceWidth_blank3 habc]
    exact ih

/-- White space in front is trimmed away. -/
theorem Spaces.trimLeft_append {w : Text} (hw : Spaces w) (t : Text) :
    Text.trimLeft (w ++ t) = Text.trimLeft t := by
  induction hw with
  | nil => rfl
  | @one a w ha hw ih =>
    have hwidth : spaceWidth (a :: (w ++ t)) = 1 := spaceWidth_blank a (w ++ t) ha
    rw [List.cons_append, Text.trimLeft, dropSpace_zero_cons, hwidth]
    exact ih
  | @two a b w hab hw ih =>
    rw [List.cons_append, List.cons_append, Text.trimLeft, dropSpace_zero_cons,
      spaceWidth_blank2 hab]
    exact ih
  | @three a b c w habc hw ih =>
    rw [List.cons_append, List.cons_append, List.cons_append, Text.trimLeft, dropSpace_zero_cons,
      spaceWidth_blank3 habc]
    exact ih

theorem Spaces.trim_append {w : Text} (hw : Spaces w) (t : Text) : trim (w ++ t) = trim t := by
  rw [trim, trim, hw.trimLeft_append]

theorem Spaces.isBlank {t : Text} (h : Spaces t) : isBlank t = true := by
  rw [Text.isBlank, trim, h.trimLeft]
  rfl

/-- A text that starts with white space does not start with anything else. -/
theorem Spaces.spaceWidth_ne_zero {w : Text} (hw : Spaces w) (hne : w ≠ []) (u : Text) :
    spaceWidth (w ++ u) ≠ 0 := by
  intro hzero
  have hnone := spaceWidth_eq_zero_of_append hne hzero
  have hkept : Text.trimLeft w = w := dropSpace_eq_self hnone
  exact hne (hkept.symm.trans hw.trimLeft)

/-! ### Trimmed texts -/

/-- Where dropping white space has come to an end, there is none. -/
theorem width_dropSpace {width : Text → Nat} (hnil : width [] = 0) (k : Nat) (t : Text) :
    width (dropSpace width k t) = 0 := by
  fun_induction dropSpace width k t with
  | case1 => exact hnil
  | case2 a r hwidth => exact hwidth
  | case3 a r n hwidth ih => exact ih
  | case4 k a r ih => exact ih

theorem trim_prefix_trimLeft (t : Text) : trim t <+: trimLeft t := by
  obtain ⟨v, hv, -⟩ := exists_dropSpace_spaces spaceWidthRev (fun _ => True) trivial
    (fun _ _ _ _ _ _ => trivial) (trimLeft t).reverse
  refine ⟨v.reverse, ?_⟩
  simpa [trim, trimRight] using (congrArg List.reverse hv).symm

theorem spaceWidth_trim (t : Text) : spaceWidth (trim t) = 0 := by
  by_cases hne : trim t = []
  · rw [hne]
    rfl
  obtain ⟨v, hv⟩ := trim_prefix_trimLeft t
  refine spaceWidth_eq_zero_of_append (u := v) hne ?_
  rw [hv]
  exact width_dropSpace rfl 0 t

/-- A trimmed text has no white space at its ends. -/
theorem snug_trim {t : Text} (hne : trim t ≠ []) : Snug (trim t) := by
  refine ⟨hne, spaceWidth_trim t, ?_⟩
  rw [trim, trimRight, List.reverse_reverse]
  exact width_dropSpace rfl 0 _

end Stylesheet.Text
