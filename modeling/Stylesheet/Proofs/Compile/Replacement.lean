import Mathlib.Tactic.SplitIfs
import Stylesheet.Compile.Extend
import Stylesheet.Proofs.Text.Words

/-!
# Replacement

What a selector becomes when another one extends a selector it names: of which bytes it is
made, and how long it is.

## Main results

* `trimCommon_length` — trimming takes equally much from child and parent
* `exists_length_replaceWhole` — each replaced occurrence changes the length alike
* `of_extendSelector?` — the two for an extended selector
* `extendSelector?_self` — selectors that share nothing simply replace each other
-/

namespace Stylesheet

open Text

/-! ### Trimming -/

theorem commonStartFrom_le {i best : Nat} (hbest : best ≤ i) (a b : Text) :
    commonStartFrom i best a b ≤ i + min a.length b.length := by
  fun_induction commonStartFrom i best a b with
  | case1 i best a c b ih =>
    have hnext : (if c = ch ' ' then i + 1 else if isMark c then i else best) ≤ i + 1 := by
      split_ifs <;> omega
    have hrest := ih hnext
    simp only [List.length_cons]
    omega
  | case2 i best => omega
  | case3 i best => omega

theorem commonEndFrom_le {i best : Nat} (hbest : best ≤ i) (a b : Text) :
    commonEndFrom i best a b ≤ i + min a.length b.length := by
  fun_induction commonEndFrom i best a b with
  | case1 i best a c b ih =>
    have hnext : (if c = ch ' ' || isMark c then i + 1 else best) ≤ i + 1 := by
      split_ifs <;> omega
    have hrest := ih hnext
    simp only [List.length_cons]
    omega
  | case2 i best => omega
  | case3 i best => omega

/-- Trimming takes equally many bytes from the child and from the parent. -/
theorem trimCommon_length (child parent : Text) :
    (trimCommon child parent).1.length + parent.length =
      (trimCommon child parent).2.length + child.length := by
  have hstart : commonStart child parent ≤ min child.length parent.length := by
    simpa [commonStart] using commonStartFrom_le (Nat.le_refl 0) child parent
  have hend := commonEndFrom_le (Nat.le_refl 0) (child.drop (commonStart child parent)).reverse
    (parent.drop (commonStart child parent)).reverse
  simp only [trimCommon, commonEnd, List.length_take, List.length_drop,
    List.length_reverse] at hend ⊢
  omega

theorem mem_of_mem_trimCommon {child parent : Text} {c : UInt8}
    (hc : c ∈ (trimCommon child parent).1) : c ∈ child :=
  List.mem_of_mem_drop (List.mem_of_mem_take hc)

/-! ### Replacing -/

variable {old new : Text}

theorem mem_replaceWholeFrom {skip : Nat} {prev : Option UInt8} {t : Text} {c : UInt8}
    (hc : c ∈ replaceWholeFrom old new skip prev t) : c ∈ new ∨ c ∈ t := by
  fun_induction replaceWholeFrom old new skip prev t with
  | case1 => exact absurd hc List.not_mem_nil
  | case2 prev a r hwhole ih =>
    rcases List.mem_append.mp hc with hc | hc
    · exact .inl hc
    · exact (ih hc).imp_right (List.mem_cons_of_mem _)
  | case3 prev a r hwhole ih =>
    rcases List.mem_cons.mp hc with rfl | hc
    · exact .inr List.mem_cons_self
    · exact (ih hc).imp_right (List.mem_cons_of_mem _)
  | case4 prev k a r ih => exact (ih hc).imp_right (List.mem_cons_of_mem _)

theorem length_le_of_standsWhole {prev : Option UInt8} {t : Text}
    (h : standsWhole old prev t = true) : old.length ≤ t.length := by
  simp only [standsWhole, Bool.and_eq_true, starts] at h
  exact (List.isPrefixOf_iff_prefix.mp h.1.1).length_le

/-- Replacing changes the length by the same amount for each of some number of
occurrences; the bytes still to pass are left out. -/
theorem exists_length_replaceWholeFrom (hold : old ≠ []) {skip : Nat} {prev : Option UInt8}
    {t : Text} (hskip : skip ≤ t.length) :
    ∃ n, (replaceWholeFrom old new skip prev t).length + skip + n * old.length =
        t.length + n * new.length ∧
      (n = 0 → replaceWholeFrom old new skip prev t = t.drop skip) := by
  have hpos : 0 < old.length := List.length_pos_iff.mpr hold
  -- by the cases of the scan: an occurrence is replaced, a byte kept, or one of those passed over
  fun_induction replaceWholeFrom old new skip prev t with
  | case1 skip prev =>
    obtain rfl : skip = 0 := Nat.le_zero.mp hskip
    exact ⟨0, by simp, fun _ => rfl⟩
  | case2 prev a r hwhole ih =>
    have hle := length_le_of_standsWhole hwhole
    rw [List.length_cons] at hle
    obtain ⟨n, hn, -⟩ := ih (by omega)
    refine ⟨n + 1, ?_, fun h => absurd h n.succ_ne_zero⟩
    rw [List.length_append, List.length_cons, Nat.succ_mul, Nat.succ_mul]
    omega
  | case3 prev a r hwhole ih =>
    obtain ⟨n, hn, hsame⟩ := ih r.length.zero_le
    refine ⟨n, ?_, fun h => ?_⟩
    · rw [List.length_cons, List.length_cons]
      omega
    · rw [hsame h]
      rfl
  | case4 prev k a r ih =>
    rw [List.length_cons] at hskip
    obtain ⟨n, hn, hsame⟩ := ih (by omega)
    refine ⟨n, ?_, fun h => ?_⟩
    · rw [List.length_cons]
      omega
    · rw [hsame h]
      rfl

/-- Replacing changes the length by the same amount for each of some number of
occurrences. -/
theorem exists_length_replaceWhole (hold : old ≠ []) (t new : Text) :
    ∃ n, (replaceWhole t old new).length + n * old.length = t.length + n * new.length ∧
      (n = 0 → replaceWhole t old new = t) :=
  exists_length_replaceWholeFrom hold t.length.zero_le

theorem replaceWholeFrom_skip {k : Nat} {prev : Option UInt8} {t : Text} (hk : t.length ≤ k) :
    replaceWholeFrom old new k prev t = [] := by
  fun_induction replaceWholeFrom old new k prev t with
  | case1 => rfl
  | case2 | case3 => simp at hk
  | case4 prev k a r ih => exact ih (Nat.le_of_succ_le_succ hk)

/-- A selector that is replaced whole becomes the new one. -/
theorem replaceWhole_self (hold : old ≠ []) (new : Text) : replaceWhole old old new = new := by
  obtain ⟨a, r, rfl⟩ := List.exists_cons_of_ne_nil hold
  have hwhole : standsWhole (a :: r) none (a :: r) = true := by
    simp [standsWhole, starts]
  rw [replaceWhole, replaceWholeFrom, if_pos hwhole, replaceWholeFrom_skip (by simp),
    List.append_nil]

/-! ### Extended selectors -/

variable {parent selector child extended : Text}

/-- An extended selector is another one, made from what the selector and the child have
and as much longer, for each of some number of occurrences, as the child is longer than the
parent. -/
theorem of_extendSelector? (h : extendSelector? parent selector child = some extended) :
    extended ≠ selector ∧ (∀ c ∈ extended, c ∈ child ∨ c ∈ selector) ∧
      ∃ n, extended.length + (n + 1) * parent.length =
        selector.length + (n + 1) * child.length := by
  simp only [extendSelector?] at h
  split_ifs at h with hempty hsame
  obtain rfl := Option.some.inj h
  have hold : (trimCommon child parent).2 ≠ [] := by
    intro hnil
    simp [hnil] at hempty
  refine ⟨hsame, fun c hc => (mem_replaceWholeFrom hc).imp_left mem_of_mem_trimCommon, ?_⟩
  obtain ⟨n, hn, hzero⟩ :=
    exists_length_replaceWhole hold selector (trimCommon child parent).1
  obtain _ | n := n
  · exact absurd (hzero rfl) hsame
  refine ⟨n, ?_⟩
  have htrim := trimCommon_length child parent
  -- The trimmed lengths differ as the whole ones do.
  have hscaled := congrArg ((n + 1) * ·) htrim
  simp only [Nat.mul_add] at hscaled
  omega

/-- A selector becomes longer only by a child longer than the parent. -/
theorem length_lt_of_extendSelector? (h : extendSelector? parent selector child = some extended)
    (hlt : selector.length < extended.length) : parent.length < child.length := by
  obtain ⟨-, -, n, hn⟩ := of_extendSelector? h
  by_contra hle
  have hscaled := Nat.mul_le_mul_left (n + 1) (Nat.not_lt.mp hle)
  omega

/-- A child longer than the parent makes a selector longer, by at least as much. -/
theorem le_length_of_extendSelector? (h : extendSelector? parent selector child = some extended)
    (hlt : parent.length < child.length) :
    selector.length + child.length ≤ extended.length + parent.length := by
  obtain ⟨-, -, n, hn⟩ := of_extendSelector? h
  have hscaled := Nat.mul_le_mul_left n (Nat.le_of_lt hlt)
  rw [Nat.succ_mul, Nat.succ_mul] at hn
  omega

theorem extendSelector?_nil_child (parent selector : Text) :
    extendSelector? parent selector [] = none := by
  simp [extendSelector?, trimCommon]

theorem extendSelector?_nil (parent child : Text) : extendSelector? parent [] child = none := by
  simp only [extendSelector?, replaceWhole, replaceWholeFrom]
  split_ifs <;> rfl

/-- A parent that shares nothing with the child becomes the child. -/
theorem extendSelector?_self (htrim : trimCommon child parent = (child, parent))
    (hchild : child ≠ []) (hparent : parent ≠ []) (hne : child ≠ parent) :
    extendSelector? parent parent child = some child := by
  simp only [extendSelector?, htrim, replaceWhole_self hparent, List.isEmpty_iff, hchild, hparent,
    Bool.or_eq_true, or_self, if_false, hne]

end Stylesheet
