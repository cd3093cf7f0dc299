import Mathlib.Data.List.Basic
import Stylesheet.Text

/-!
# Texts, their ends and their slices

Trimming a text takes whole white-space characters off its ends, so what is lost is made
of bytes that no character with a meaning of its own shares. Slices of a text grow by
one byte at a time, which is what a scan from left to right needs.

## Main definitions

* `Text.inBlank` — a byte that can be part of a white-space character

## Main results

* `Text.exists_trim_eq` — a text is its trimmed self between two runs of such bytes
* `Text.slice_succ` — a slice one byte longer
* `Text.length_takeWhile_append` — when the first bytes of a kind are one part of a text
-/

namespace Stylesheet.Text

/-- A byte that occurs in white-space characters: white space by itself, or a part of a
character outside ASCII. -/
def inBlank (c : UInt8) : Bool := blank1 c || 0x80 ≤ c

/-- What holds of the bytes of a text is decided along the text, not byte by byte of all
there are. -/
instance (priority := 2000) decidableForallMem (t : Text) (p : UInt8 → Prop) [DecidablePred p] :
    Decidable (∀ c ∈ t, p c) :=
  List.decidableBAll p t

/-! ### What trimming takes away -/

/-- The white-space character a text starts with is made of blank bytes. -/
theorem inBlank_of_spaceWidth {a : UInt8} {r : Text} {n : Nat}
    (h : spaceWidth (a :: r) = n + 1) : inBlank a ∧ ∀ c ∈ r.take n, inBlank c := by
  match r with
  | [] => grind [spaceWidth, inBlank]
  | [b] => grind [spaceWidth, inBlank, blank2]
  | b :: c :: r =>
    rw [spaceWidth] at h
    split_ifs at h with h1 h2 h3
    · obtain rfl : n = 0 := by omega
      simp [inBlank, h1]
    · obtain rfl : n = 1 := by omega
      grind [inBlank, blank2]
    · obtain rfl : n = 2 := by omega
      grind [inBlank, blank3]

/-- The white-space character a text ends with is made of blank bytes. -/
theorem inBlank_of_spaceWidthRev {a : UInt8} {r : Text} {n : Nat}
    (h : spaceWidthRev (a :: r) = n + 1) : inBlank a ∧ ∀ c ∈ r.take n, inBlank c := by
  match r with
  | [] => grind [spaceWidthRev, inBlank]
  | [b] => grind [spaceWidthRev, inBlank, blank2]
  | b :: c :: r =>
    rw [spaceWidthRev] at h
    split_ifs at h with h1 h2 h3
    · obtain rfl : n = 0 := by omega
      simp [inBlank, h1]
    · obtain rfl : n = 1 := by omega
      grind [inBlank, blank2]
    · obtain rfl : n = 2 := by omega
      grind [inBlank, blank3]

/-- Dropping white space drops blank bytes only. The bytes still to be skipped belong to
a character already recognised, so they are blank by assumption. -/
theorem exists_dropSpace_eq {width : Text → Nat}
    (hwidth : ∀ a r n, width (a :: r) = n + 1 → inBlank a ∧ ∀ c ∈ r.take n, inBlank c) :
    ∀ (k : Nat) (t : Text), (∀ c ∈ t.take k, inBlank c) →
      ∃ w, t = w ++ dropSpace width k t ∧ ∀ c ∈ w, inBlank c := by
  intro k t
  fun_induction dropSpace width k t with
  | case1 => exact fun _ => ⟨[], rfl, by simp⟩
  | case2 => exact fun _ => ⟨[], rfl, by simp⟩
  | case3 a r n hn ih =>
    intro _
    obtain ⟨ha, hr⟩ := hwidth a r n hn
    obtain ⟨w, hw, hblank⟩ := ih hr
    refine ⟨a :: w, by rw [List.cons_append, ← hw], ?_⟩
    rintro c (_ | ⟨_, hc⟩)
    · exact ha
    · exact hblank c hc
  | case4 k a r ih =>
    intro hskip
    rw [List.take_succ_cons] at hskip
    obtain ⟨w, hw, hblank⟩ := ih fun c hc => hskip c (List.mem_cons_of_mem a hc)
    refine ⟨a :: w, by rw [List.cons_append, ← hw], ?_⟩
    rintro c (_ | ⟨_, hc⟩)
    · exact hskip a List.mem_cons_self
    · exact hblank c hc

/-- A text is its trimmed self between two runs of blank bytes. -/
theorem exists_trim_eq (t : Text) :
    ∃ w v, t = w ++ trim t ++ v ∧ (∀ c ∈ w, inBlank c) ∧ ∀ c ∈ v, inBlank c := by
  obtain ⟨w, hw, hwblank⟩ :=
    exists_dropSpace_eq (fun _ _ _ => inBlank_of_spaceWidth) 0 t (by simp)
  obtain ⟨v, hv, hvblank⟩ :=
    exists_dropSpace_eq (fun _ _ _ => inBlank_of_spaceWidthRev) 0 (trimLeft t).reverse (by simp)
  refine ⟨w, v.reverse, ?_, hwblank, by simpa using hvblank⟩
  have hend : trimLeft t = trim t ++ v.reverse := by
    simpa [trim, trimRight] using congrArg List.reverse hv
  rw [List.append_assoc, ← hend]
  exact hw

/-! ### Slices -/

/-- A slice one byte longer, the text being cut where the slice ends. -/
theorem slice_succ {before : Text} {c : UInt8} {after : Text} {i : Nat}
    (h : i ≤ before.length) :
    slice (before ++ c :: after) i (before.length + 1) =
      slice (before ++ c :: after) i before.length ++ [c] := by
  have htake : (before ++ c :: after).take (before.length + 1) = before ++ [c] := by
    simp [List.take_append, List.take_of_length_le]
  rw [slice, slice, htake, List.drop_append_of_le_length h, List.take_left]

/-- A slice that ends where it starts is empty. -/
@[simp] theorem slice_self (t : Text) (i : Nat) : slice t i i = [] := by
  simp [slice]

/-! ### First bytes -/

/-- What holds of each of the 256 bytes. -/
theorem forall_byte {P : UInt8 → Prop} (h : ∀ n : Fin 256, P (.ofFin n)) (c : UInt8) : P c :=
  h c.toFin

theorem head0_append {t : Text} (ht : t ≠ []) (rest : Text) : head0 (t ++ rest) = head0 t := by
  cases t with
  | nil => exact absurd rfl ht
  | cons c r => rfl

/-- The first bytes of a text that satisfy a predicate are one of its parts. -/
theorem length_takeWhile_append {p : UInt8 → Bool} (hp : p 0 = false) (t rest : Text) :
    ((t ++ rest).takeWhile p).length = t.length ↔
      (∀ c ∈ t, p c = true) ∧ p (head0 rest) = false := by
  induction t with
  | nil =>
    cases rest with
    | nil => simp [head0, hp]
    | cons c r => cases hc : p c <;> simp [head0, hc]
  | cons c r ih =>
    cases hc : p c
    · simp [hc]
    · simpa [List.takeWhile_cons, hc] using ih

end Stylesheet.Text
