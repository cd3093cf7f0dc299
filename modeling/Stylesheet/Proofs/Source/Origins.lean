import Stylesheet.Proofs.Source.Sequel

/-!
# Where normalized bytes come from

The normalizer writes a text and, if it is asked to, the offset of each byte in the source.
What it writes for a byte of the source is the byte itself or the three bytes of its private
character, each with the offset of that byte; and it goes over the source from left to
right. So the offsets never decrease, and they stay the same only within a private
character. An offset in the result is taken back to the source in order, as long as the
integers reach that far.

## Main definitions

* `Buffers` — the text written so far, and the offsets if they are kept
* `written` — what the normalizer writes, with or without offsets
* `Traced` — bytes that are written for the bytes of a source in order
* `PrivateAt` — a private character in the result, for a byte of the source

## Main results

* `written_eq` — the text is the same with and without offsets, and these are its origins
* `traced_normalize` — what is written is written for the bytes of the source in order
* `originOf_mono` — offsets are taken back in order
* `origins_faithful` — all of this, for the offsets of a normalized source
-/

namespace Stylesheet

open Text

/-! ### The two buffers -/

/-- What the normalizer has written: a text, and the offset of each of its bytes if these are
kept. -/
structure Buffers where
  text : Text := []
  offsets : List Nat := []

namespace Buffers

variable (track : Bool)

/-- A byte of the source at an offset is written as these bytes. -/
def write (o : Buffers) (bytes : Text) (i : Nat) : Buffers where
  text := o.text ++ bytes
  offsets := if track then o.offsets ++ List.replicate bytes.length i else o.offsets

/-- Bytes from an offset on are written as they are. -/
def copy (o : Buffers) : Nat → Text → Buffers
  | _, [] => o
  | i, c :: r => copy (o.write track [c] i) (i + 1) r

/-- A string from an offset on is written, an interpolation in one go; `skip` bytes of it are
still to pass. -/
def protect (o : Buffers) : (skip : Nat) → Nat → Text → Buffers
  | _, _, [] => o
  | 0, i, c :: r =>
    match interpolation? (c :: r) with
    | some n => protect (o.copy track i ((c :: r).take n)) (n - 1) (i + 1) r
    | none => protect (o.write track (protectByte c) i) 0 (i + 1) r
  | k + 1, i, _ :: r => protect o k (i + 1) r

/-- The source from an offset on is written, after the bytes `b`; `skip` bytes of a span are
still to pass. -/
def run (o : Buffers) : (skip : Nat) → Behind → Nat → Text → Buffers
  | _, _, _, [] => o
  | 0, b, i, c :: r =>
    let b' := (c, b.1, b.2.1)
    match spanAt b c r with
    | .string n => run (o.protect track 0 i ((c :: r).take n)) (n - 1) b' (i + 1) r
    | .comment n => run o (n - 1) b' (i + 1) r
    | .unterminated => o.copy track i (c :: r)
    | .byte => run (o.write track [c] i) 0 b' (i + 1) r
  | k + 1, b, i, c :: r => run o k (c, b.1, b.2.1) (i + 1) r

/-- The buffers with tracked bytes added to them. -/
def add (o : Buffers) (out : Tracked) : Buffers where
  text := o.text ++ out.map (·.1)
  offsets := if track then o.offsets ++ out.map (·.2) else o.offsets

variable {track}

@[simp] theorem add_nil (o : Buffers) : o.add track [] = o := by
  cases track <;> simp [add]

theorem add_append (o : Buffers) (a b : Tracked) :
    o.add track (a ++ b) = (o.add track a).add track b := by
  cases track <;> simp [add]

theorem write_eq_add (o : Buffers) (bytes : Text) (i : Nat) :
    o.write track bytes i = o.add track (bytes.map (·, i)) := by
  cases track <;> simp [write, add, Function.comp_def]

theorem copy_eq_add (o : Buffers) (i : Nat) (t : Text) :
    o.copy track i t = o.add track (keepFrom i t) := by
  induction t generalizing o i with
  | nil => simp [copy, keepFrom]
  | cons c r ih =>
    rw [copy, ih, write_eq_add, ← add_append]
    rfl

end Buffers

/-- The bytes of a string that are still to be kept are kept first. -/
theorem protectFrom_keep (k i : Nat) (t : Text) :
    protectFrom k i t = keepFrom i (t.take k) ++ protectFrom 0 (i + k) (t.drop k) := by
  induction t generalizing k i with
  | nil => cases k <;> rfl
  | cons c r ih =>
    cases k with
    | zero => rfl
    | succ k =>
      rw [protectFrom, ih, List.take_succ_cons, List.drop_succ_cons, keepFrom, List.cons_append,
        show i + 1 + k = i + (k + 1) by omega]

theorem interpolation?_pos {t : Text} {n : Nat} (h : interpolation? t = some n) : 0 < n := by
  unfold interpolation? at h
  split_ifs at h
  obtain ⟨m, -, rfl⟩ := Option.map_eq_some_iff.mp h
  exact Nat.succ_pos m

/-- A string with an interpolation at its start is that, and the rest of the string. -/
theorem protectFrom_interpolation {t : Text} {n : Nat} (h : interpolation? t = some n) (i : Nat) :
    protectFrom 0 i t = keepFrom i (t.take n) ++ protectFrom 0 (i + n) (t.drop n) := by
  obtain ⟨m, rfl⟩ := Nat.exists_eq_add_one.mpr (interpolation?_pos h)
  cases t with
  | nil => rfl
  | cons c r =>
    rw [protectFrom, h]
    dsimp only
    rw [Nat.add_sub_cancel, ← protectFrom_keep]
    rfl

namespace Buffers

variable {track : Bool}

/-- A string is written as it is protected. -/
theorem protect_eq_add (o : Buffers) (k i : Nat) (t : Text) :
    o.protect track k i t = o.add track (protectFrom 0 (i + k) (t.drop k)) := by
  -- byte by byte, with what is passed over counted down
  induction t generalizing o k i with
  | nil => cases k <;> simp [protect, protectFrom]
  | cons c r ih =>
    cases k with
    | succ k =>
      rw [protect, ih, List.drop_succ_cons, show i + 1 + k = i + (k + 1) by omega]
    | zero =>
      change _ = o.add track (protectFrom 0 i (c :: r))
      rw [protect]
      cases h : interpolation? (c :: r) with
      | some n =>
        -- all of it is copied at its first byte, and then passed over
        obtain ⟨m, rfl⟩ := Nat.exists_eq_add_one.mpr (interpolation?_pos h)
        rw [protectFrom_interpolation h, add_append, ← copy_eq_add]
        dsimp only
        rw [ih, Nat.add_sub_cancel, List.drop_succ_cons, show i + 1 + m = i + (m + 1) by omega]
      | none =>
        dsimp only
        rw [ih, protectFrom, h, write_eq_add, ← add_append]
        rfl

/-- The normalizer writes the bytes that it tracks. -/
theorem run_eq_add (o : Buffers) (k : Nat) (b : Behind) (i : Nat) (t : Text) :
    o.run track k b i t = o.add track (normalizeFrom k b i t) := by
  induction t generalizing o k b i with
  | nil => cases k <;> simp [run, normalizeFrom]
  | cons c r ih =>
    cases k with
    | succ k => exact ih o k _ (i + 1)
    | zero =>
      rw [run, normalizeFrom]
      cases spanAt b c r with
      | string n =>
        dsimp only
        rw [ih, protect_eq_add, ← add_append]
        rfl
      | comment n => exact ih o (n - 1) _ (i + 1)
      | unterminated => exact copy_eq_add o i (c :: r)
      | byte =>
        dsimp only
        rw [ih, write_eq_add, ← add_append]
        rfl

end Buffers

/-- What the normalizer writes for a source, with or without offsets. -/
def written (track : Bool) (t : Text) : Buffers := Buffers.run track {} 0 (0, 0, 0) 0 t

/-- The text is the same with and without offsets. -/
theorem written_eq (track : Bool) (t : Text) :
    written track t = ⟨normalize t, if track then origins t else []⟩ := by
  rw [written, Buffers.run_eq_add]
  cases track <;> rfl

/-! ### What is written for a source -/

/-- Bytes written for the bytes of a source at offsets from `n` up to `m`, in order: each for
itself, or as its private character. -/
inductive Traced (t : Text) (m : Nat) : (n : Nat) → Tracked → Prop
  | nil {n : Nat} (hle : n ≤ m) : Traced t m n []
  | kept {n i : Nat} {c : UInt8} {out : Tracked} (hle : n ≤ i) (hc : t[i]? = some c)
      (hout : Traced t m (i + 1) out) : Traced t m n ((c, i) :: out)
  | guarded {n i : Nat} {c b : UInt8} {out : Tracked} (hle : n ≤ i) (hc : t[i]? = some c)
      (hb : privateByte? c = some b) (hout : Traced t m (i + 1) out) :
    Traced t m n ((0xEE, i) :: (0x80, i) :: (b, i) :: out)

namespace Traced

variable {t : Text} {n m k : Nat} {out : Tracked}

theorem le (h : Traced t m n out) : n ≤ m := by
  induction h with
  | nil hle => exact hle
  | kept hle _ _ ih => omega
  | guarded hle _ _ _ ih => omega

theorem mono (h : Traced t m n out) (hle : k ≤ n) : Traced t m k out := by
  cases h with
  | nil h => exact .nil (hle.trans h)
  | kept h hc hout => exact .kept (hle.trans h) hc hout
  | guarded h hc hb hout => exact .guarded (hle.trans h) hc hb hout

/-- What is written for one part of a source and what is written for the next. -/
theorem append {more : Tracked} (h : Traced t m n out) (hmore : Traced t k m more) :
    Traced t k n (out ++ more) := by
  induction h with
  | nil hle => exact hmore.mono hle
  | kept hle hc _ ih => exact .kept hle hc ih
  | guarded hle hc hb _ ih => exact .guarded hle hc hb ih

/-- The offsets are those of bytes of the source. -/
theorem bounds (h : Traced t m n out) : ∀ e ∈ out, n ≤ e.2 ∧ e.2 < t.length := by
  induction h with
  | nil => exact List.forall_mem_nil _
  | kept hle hc _ ih =>
    have hlt := (List.getElem?_eq_some_iff.mp hc).1
    refine List.forall_mem_cons.mpr ⟨⟨hle, hlt⟩, fun e he => ?_⟩
    have := ih e he
    omega
  | guarded hle hc _ _ ih =>
    have hlt := (List.getElem?_eq_some_iff.mp hc).1
    simp only [List.forall_mem_cons]
    refine ⟨⟨hle, hlt⟩, ⟨hle, hlt⟩, ⟨hle, hlt⟩, fun e he => ?_⟩
    have := ih e he
    omega

/-- The offsets do not decrease. -/
theorem pairwise_le (h : Traced t m n out) : out.Pairwise fun d e => d.2 ≤ e.2 := by
  induction h with
  | nil => exact .nil
  | kept _ _ hout ih =>
    refine .cons (fun e he => ?_) ih
    have := (hout.bounds e he).1
    omega
  | @guarded n i c b out _ _ _ hout ih =>
    have hlater : ∀ e ∈ out, i ≤ e.2 := fun e he => Nat.le_of_succ_le (hout.bounds e he).1
    simp only [List.pairwise_cons, List.forall_mem_cons, Nat.le_refl, true_and]
    exact ⟨hlater, hlater, hlater, ih⟩

end Traced

theorem traced_keepFrom {t before u rest : Text} (ht : t = before ++ u ++ rest) :
    Traced t (before.length + u.length) before.length (keepFrom before.length u) := by
  induction u generalizing before with
  | nil => exact .nil (Nat.le_refl _)
  | cons c r ih =>
    have hc : t[before.length]? = some c := by simp [ht]
    have hnext := ih (show t = before ++ [c] ++ r ++ rest by simp [ht])
    rw [List.length_append, List.length_singleton, Nat.add_assoc, Nat.add_comm 1] at hnext
    exact .kept (Nat.le_refl _) hc hnext

/-- What is written for one byte of a string. -/
theorem traced_protectByte {t : Text} {i m : Nat} {c : UInt8} {out : Tracked}
    (hc : t[i]? = some c) (hout : Traced t m (i + 1) out) :
    Traced t m i ((protectByte c).map (·, i) ++ out) := by
  unfold protectByte
  split
  · next b hb => exact .guarded (Nat.le_refl i) hc hb hout
  · exact .kept (Nat.le_refl i) hc hout

theorem traced_protectFrom {t before w rest : Text} (ht : t = before ++ w ++ rest) (k : Nat) :
    Traced t (before.length + w.length) before.length (protectFrom k before.length w) := by
  induction w generalizing before k with
  | nil => cases k <;> exact .nil (Nat.le_refl _)
  | cons c r ih =>
    have hc : t[before.length]? = some c := by simp [ht]
    have hnext (k : Nat) := ih (show t = before ++ [c] ++ r ++ rest by simp [ht]) k
    simp only [List.length_append, List.length_singleton, Nat.add_assoc, Nat.add_comm 1] at hnext
    cases k with
    | succ k => exact .kept (Nat.le_refl _) hc (hnext k)
    | zero =>
      rw [protectFrom]
      cases interpolation? (c :: r) with
      | some n => exact .kept (Nat.le_refl _) hc (hnext (n - 1))
      | none => exact traced_protectByte hc (hnext 0)

/-- By induction on what is left of the source. What a span is written as is traced to the
span, and what follows to what follows it. -/
theorem traced_normalizeFrom {t before rest : Text} (ht : t = before ++ rest) {k : Nat}
    (hk : k ≤ rest.length) (b : Behind) :
    Traced t t.length (before.length + k) (normalizeFrom k b before.length rest) := by
  induction rest generalizing before k b with
  | nil =>
    obtain rfl := Nat.le_zero.mp hk
    exact .nil (by simp [ht])
  | cons c r ih =>
    have hc : t[before.length]? = some c := by simp [ht]
    have hnext {k : Nat} (hk : k ≤ r.length) (b : Behind) :=
      ih (show t = before ++ [c] ++ r by simp [ht]) hk b
    simp only [List.length_append, List.length_singleton, Nat.add_assoc, Nat.add_comm 1] at hnext
    cases k with
    | succ k => exact hnext (Nat.le_of_succ_le_succ hk) _
    | zero =>
      rw [normalizeFrom]
      cases hspan : spanAt b c r with
      | unterminated =>
        have hkept := traced_keepFrom (show t = before ++ c :: r ++ [] by simp [ht])
        rw [ht, List.length_append]
        exact ht ▸ hkept
      | byte => exact .kept (Nat.le_refl _) hc (hnext (Nat.zero_le _) _)
      | comment n =>
        -- nothing is written for a comment
        have hwidth := spanAt_width b (.inr hspan)
        exact (hnext (by omega) _).mono (by omega)
      | string n =>
        have hwidth := spanAt_width b (.inl hspan)
        -- what is written for the string comes from before the place where it ends
        have hsplit : t = before ++ (c :: r).take n ++ (c :: r).drop n := by
          rw [ht, List.append_assoc, List.take_append_drop]
        have hstring := traced_protectFrom hsplit 0
        refine hstring.append ?_
        rw [List.length_take, List.length_cons, Nat.min_eq_left hwidth]
        exact (hnext (by omega) _).mono (by omega)

/-- What is written for a source is written for its bytes in order. -/
theorem traced_normalize (t : Text) : Traced t t.length 0 (normalizeTracked t) :=
  traced_normalizeFrom (show t = [] ++ t from rfl) (Nat.zero_le _) (0, 0, 0)

/-! ### Private characters in the result -/

/-- From offset `k` of the result on stands the private character of a byte of the source,
all of it with the offset of that byte. -/
def PrivateAt (t : Text) (out : Tracked) (k : Nat) : Prop :=
  ∃ i c b, t[i]? = some c ∧ privateByte? c = some b ∧
    [(0xEE, i), (0x80, i), (b, i)] <+: out.drop k

/-- What is written before a private character makes no difference to what is in it. -/
theorem exists_privateAt_append {t : Text} {out : Tracked} {i j : Nat} (w : Tracked)
    (h : ∃ k, k ≤ i ∧ j < k + 3 ∧ PrivateAt t out k) :
    ∃ k, k ≤ i + w.length ∧ j + w.length < k + 3 ∧ PrivateAt t (w ++ out) k := by
  obtain ⟨k, hki, hjk, hk⟩ := h
  refine ⟨k + w.length, by omega, by omega, ?_⟩
  rwa [PrivateAt, Nat.add_comm, List.drop_length_add_append]

namespace Traced

variable {t : Text} {n m : Nat} {out : Tracked}

/-- Of two bytes, the second comes from later in the source, or both are of one private
character. -/
theorem lt_or_privateAt (h : Traced t m n out) {i j : Nat} (hij : i < j) {d e : UInt8 × Nat}
    (hd : out[i]? = some d) (he : out[j]? = some e) :
    d.2 < e.2 ∨ ∃ k, k ≤ i ∧ j < k + 3 ∧ PrivateAt t out k := by
  induction h generalizing i j with
  | nil => simp at hd
  | @kept n i' c out _ _ hout ih =>
    obtain ⟨j, rfl⟩ := Nat.exists_eq_add_one.mpr (Nat.zero_lt_of_lt hij)
    rw [List.getElem?_cons_succ] at he
    cases i with
    | zero =>
      obtain rfl := Option.some.inj hd
      exact .inl (hout.bounds e (List.mem_of_getElem? he)).1
    | succ i =>
      exact (ih (Nat.lt_of_succ_lt_succ hij) hd he).imp_right (exists_privateAt_append [_])
  | @guarded n i' c b out _ hc hb hout ih =>
    -- the three bytes of a private character come from one place
    by_cases hj : j < 3
    · exact .inr ⟨0, Nat.zero_le i, hj, i', c, b, hc, hb, by simp⟩
    obtain ⟨j, rfl⟩ := Nat.exists_eq_add_of_le' (Nat.le_of_not_lt hj)
    change out[j]? = some e at he
    by_cases hi : i < 3
    · -- the first is of the private character, and the second comes after it
      have hd' : d.2 = i' := by
        have hi' : i = 0 ∨ i = 1 ∨ i = 2 := by omega
        rcases hi' with rfl | rfl | rfl <;> obtain rfl := Option.some.inj hd <;> rfl
      rw [hd']
      exact .inl (hout.bounds e (List.mem_of_getElem? he)).1
    obtain ⟨i, rfl⟩ := Nat.exists_eq_add_of_le' (Nat.le_of_not_lt hi)
    exact (ih (Nat.lt_of_add_lt_add_right hij) hd he).imp_right (exists_privateAt_append [_, _, _])

/-- A byte is that of the source at its offset, or it is of a private character. -/
theorem eq_or_privateAt (h : Traced t m n out) {i : Nat} {d : UInt8 × Nat}
    (hd : out[i]? = some d) :
    t[d.2]? = some d.1 ∨ ∃ k, k ≤ i ∧ i < k + 3 ∧ PrivateAt t out k := by
  induction h generalizing i with
  | nil => simp at hd
  | kept _ hc _ ih =>
    cases i with
    | zero =>
      obtain rfl := Option.some.inj hd
      exact .inl hc
    | succ i =>
      exact (ih hd).imp_right (exists_privateAt_append [_])
  | @guarded n i' c b out _ hc hb _ ih =>
    by_cases hi : i < 3
    · exact .inr ⟨0, Nat.zero_le i, hi, i', c, b, hc, hb, by simp⟩
    obtain ⟨i, rfl⟩ := Nat.exists_eq_add_of_le' (Nat.le_of_not_lt hi)
    exact (ih hd).imp_right (exists_privateAt_append [_, _, _])

end Traced

/-! ### Back to the source -/

section Back

variable {offsets : List Nat} {i j : Int}

theorem originOf_neg (hi : i < 0) : originOf offsets i = i := if_pos hi

theorem originOf_lt {k : Nat} (hk : k < offsets.length) :
    originOf offsets k = (offsets[k] : Nat) := by
  rw [originOf, if_neg (Int.not_lt.mpr (Int.natCast_nonneg k)), Int.toNat_natCast,
    List.getElem?_eq_getElem hk]

theorem originOf_nil : originOf [] i = i := by
  rw [originOf]
  split_ifs
  · rfl
  · simp

/-- How far the offsets go on from the last one. -/
def InReach (offsets : List Nat) (i : Int) : Prop :=
  ∀ last ∈ offsets.getLast?, last + 1 + i - offsets.length < 2 ^ 63

/-- Past the end the offsets go on from the last one, as long as there are integers for
them. -/
theorem originOf_ge {last : Nat} (hlast : offsets.getLast? = some last)
    (hi : offsets.length ≤ i) (hreach : InReach offsets i) :
    originOf offsets i = last + 1 + i - offsets.length := by
  obtain ⟨k, rfl⟩ := Int.eq_ofNat_of_zero_le (Int.le_trans (Int.natCast_nonneg _) hi)
  have hk : offsets.length ≤ k := Int.ofNat_le.mp hi
  rw [originOf, if_neg (Int.not_lt.mpr (Int.natCast_nonneg k)), Int.toNat_natCast,
    List.getElem?_eq_none hk, hlast]
  have hless := hreach last hlast
  have hsize : (UInt64.size : Int) = 2 ^ 64 := by decide
  exact Int.bmod_eq_of_le (by omega) (by omega)

theorem InReach.mono (h : InReach offsets j) (hij : i ≤ j) : InReach offsets i := by
  intro last hlast
  have := h last hlast
  omega

theorem getElem_le_getLast (hoffsets : offsets.Pairwise (· ≤ ·)) {k last : Nat}
    (hk : k < offsets.length) (hlast : offsets.getLast? = some last) : offsets[k] ≤ last := by
  obtain ⟨front, rfl⟩ := List.getLast?_eq_some_iff.mp hlast
  rcases List.mem_append.mp (List.getElem_mem hk) with hmem | hmem
  · exact (List.pairwise_append.mp hoffsets).2.2 _ hmem last List.mem_cons_self
  · exact Nat.le_of_eq (List.mem_singleton.mp hmem)

/-- Offsets are taken back in order: those before the result, those in it and those past its
end, and these three one after the other. -/
theorem originOf_mono (hoffsets : offsets.Pairwise (· ≤ ·)) (hij : i ≤ j)
    (hreach : InReach offsets j) : originOf offsets i ≤ originOf offsets j := by
  cases hlast : offsets.getLast? with
  | none =>
    obtain rfl := List.getLast?_eq_none_iff.mp hlast
    rwa [originOf_nil, originOf_nil]
  | some last =>
    have hpast {k : Int} (hk : offsets.length ≤ k) (hkj : k ≤ j) :=
      originOf_ge hlast hk (hreach.mono hkj)
    -- before the start offsets count as they are, and none in the result is less
    by_cases hi : i < 0
    · rw [originOf_neg hi]
      by_cases hj : j < 0
      · rwa [originOf_neg hj]
      obtain ⟨j, rfl⟩ := Int.eq_ofNat_of_zero_le (Int.not_lt.mp hj)
      by_cases hend : j < offsets.length
      · rw [originOf_lt hend]
        omega
      · rw [hpast (by omega) (Int.le_refl _)]
        omega
    -- neither is before the start: what is in the result is ordered, and past its end they
    -- go on from the last, which is the greatest
    · obtain ⟨i, rfl⟩ := Int.eq_ofNat_of_zero_le (Int.not_lt.mp hi)
      obtain ⟨j, rfl⟩ := Int.eq_ofNat_of_zero_le (Int.le_trans (Int.not_lt.mp hi) hij)
      have hij' : i ≤ j := Int.ofNat_le.mp hij
      by_cases hend : j < offsets.length
      · rw [originOf_lt (Nat.lt_of_le_of_lt hij' hend), originOf_lt hend]
        exact Int.ofNat_le.mpr (hoffsets.rel_get_of_le hij')
      by_cases hstart : i < offsets.length
      · have hle := getElem_le_getLast hoffsets hstart hlast
        rw [originOf_lt hstart, hpast (by omega) (Int.le_refl _)]
        omega
      · rw [hpast (by omega) hij, hpast (by omega) (Int.le_refl _)]
        omega

end Back

/-- The offsets of a normalized source. The text is the same whether offsets are kept or not,
and each of its bytes has one. They are offsets in the source and do not decrease; they
increase but for the three bytes of one private character. Each byte is the one at its
offset, or one of the private character for the byte there. Offsets are taken back in order,
those before the start and past the end of the result included, as far as the integers
reach. -/
theorem origins_faithful (t : Text) :
    (written true t).text = normalize t ∧ (written false t).text = normalize t ∧
      (written true t).offsets = origins t ∧ (origins t).length = (normalize t).length ∧
      (∀ o ∈ origins t, o < t.length) ∧ (origins t).Pairwise (· ≤ ·) ∧
      (∀ (i j o p : Nat), i < j → (origins t)[i]? = some o → (origins t)[j]? = some p →
        o < p ∨ ∃ k, k ≤ i ∧ j < k + 3 ∧ PrivateAt t (normalizeTracked t) k) ∧
      (∀ (i o : Nat) (x : UInt8), (normalize t)[i]? = some x → (origins t)[i]? = some o →
        t[o]? = some x ∨ ∃ k, k ≤ i ∧ i < k + 3 ∧ PrivateAt t (normalizeTracked t) k) ∧
      ∀ i j : Int, i ≤ j → InReach (origins t) j →
        originOf (origins t) i ≤ originOf (origins t) j := by
  have htraced := traced_normalize t
  have hsorted : (origins t).Pairwise (· ≤ ·) := List.pairwise_map.mpr htraced.pairwise_le
  refine ⟨by rw [written_eq], by rw [written_eq], by rw [written_eq]; rfl, ?_, ?_, hsorted,
    ?_, ?_, fun i j hij hreach => originOf_mono hsorted hij hreach⟩
  · rw [origins, normalize, List.length_map, List.length_map]
  · intro o ho
    obtain ⟨e, he, rfl⟩ := List.mem_map.mp ho
    exact (htraced.bounds e he).2
  · intro i j o p hij ho hp
    rw [origins, List.getElem?_map] at ho hp
    obtain ⟨d, hd, rfl⟩ := Option.map_eq_some_iff.mp ho
    obtain ⟨e, he, rfl⟩ := Option.map_eq_some_iff.mp hp
    exact htraced.lt_or_privateAt hij hd he
  · intro i o x hx ho
    rw [normalize, List.getElem?_map] at hx
    rw [origins, List.getElem?_map] at ho
    obtain ⟨d, hd, rfl⟩ := Option.map_eq_some_iff.mp hx
    obtain ⟨e, he, rfl⟩ := Option.map_eq_some_iff.mp ho
    obtain rfl := Option.some.inj (hd.symm.trans he)
    exact htraced.eq_or_privateAt hd

/-- A declaration between two comments, with a semicolon in a string. -/
def commentedSource : Text := of "/* x */a: \"b;c\"; // d\n\x7d"

/-- Its offsets are taken back in order from before its start to past its end. -/
theorem commentedSource_origins :
    InReach (origins commentedSource) 100 ∧
      originOf (origins commentedSource) (-5) ≤ originOf (origins commentedSource) 100 := by
  have hreach : InReach (origins commentedSource) 100 := by
    unfold InReach
    decide +kernel
  obtain ⟨-, -, -, -, -, -, -, -, hmono⟩ := origins_faithful commentedSource
  exact ⟨hreach, hmono (-5) 100 (by decide) hreach⟩

/-- The largest integer of 64 bits is taken back to a negative one, since the comment in front
puts the offset in the source past the end of the integers. -/
theorem largestOffset_not_in_order :
    (0 : Int) ≤ 2 ^ 63 - 1 ∧
      ¬originOf (origins (of "/**/a")) 0 ≤ originOf (origins (of "/**/a")) (2 ^ 63 - 1) := by
  decide +kernel

end Stylesheet
