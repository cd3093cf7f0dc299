import Mathlib
import Stylesheet.Double.Binary

/-!
# Integers as doubles

The double of an integer is a double nearest to it, and it is the integer itself up to
`2 ^ 53` in magnitude, where doubles start to be further apart than one. Rounding goes the
other way, from a double to the integer nearest to its value.

## Main definitions

* `Double.value` — the exact value of a double
* `nearestInt` — the integer nearest to a rational

## Main results

* `Double.ofFloat_assemble` — what is assembled is decoded again
* `Double.value_ofInt` — small integers are doubles
* `Double.nearest_ofInt` — no double is nearer to an integer than the double of it
* `Double.toWord_round` — the integer that a double is rounded to
-/

namespace Stylesheet

/-- The exact value of a binary fraction. -/
def Binary.value (b : Binary) : ℚ :=
  (if b.negative then -1 else 1) * (b.mantissa * (2 : ℚ) ^ b.exponent)

/-- The integer nearest to a rational, a half going away from zero. -/
def nearestInt (q : ℚ) : ℤ := if q < 0 then -round (-q) else round q

@[simp] theorem nearestInt_intCast (i : ℤ) : nearestInt i = i := by
  unfold nearestInt
  split_ifs
  · rw [← Int.cast_neg, round_intCast, neg_neg]
  · exact round_intCast i

theorem round_div (num : ℕ) {den : ℕ} (hden : 0 < den) :
    round (num / den : ℚ) = ((2 * num + den) / (2 * den) : ℕ) := by
  have hsum : (num / den : ℚ) + 1 / 2 = ((2 * num + den : ℕ) : ℤ) / (2 * den : ℕ) := by
    push_cast
    field_simp
  rw [round_eq, hsum, Rat.floor_intCast_div_natCast, Int.natCast_div]

theorem nearestInt_div (negative : Bool) (num : ℕ) {den : ℕ} (hden : 0 < den) :
    nearestInt ((if negative then -1 else 1) * (num / den : ℚ)) =
      (if negative then -1 else 1) * ((2 * num + den) / (2 * den) : ℕ) := by
  have hquotient : (0 : ℚ) ≤ num / den := by positivity
  rw [← round_div num hden]
  unfold nearestInt
  cases negative with
  | false => simp [not_lt_of_ge hquotient]
  | true =>
    by_cases hzero : (num / den : ℚ) = 0
    · simp [hzero]
    · have hneg : -(num / den : ℚ) < 0 := by simpa using lt_of_le_of_ne hquotient (Ne.symm hzero)
      simp [hneg]

theorem abs_sign_mul (negative : Bool) (q : ℚ) : |(if negative then -1 else 1) * q| = |q| := by
  cases negative <;> simp

/-! ### Binary fractions -/

namespace Binary

variable {b : Binary} {i : ℤ}

/-- From the exponent `0` up the value is whole. -/
theorem value_of_nonneg (h : 0 ≤ b.exponent) :
    b.value = (if b.negative then -1 else 1) * ((b.mantissa * 2 ^ b.exponent.toNat : ℕ) : ℚ) := by
  have hpower : (2 : ℚ) ^ b.exponent = 2 ^ b.exponent.toNat := by
    rw [← zpow_natCast, Int.toNat_of_nonneg h]
  rw [value, hpower]
  push_cast
  rfl

/-- Below the exponent `0` the value is a quotient. -/
theorem value_of_neg (h : b.exponent < 0) :
    b.value = (if b.negative then -1 else 1) *
      (b.mantissa / (2 ^ (-b.exponent).toNat : ℕ) : ℚ) := by
  have hpower : (2 : ℚ) ^ b.exponent = ((2 ^ (-b.exponent).toNat : ℕ) : ℚ)⁻¹ := by
    rw [Nat.cast_pow, Nat.cast_ofNat, ← zpow_natCast, Int.toNat_of_nonneg (by omega), zpow_neg,
      inv_inv]
  rw [value, hpower, div_eq_mul_inv]

/-- A whole number has no other integer part. -/
theorem truncate_of_value (h : b.value = i) : b.truncate = i := by
  have hsign (n : ℕ) (hn : (if b.negative then -1 else 1) * (n : ℚ) = i) :
      (if b.negative then -(n : ℤ) else n) = i := by
    cases hneg : b.negative <;> rw [hneg] at hn
    · exact_mod_cast (one_mul (n : ℚ)).symm.trans hn
    · exact_mod_cast (neg_one_mul (n : ℚ)).symm.trans hn
  unfold truncate
  refine hsign _ ?_
  by_cases hexponent : 0 ≤ b.exponent
  · rw [if_pos hexponent, ← h, value_of_nonneg hexponent, Nat.pow_eq]
  · rw [if_neg hexponent]
    rw [value_of_neg (lt_of_not_ge hexponent)] at h
    -- The quotient is an integer, so the denominator divides the mantissa.
    have hwhole : (b.mantissa / (2 ^ (-b.exponent).toNat : ℕ) : ℚ) = (i.natAbs : ℕ) := by
      have hquotient : (0 : ℚ) ≤ b.mantissa / (2 ^ (-b.exponent).toNat : ℕ) := by positivity
      rw [Nat.cast_natAbs, Int.cast_abs, ← h, abs_sign_mul, abs_of_nonneg hquotient]
    have hmantissa : b.mantissa = i.natAbs * 2 ^ (-b.exponent).toNat := by
      rw [div_eq_iff (by positivity)] at hwhole
      exact_mod_cast hwhole
    rw [← h, hwhole, Nat.pow_eq, hmantissa, Nat.mul_div_cancel _ (Nat.two_pow_pos _)]

end Binary

namespace Double

/-- The exact value of a finite double. -/
def value (f : Float) : ℚ := (Binary.ofFloat f).value

/-! ### Bits -/

open Float.Model in
/-- Bits whose exponent is not the greatest are those of a double. -/
theorem toBits_ofBits {b : UInt64} (h : b.toNat / 2 ^ 52 % 2048 ≠ 2047) :
    (Float.ofBits b).toBits = b := by
  have hvalid : Format.binary64.Valid b.toBitVec := by
    refine ⟨fun hexponent => absurd ?_ h⟩
    have hfield := congrArg BitVec.toNat hexponent
    simpa [UnpackedFloat.unpackExponent, BitVec.extractLsb, BitVec.extractLsb'_toNat,
      Nat.shiftRight_eq_div_pow] using hfield
  have hpack := UnpackedFloat.pack_unpack_of_valid hvalid
  unfold Float.toBits Float.ofBits Float.Model.ofBits Float.Model.pack
  simp [hpack]

/-- The three fields of the bits are told apart again. -/
theorem ofFloat_ofBits (negative : Bool) {field fraction : Nat} (hfield : field < 2047)
    (hfraction : fraction < 2 ^ 52) :
    Binary.ofFloat (Float.ofBits (UInt64.ofNat
        ((if negative then Nat.pow 2 63 else 0) + (field * Nat.pow 2 52 + fraction)))) =
      { negative
        mantissa := if field = 0 then fraction else Nat.pow 2 52 + fraction
        exponent := if field = 0 then -1074 else (field : Int) - 1075 } := by
  have hsign : (if negative then Nat.pow 2 63 else 0) = (if negative then 1 else 0) * 2 ^ 63 := by
    cases negative <;> rfl
  have hbit : (if negative then 1 else 0) ≤ 1 := by cases negative <;> decide
  generalize hs : (if negative then 1 else 0) = s at hsign hbit
  rw [hsign, Nat.pow_eq]
  -- The three fields do not overlap, so each is read back by a division.
  have hbits : (UInt64.ofNat (s * 2 ^ 63 + (field * 2 ^ 52 + fraction))).toNat =
      s * 2 ^ 63 + (field * 2 ^ 52 + fraction) := by
    rw [UInt64.toNat_ofNat']
    exact Nat.mod_eq_of_lt (by omega)
  have hexponent : (s * 2 ^ 63 + (field * 2 ^ 52 + fraction)) / 2 ^ 52 % 2048 = field := by omega
  have htop : (s * 2 ^ 63 + (field * 2 ^ 52 + fraction)) / 2 ^ 63 = s := by omega
  have hlow : (s * 2 ^ 63 + (field * 2 ^ 52 + fraction)) % 2 ^ 52 = fraction := by omega
  have hback := toBits_ofBits (b := UInt64.ofNat (s * 2 ^ 63 + (field * 2 ^ 52 + fraction)))
    (by rw [hbits, hexponent]; omega)
  have hnegative : decide (s = 1) = negative := by
    subst hs
    cases negative <;> rfl
  unfold Binary.ofFloat
  simp only [hback, hbits, Nat.pow_eq, hexponent, htop, hlow, hnegative]

/-- What is assembled from a normal or a least mantissa is decoded again. -/
theorem ofFloat_assemble {negative : Bool} {m : Nat} {e : Int} (hm : m < 2 ^ 53)
    (hnormal : 2 ^ 52 ≤ m ∨ e = -1074) (hlow : -1074 ≤ e) (hhigh : e ≤ 971) :
    Binary.ofFloat (assemble negative m e) = ⟨negative, m, e⟩ := by
  have hcarry : m ≠ Nat.pow 2 53 := Nat.ne_of_lt hm
  unfold assemble
  simp only [if_neg hcarry]
  -- Below the least normal mantissa the field is 0, above it the leading bit is not written.
  by_cases hsmall : m < 2 ^ 52
  · obtain rfl : e = -1074 := hnormal.resolve_left (Nat.not_le_of_lt hsmall)
    have h := ofFloat_ofBits negative (show 0 < 2047 by decide) hsmall
    rw [if_pos rfl, if_pos rfl, Nat.zero_mul, Nat.zero_add] at h
    rw [if_pos (show m < Nat.pow 2 52 from hsmall), h]
  · have hfield : ¬ (e + 1075).toNat ≥ 2047 := by omega
    have hmantissa : Nat.pow 2 52 + (m - Nat.pow 2 52) = m := by
      rw [Nat.pow_eq]
      omega
    have hexponent : ((e + 1075).toNat : ℤ) - 1075 = e := by omega
    have hfraction : m - Nat.pow 2 52 < 2 ^ 52 := by
      rw [Nat.pow_eq]
      omega
    have h := ofFloat_ofBits negative (Nat.lt_of_not_le hfield) hfraction
    rw [if_neg (show ¬ m < Nat.pow 2 52 from hsmall), if_neg hfield, h, if_neg (by omega),
      if_neg (by omega), hmantissa, hexponent]

/-- The value of what is assembled, with one place more for a mantissa rounded up. -/
theorem value_assemble {negative : Bool} {m : Nat} {e : Int} (hm : m ≤ 2 ^ 53)
    (hnormal : 2 ^ 52 ≤ m ∨ e = -1074) (hlow : -1074 ≤ e) (hhigh : e ≤ 970) :
    value (assemble negative m e) = (if negative then -1 else 1) * (m * (2 : ℚ) ^ e) := by
  obtain hlt | rfl := Nat.lt_or_eq_of_le hm
  · rw [value, ofFloat_assemble hlt hnormal hlow (by omega), Binary.value]
  · have hcarry : assemble negative (2 ^ 53) e = assemble negative (2 ^ 52) (e + 1) := by
      unfold assemble
      simp
    rw [hcarry, value, ofFloat_assemble (by decide) (.inl (Nat.le_refl _)) (by omega) (by omega),
      Binary.value, zpow_add₀ (by norm_num)]
    push_cast
    ring

theorem mantissa_lt (f : Float) : (Binary.ofFloat f).mantissa < 2 ^ 53 := by
  unfold Binary.ofFloat
  simp only [Nat.pow_eq]
  split <;> omega

/-! ### Rounding -/

/-- The rounded quotient is off by half a unit at most. -/
theorem two_mul_abs_roundQuotient_le (num : Nat) {den : Nat} (hden : 0 < den) :
    2 * |(roundQuotient num den : ℤ) * den - num| ≤ den := by
  have hdiv := Nat.div_add_mod num den
  have hmod := Nat.mod_lt num hden
  have hnum : (num : ℤ) = den * (num / den : ℕ) + (num % den : ℕ) := by exact_mod_cast hdiv.symm
  unfold roundQuotient
  dsimp only
  generalize num / den = q at *
  generalize num % den = r at *
  -- Rounded up it is off by `den - r`, rounded down by `r`, and by half of `den` at most.
  split
  · rename_i hup
    simp only [Bool.or_eq_true, decide_eq_true_eq, Bool.and_eq_true] at hup
    have hoff : ((q + 1 : ℕ) : ℤ) * den - num = den - r := by
      rw [hnum]
      push_cast
      ring
    rw [hoff, abs_of_nonneg (by omega)]
    omega
  · rename_i hdown
    simp only [Bool.or_eq_true, decide_eq_true_eq, Bool.and_eq_true, not_or] at hdown
    have hoff : ((q : ℕ) : ℤ) * den - num = -r := by
      rw [hnum]
      ring
    rw [hoff, abs_neg, abs_of_nonneg (by omega)]
    omega

/-- No multiple of the denominator is nearer to the numerator than the rounded quotient makes it. -/
theorem abs_roundQuotient_le (num : Nat) {den : Nat} (hden : 0 < den) (k : ℤ) :
    |(roundQuotient num den : ℤ) * den - num| ≤ |k * den - num| := by
  have hhalf := two_mul_abs_roundQuotient_le num hden
  by_cases hk : k = roundQuotient num den
  · rw [hk]
  · -- Two multiples are a whole denominator apart, and the nearer one is within half of it.
    have hgap : (1 : ℤ) ≤ |k - roundQuotient num den| := Int.one_le_abs (sub_ne_zero.mpr hk)
    have hapart : (den : ℤ) ≤ |k * den - roundQuotient num den * den| := by
      rw [← sub_mul, abs_mul, Nat.abs_cast]
      exact le_mul_of_one_le_left (by omega) hgap
    have htriangle := abs_sub_le (k * den : ℤ) num (roundQuotient num den * den)
    rw [abs_sub_comm (num : ℤ)] at htriangle
    omega

/-- The rounded quotient of numbers with a quotient between two bounds is between them too. -/
theorem roundQuotient_mem {num den lo hi : Nat} (hden : 0 < den) (hlo : lo * den ≤ num)
    (hhi : num < hi * den) : lo ≤ roundQuotient num den ∧ roundQuotient num den ≤ hi := by
  have hq : num / den < hi := (Nat.div_lt_iff_lt_mul hden).mpr hhi
  have hq' : lo ≤ num / den := (Nat.le_div_iff_mul_le hden).mpr hlo
  unfold roundQuotient
  dsimp only
  split <;> omega

/-! ### Integers -/

theorem binaryLog_one {n : Nat} (hn : n ≠ 0) : binaryLog n 1 = Nat.log2 n := by
  have hlog : Nat.log2 1 = 0 := rfl
  have hle : ¬ n < 2 ^ Nat.log2 n := Nat.not_lt_of_le (Nat.log2_self_le hn)
  unfold binaryLog scaled
  simp [hlog, hle]

variable {i : ℤ} {n : Nat} {negative : Bool}

/-- The double of an integer of 53 bits or less, which needs no rounding. -/
theorem value_ofRatio_small (hn : n ≠ 0) (hlog : Nat.log2 n ≤ 52) :
    value (ofRatio negative n 1) = (if negative then -1 else 1) * (n : ℚ) := by
  have hunit : max (binaryLog n 1 - 52) (-1074) = -((52 - Nat.log2 n : ℕ) : ℤ) := by
    rw [binaryLog_one hn]
    omega
  have hscaled : scaled n 1 (-((52 - Nat.log2 n : ℕ) : ℤ)) = (n * 2 ^ (52 - Nat.log2 n), 1) := by
    unfold scaled
    split
    · have hzero : 52 - Nat.log2 n = 0 := by omega
      simp [hzero]
    · simp
  -- An integer that is short is moved up to a full mantissa, and nothing is rounded.
  have hround : roundQuotient (n * 2 ^ (52 - Nat.log2 n)) 1 = n * 2 ^ (52 - Nat.log2 n) := by
    simp [roundQuotient, Nat.mod_one]
  have hlow : 2 ^ 52 ≤ n * 2 ^ (52 - Nat.log2 n) := by
    calc 2 ^ 52 = 2 ^ Nat.log2 n * 2 ^ (52 - Nat.log2 n) := by
          rw [← Nat.pow_add, Nat.add_sub_cancel' hlog]
      _ ≤ n * 2 ^ (52 - Nat.log2 n) := Nat.mul_le_mul_right _ (Nat.log2_self_le hn)
  have hhigh : n * 2 ^ (52 - Nat.log2 n) ≤ 2 ^ 53 := by
    calc n * 2 ^ (52 - Nat.log2 n) ≤ 2 ^ (Nat.log2 n + 1) * 2 ^ (52 - Nat.log2 n) :=
          Nat.mul_le_mul_right _ (Nat.le_of_lt Nat.lt_log2_self)
      _ = 2 ^ 53 := by rw [← Nat.pow_add]; congr 1; omega
  rw [ofRatio, if_neg hn]
  simp only [hunit, hscaled, hround]
  rw [value_assemble hhigh (.inl hlow) (by omega) (by omega), zpow_neg, zpow_natCast]
  push_cast
  field_simp

/-- The double of a longer integer, which is rounded to 53 bits. -/
theorem value_ofRatio_large (hn : n < 2 ^ 64) (hlog : 52 ≤ Nat.log2 n) :
    value (ofRatio negative n 1) = (if negative then -1 else 1) *
      ((roundQuotient n (2 ^ (Nat.log2 n - 52)) : ℚ) * 2 ^ (Nat.log2 n - 52)) := by
  have hzero : n ≠ 0 := by
    rintro rfl
    exact absurd hlog (by decide)
  have hlt : Nat.log2 n < 64 := (Nat.log2_lt hzero).mpr hn
  have hunit : max (binaryLog n 1 - 52) (-1074) = ((Nat.log2 n - 52 : ℕ) : ℤ) := by
    rw [binaryLog_one hzero]
    omega
  have hscaled : scaled n 1 ((Nat.log2 n - 52 : ℕ) : ℤ) = (n, 2 ^ (Nat.log2 n - 52)) := by
    simp [scaled]
  -- An integer that is long is divided by the place of its last kept bit.
  have hleast : 2 ^ 52 * 2 ^ (Nat.log2 n - 52) ≤ n := by
    rw [← Nat.pow_add, Nat.add_sub_cancel' hlog]
    exact Nat.log2_self_le hzero
  have hgreatest : n < 2 ^ 53 * 2 ^ (Nat.log2 n - 52) := by
    rw [← Nat.pow_add]
    exact Nat.lt_of_lt_of_eq Nat.lt_log2_self (congrArg _ (by omega))
  obtain ⟨hlow, hhigh⟩ := roundQuotient_mem (Nat.two_pow_pos _) hleast hgreatest
  rw [ofRatio, if_neg hzero]
  simp only [hunit, hscaled]
  rw [value_assemble hhigh (.inl hlow) (by omega) (by omega), zpow_natCast]

theorem value_ofRatio_zero : value (ofRatio negative 0 1) = 0 := by
  rw [ofRatio, if_pos rfl, value_assemble (by decide) (.inr rfl) (by decide) (by decide)]
  simp

/-- A whole number of 53 bits is a double, and so is the next one. -/
theorem value_ofRatio_one (hn : n ≤ 2 ^ 53) :
    value (ofRatio negative n 1) = (if negative then -1 else 1) * (n : ℚ) := by
  by_cases hzero : n = 0
  · rw [hzero, value_ofRatio_zero, Nat.cast_zero, mul_zero]
  obtain hlt | rfl := Nat.lt_or_eq_of_le hn
  · exact value_ofRatio_small hzero (Nat.le_of_lt_succ ((Nat.log2_lt hzero).mpr hlt))
  · have hlog : Nat.log2 (2 ^ 53) = 53 := Nat.log2_two_pow
    have hround : roundQuotient (2 ^ 53) (2 ^ (53 - 52)) = 2 ^ 52 := by decide
    rw [value_ofRatio_large (by decide) (by rw [hlog]; decide), hlog, hround]
    norm_num

theorem sign_mul_natAbs (i : ℤ) : (if decide (i < 0) then -1 else 1) * (i.natAbs : ℚ) = i := by
  by_cases hi : i < 0
  · rw [if_pos (by simp [hi]), ← Int.cast_natCast, Int.ofNat_natAbs_of_nonpos hi.le]
    push_cast
    ring
  · rw [if_neg (by simp [hi]), ← Int.cast_natCast, Int.natAbs_of_nonneg (by omega), one_mul]

/-- An integer up to `2 ^ 53` in magnitude is its own double. -/
theorem value_ofInt (hi : i.natAbs ≤ 2 ^ 53) : value (ofInt i) = i := by
  rw [ofInt, value_ofRatio_one hi, sign_mul_natAbs]

/-- A long integer is at least as near to its rounding as to any multiple of a power of two with a
mantissa of 53 bits. -/
theorem abs_rounded_sub_le (hlog : 52 < Nat.log2 n) {m : Nat} (hm : m < 2 ^ 53) (e : ℤ) :
    |(roundQuotient n (2 ^ (Nat.log2 n - 52)) : ℚ) * 2 ^ (Nat.log2 n - 52) - n| ≤
      |(m : ℚ) * 2 ^ e - n| := by
  have hzero : n ≠ 0 := by
    rintro rfl
    exact absurd hlog (by decide)
  obtain ⟨u, hu⟩ : ∃ u, Nat.log2 n = u + 53 := ⟨Nat.log2 n - 53, by omega⟩
  rw [hu, show u + 53 - 52 = u + 1 by omega]
  have hmultiple (k : ℤ) : |(roundQuotient n (2 ^ (u + 1)) : ℚ) * 2 ^ (u + 1) - n| ≤
      |(k : ℚ) * 2 ^ (u + 1) - n| := by
    exact_mod_cast abs_roundQuotient_le n (Nat.two_pow_pos (u + 1)) k
  obtain hle | hlt := le_or_gt ((u : ℤ) + 1) e
  · -- From the last place up, every double is a multiple of it.
    obtain ⟨v, rfl⟩ := Int.le.dest hle
    refine (hmultiple (m * 2 ^ v)).trans (le_of_eq ?_)
    have hpower : (2 : ℚ) ^ ((u : ℤ) + 1 + v) = 2 ^ v * 2 ^ (u + 1) := by
      rw [add_comm, zpow_add₀ (by norm_num), zpow_natCast]
      exact congrArg _ (zpow_natCast 2 (u + 1))
    rw [hpower]
    push_cast
    rw [mul_assoc]
  · -- Further down, doubles stay below the first integer of this length.
    refine (hmultiple (2 ^ 52)).trans ?_
    have hpower : (2 : ℚ) ^ e ≤ 2 ^ u := by
      rw [← zpow_natCast]
      exact zpow_le_zpow_right₀ (by norm_num) (by omega)
    have hmantissa : (m : ℚ) ≤ 2 ^ 53 := by exact_mod_cast hm.le
    have hbelow : (m : ℚ) * 2 ^ e ≤ 2 ^ 52 * 2 ^ (u + 1) := by
      calc (m : ℚ) * 2 ^ e ≤ 2 ^ 53 * 2 ^ u := by gcongr
        _ = 2 ^ 52 * 2 ^ (u + 1) := by ring
    have hlength : (2 : ℚ) ^ 52 * 2 ^ (u + 1) ≤ n := by
      have hself := Nat.log2_self_le hzero
      rw [hu] at hself
      calc (2 : ℚ) ^ 52 * 2 ^ (u + 1) = ((2 ^ (u + 53) : ℕ) : ℚ) := by push_cast; ring
        _ ≤ n := by exact_mod_cast hself
    push_cast
    rw [abs_of_nonpos (by linarith), abs_of_nonpos (by linarith)]
    linarith

/-- No double is nearer to an integer than the double of it. -/
theorem nearest_ofInt (hi : i.natAbs < 2 ^ 64) (g : Float) :
    |value (ofInt i) - i| ≤ |value g - i| := by
  by_cases hsmall : i.natAbs ≤ 2 ^ 53
  · rw [value_ofInt hsmall, sub_self, abs_zero]
    exact abs_nonneg _
  have hzero : i.natAbs ≠ 0 := by omega
  have hlog : 52 < Nat.log2 i.natAbs := by
    have hle : 53 ≤ Nat.log2 i.natAbs := (Nat.le_log2 hzero).mpr (Nat.le_of_not_le hsmall)
    omega
  -- The sign aside, the integer is compared with the mantissa and the exponent of the other double.
  have hvalue : |value (ofInt i) - i| = |(roundQuotient i.natAbs (2 ^ (Nat.log2 i.natAbs - 52)) : ℚ) *
      2 ^ (Nat.log2 i.natAbs - 52) - i.natAbs| := by
    have hi' : (i : ℚ) = (if decide (i < 0) then -1 else 1) * (i.natAbs : ℚ) :=
      (sign_mul_natAbs i).symm
    rw [ofInt, value_ofRatio_large hi hlog.le]
    rw [congrArg (_ - ·) hi', ← mul_sub, abs_sign_mul]
  have hreverse : |(Binary.ofFloat g).mantissa * (2 : ℚ) ^ (Binary.ofFloat g).exponent - i.natAbs| ≤
      |value g - i| := by
    have hg : |value g| = (Binary.ofFloat g).mantissa * (2 : ℚ) ^ (Binary.ofFloat g).exponent := by
      rw [value, Binary.value, abs_sign_mul]
      exact abs_of_nonneg (mul_nonneg (Nat.cast_nonneg _) (zpow_nonneg (by norm_num) _))
    have hn : |(i : ℚ)| = i.natAbs := by rw [Nat.cast_natAbs, Int.cast_abs]
    rw [← hg, ← hn]
    exact abs_abs_sub_abs_le (value g) i
  rw [hvalue]
  exact (abs_rounded_sub_le hlog (mantissa_lt g) _).trans hreverse

/-! ### Nearest integers -/

/-- An integer that fits in a word is the word of the double it is. -/
theorem toWord_of_value {f : Float} (h : value f = i) (hlow : -2 ^ 63 ≤ i) (hhigh : i < 2 ^ 63) :
    toWord f = i := by
  unfold toWord
  rw [Binary.truncate_of_value h]
  exact if_pos ⟨hlow, hhigh⟩

/-- Rounding gives the nearest integer. -/
theorem value_round (f : Float) : value (round f) = nearestInt (value f) := by
  unfold round
  dsimp only
  by_cases hexponent : 0 ≤ (Binary.ofFloat f).exponent
  · -- Without places after the point a double is an integer already.
    have hwhole : ∃ i : ℤ, value f = i := by
      refine ⟨(if (Binary.ofFloat f).negative then -1 else 1) *
        ((Binary.ofFloat f).mantissa * 2 ^ (Binary.ofFloat f).exponent.toNat : ℕ), ?_⟩
      rw [value, Binary.value_of_nonneg hexponent, Int.cast_mul, Int.cast_natCast]
      cases (Binary.ofFloat f).negative <;> simp
    obtain ⟨i, hi⟩ := hwhole
    rw [if_pos hexponent, hi, nearestInt_intCast]
  · -- With them, the half is added to the mantissa before the division.
    rw [if_neg hexponent]
    generalize hden : (2 ^ (-(Binary.ofFloat f).exponent).toNat : ℕ) = den
    have hpos : 0 < den := hden ▸ Nat.two_pow_pos _
    have hsmall : (2 * (Binary.ofFloat f).mantissa + den) / (2 * den) ≤ 2 ^ 53 := by
      have hmantissa := mantissa_lt f
      refine Nat.div_le_of_le_mul ?_
      nlinarith
    have hvalue : value f = (if (Binary.ofFloat f).negative then -1 else 1) *
        ((Binary.ofFloat f).mantissa / den : ℚ) := by
      rw [value, Binary.value_of_neg (lt_of_not_ge hexponent), hden]
    rw [Nat.pow_eq, hden, value_ofRatio_one hsmall, hvalue, nearestInt_div _ _ hpos, Int.cast_mul,
      Int.cast_natCast]
    congr 1
    split <;> simp

/-- The word of a rounded double is the integer nearest to its value, if that fits. -/
theorem toWord_round {f : Float} (hlow : -2 ^ 63 ≤ nearestInt (value f))
    (hhigh : nearestInt (value f) < 2 ^ 63) : toWord (round f) = nearestInt (value f) :=
  toWord_of_value (value_round f) hlow hhigh

end Double

end Stylesheet
