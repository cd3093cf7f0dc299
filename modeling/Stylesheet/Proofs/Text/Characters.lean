import Stylesheet.Proofs.Text.Collapse

/-!
# Whole characters

In UTF-8 the first byte of a character tells how many bytes come after it. A text of whole
characters owes none at its end, so white space at the start or at the end of it is white space
whatever stands beside it, and there is no other. Trimming leaves whole characters behind, and so
does a byte outside characters of several bytes, wherever the text is cut at it.

Nothing is asked of the characters but that they are as long as they say, which is less than UTF-8
demands of them. Where it matters which bytes are a character, a text is taken apart into its
characters and the bytes that belong to none.

## Main definitions

* `Text.owed` — the number of bytes that a character still needs
* `Text.Complete` — a text of whole characters

## Main results

* `Text.complete_of_isValidUTF8` — UTF-8 is made of whole characters
* `Text.Complete.append_iff`, `Text.Complete.upto` — what follows and what goes before
* `Text.Complete.trim` — trimming a text of whole characters
* `Text.Complete.spaceWidth_append`, `Text.Complete.spaceWidthRev_append` — such a text in front of
  another or after it
* `Text.Snug.replace` — such a text in place of a byte
* `Text.flatMap_units`, `Text.units_of` — characters and stray bytes are the text, and a string has
  no stray bytes
-/

namespace Stylesheet.Text

/-! ### Characters byte by byte -/

/-- The bytes that a character still needs after one more byte, if it needed `k` before it. -/
def owed (k : Nat) (c : UInt8) : Option Nat :=
  match k with
  | 0 =>
    if c < 0x80 then some 0
    else if c < 0xC0 then none
    else if c < 0xE0 then some 1
    else if c < 0xF0 then some 2
    else some 3
  | k + 1 => if 0x80 ≤ c ∧ c < 0xC0 then some k else none

/-- The bytes that are needed after a text. -/
def owedAfter (k : Nat) (t : Text) : Option Nat := t.foldlM owed k

@[simp] theorem owedAfter_nil (k : Nat) : owedAfter k [] = some k := rfl

@[simp] theorem owedAfter_cons (k : Nat) (c : UInt8) (t : Text) :
    owedAfter k (c :: t) = (owed k c).bind (owedAfter · t) := rfl

theorem owedAfter_append (k : Nat) (t u : Text) :
    owedAfter k (t ++ u) = (owedAfter k t).bind (owedAfter · u) := by
  simp [owedAfter, List.foldlM_append]

/-- A text of whole characters. -/
def Complete (t : Text) : Prop := owedAfter 0 t = some 0

instance (t : Text) : Decidable (Complete t) := inferInstanceAs (Decidable (_ = _))

theorem complete_nil : Complete [] := rfl

/-- After whole characters the rest is as if it stood alone. -/
theorem Complete.append_iff {t u : Text} (ht : Complete t) : Complete (t ++ u) ↔ Complete u := by
  rw [Complete, owedAfter_append, ht]
  rfl

theorem Complete.append {t u : Text} (ht : Complete t) (hu : Complete u) : Complete (t ++ u) :=
  ht.append_iff.mpr hu

theorem owed_ascii {c : UInt8} (hc : c < 0x80) : owed 0 c = some 0 := if_pos hc

theorem complete_ascii {c : UInt8} (hc : c < 0x80) : Complete [c] := by
  rw [Complete, owedAfter_cons, owed_ascii hc]
  rfl

theorem owed_succ {c : UInt8} (hlow : 0x80 ≤ c) (hhigh : c < 0xC0) (k : Nat) :
    owed (k + 1) c = some k := if_pos ⟨hlow, hhigh⟩

/-- A byte that starts a character ends none. -/
theorem owed_lead {c : UInt8} (hc : isLead c = true) (k : Nat) : owed (k + 1) c = none := by
  refine if_neg ?_
  rintro ⟨hlow, hhigh⟩
  simp only [isLead, Bool.or_eq_true, decide_eq_true_eq] at hc
  rcases hc with hc | hc
  · exact absurd hlow (UInt8.not_le.mpr hc)
  · exact absurd hhigh (UInt8.not_lt.mpr hc)

/-- In front of a byte that starts a character there are whole characters. -/
theorem Complete.upto {t u : Text} (h : Complete (t ++ u)) (hne : u ≠ [])
    (hu : ∀ c ∈ u.head?, isLead c = true) : Complete t := by
  obtain ⟨c, u, rfl⟩ := List.exists_cons_of_ne_nil hne
  rw [Complete, owedAfter_append] at h
  obtain ⟨k, hk, hrest⟩ := Option.bind_eq_some_iff.mp h
  cases k with
  | zero => exact hk
  | succ k =>
    rw [owedAfter_cons, owed_lead (hu c rfl)] at hrest
    cases hrest

/-! ### UTF-8 -/

/-- The characters of a text in UTF-8. -/
theorem exists_chars_of_isValidUTF8 {t : Text} (h : t.toByteArray.IsValidUTF8) :
    ∃ cs : List Char, cs.flatMap String.utf8EncodeChar = t := by
  obtain ⟨cs, hcs⟩ := h
  have hlist := congrArg (·.data.toList) hcs
  exact ⟨cs, by simpa [List.utf8Encode] using hlist.symm⟩

/-- The bytes of a string are UTF-8. -/
theorem isValidUTF8_of (s : String) : (of s).toByteArray.IsValidUTF8 := by
  have heq : (of s).toByteArray = s.toByteArray := by
    apply ByteArray.ext
    simp [of]
  rw [heq]
  exact s.isValidUTF8

theorem owed_ofNat {n : Nat} (hn : n < 256) (h : 192 ≤ n) :
    owed 0 (UInt8.ofNat n) = some (if n < 224 then 1 else if n < 240 then 2 else 3) := by
  simp only [owed, UInt8.lt_iff_toNat_lt, UInt8.toNat_ofNat_of_lt' hn]
  simp only [UInt8.reduceToNat]
  split_ifs <;> first | rfl | omega

theorem owed_succ_ofNat (k n : Nat) : owed (k + 1) (UInt8.ofNat (n % 64 + 128)) = some k := by
  have hbyte : (UInt8.ofNat (n % 64 + 128)).toNat = n % 64 + 128 :=
    UInt8.toNat_ofNat_of_lt' (show n % 64 + 128 < 256 by omega)
  refine owed_succ ?_ ?_ k
  · rw [UInt8.le_iff_toNat_le, hbyte]
    exact Nat.le_add_left 128 _
  · rw [UInt8.lt_iff_toNat_lt, hbyte]
    exact Nat.add_lt_add_right (Nat.mod_lt n (by decide)) 128

/-- A character is as long as its first byte says. -/
theorem complete_utf8EncodeChar (c : Char) : Complete (String.utf8EncodeChar c) := by
  simp only [String.utf8EncodeChar]
  split_ifs with hone htwo hthree
  · refine complete_ascii ?_
    rw [UInt8.lt_iff_toNat_lt, UInt8.toNat_ofNat_of_lt' (show c.val.toNat < 256 by omega)]
    exact Nat.lt_succ_of_le hone
  · rw [Complete, owedAfter_cons, owed_ofNat (by omega) (by omega), if_pos (by omega)]
    simp only [Option.bind_some, owedAfter_cons, owed_succ_ofNat, owedAfter_nil]
  · rw [Complete, owedAfter_cons, owed_ofNat (by omega) (by omega), if_neg (by omega),
      if_pos (by omega)]
    simp only [Option.bind_some, owedAfter_cons, owed_succ_ofNat, owedAfter_nil]
  · rw [Complete, owedAfter_cons, owed_ofNat (by omega) (by omega), if_neg (by omega),
      if_neg (by omega)]
    simp only [Option.bind_some, owedAfter_cons, owed_succ_ofNat, owedAfter_nil]

/-- UTF-8 is made of whole characters. -/
theorem complete_of_isValidUTF8 {t : Text} (h : t.toByteArray.IsValidUTF8) : Complete t := by
  obtain ⟨cs, rfl⟩ := exists_chars_of_isValidUTF8 h
  induction cs with
  | nil => exact complete_nil
  | cons c cs ih =>
    rw [List.flatMap_cons]
    refine (complete_utf8EncodeChar c).append (ih ?_)
    exact ⟨cs, by simp [List.utf8Encode]⟩

/-! ### White space at the ends -/

/-- White space of three bytes has one more byte after the first two. -/
theorem owedAfter_blank3 {a b c : UInt8} (h : blank3 a b c = true) :
    owedAfter 0 [a, b] = some 1 ∧ owed 1 c = some 0 := by
  simp only [blank3, Bool.and_eq_true, Bool.or_eq_true, decide_eq_true_eq] at h
  refine ⟨?_, owed_succ (by grind) (by grind) 0⟩
  rcases h with ((⟨⟨rfl, rfl⟩, -⟩ | ⟨⟨rfl, rfl⟩, -⟩) | ⟨⟨rfl, rfl⟩, -⟩) | ⟨⟨rfl, rfl⟩, -⟩ <;> decide

/-- A white-space character is a whole character. -/
theorem Spaces.complete {t : Text} (h : Spaces t) : Complete t := by
  induction h with
  | nil => exact complete_nil
  | @one a t ha ht ih => exact (complete_ascii (ascii_of_blank1 ha)).append ih
  | @two a b t hab ht ih =>
    refine Complete.append (t := [a, b]) ?_ ih
    simp only [blank2, Bool.and_eq_true, Bool.or_eq_true, decide_eq_true_eq] at hab
    rcases hab with ⟨rfl, rfl | rfl⟩ <;> decide
  | @three a b c t habc ht ih =>
    obtain ⟨hab, hc⟩ := owedAfter_blank3 habc
    have hchar : Complete ([a, b] ++ [c]) := by
      rw [Complete, owedAfter_append, hab, Option.bind_some, owedAfter_cons, hc]
      rfl
    exact hchar.append ih

/-- What is left of a text of whole characters without white space at its ends. -/
theorem Complete.trim {t : Text} (h : Complete t) : Complete (trim t) := by
  obtain ⟨w, v, ht, hw, hv⟩ := exists_trim_spaces t
  rw [ht, List.append_assoc, hw.complete.append_iff] at h
  by_cases hne : v = []
  · rwa [hne, List.append_nil] at h
  · exact h.upto hne hv.isLead_head

/-! ### Snug texts beside others -/

theorem Complete.isLead_head {c : UInt8} {t : Text} (h : Complete (c :: t)) : isLead c = true := by
  by_contra hlead
  have hmid : ¬ c < 0x80 ∧ c < 0xC0 := by simpa [isLead] using hlead
  have hnone : owed 0 c = none := by rw [owed, if_neg hmid.1, if_pos hmid.2]
  rw [Complete, owedAfter_cons, hnone] at h
  cases h

theorem Complete.ascii {c : UInt8} (h : Complete [c]) : c < 0x80 := by
  have howed : owed 0 c = some 0 := by simpa [Complete] using h
  rw [owed] at howed
  split_ifs at howed with hc
  all_goals first | exact hc | simp at howed

/-- What stands after whole characters makes no white space of their start. -/
theorem Complete.spaceWidth_append {t : Text} (h : Complete t) (hne : t ≠ [])
    (hzero : spaceWidth t = 0) (u : Text) : spaceWidth (t ++ u) = 0 := by
  match t with
  | [] => exact absurd rfl hne
  | [a] =>
    have ha : blank1 a = false := by simpa [spaceWidth] using hzero
    exact spaceWidth_ascii h.ascii ha u
  | [a, b] =>
    cases u with
    | nil => exact hzero
    | cons c u =>
      -- The first two bytes of a white-space character of three are no whole character.
      have hblank : blank3 a b c = false := by
        by_contra hblank
        rw [Complete, (owedAfter_blank3 (by simpa using hblank)).1] at h
        cases h
      have hab : blank1 a = false ∧ blank2 a b = false := by grind [spaceWidth]
      simp [spaceWidth, hab, hblank]
  | a :: b :: c :: t => exact hzero

/-- What stands in front of whole characters makes no white space of their end. -/
theorem Complete.spaceWidthRev_append {t : Text} (h : Complete t) (hne : t ≠ [])
    (hzero : spaceWidthRev t.reverse = 0) (u : Text) : spaceWidthRev (t.reverse ++ u) = 0 := by
  match hr : t.reverse with
  | [] => exact absurd (List.reverse_eq_nil_iff.mp hr) hne
  | [a] =>
    obtain rfl : t = [a] := List.reverse_eq_iff.mp hr
    have ha : blank1 a = false := by simpa [spaceWidthRev] using hzero
    exact spaceWidthRev_ascii h.ascii ha u
  | [b, a] =>
    obtain rfl : t = [a, b] := List.reverse_eq_iff.mp hr
    cases u with
    | nil => exact hzero
    | cons c u =>
      -- Nor do its last two bytes start one.
      have hblank : blank3 c a b = false := by
        by_contra hblank
        have hlater := (isLead_of_blank3 (by simpa using hblank : blank3 c a b = true)).2.1
        exact absurd h.isLead_head (by simp [hlater])
      have hab : blank1 b = false ∧ blank2 a b = false := by grind [spaceWidthRev]
      simp [spaceWidthRev, hab, hblank]
  | c :: b :: a :: r =>
    rw [hr] at hzero
    exact hzero

/-! ### A text in place of a byte -/

theorem replace_append_cons (q : UInt8) (new u v : Text) :
    replace [q] new (u ++ q :: v) = replace [q] new u ++ (new ++ replace [q] new v) := by
  simp [replace_singleton]

/-- Where an ASCII character stands nothing is owed, nor after it. -/
theorem owedAfter_replace {q : UInt8} (hq : q < 0x80) {new : Text} (hnew : Complete new) {k j : Nat}
    {t : Text} (ht : owedAfter k t = some j) : owedAfter k (replace [q] new t) = some j := by
  rw [replace_singleton]
  induction t generalizing k with
  | nil => exact ht
  | cons c t ih =>
    obtain ⟨i, hi, hrest⟩ := Option.bind_eq_some_iff.mp ht
    rw [List.flatMap_cons, owedAfter_append]
    split_ifs with hc
    · subst hc
      cases k with
      | zero =>
        rw [owed_ascii hq] at hi
        obtain rfl := Option.some_inj.mp hi
        rw [hnew]
        exact ih hrest
      | succ k =>
        rw [owed_lead (by simp [isLead, hq])] at hi
        cases hi
    · rw [owedAfter_cons, hi]
      exact ih hrest

/-- Whole characters can stand for an ASCII character. -/
theorem Complete.replace {q : UInt8} (hq : q < 0x80) {new t : Text} (hnew : Complete new)
    (ht : Complete t) : Complete (replace [q] new t) := owedAfter_replace hq hnew ht

/-- A snug text can stand for an ASCII character of a snug text, both of whole characters. -/
theorem Snug.replace {q : UInt8} (hq : q < 0x80) {new t : Text} (hnew : Snug new)
    (hnewWhole : Complete new) (ht : Snug t) (hwhole : Complete t) (hmem : q ∈ t) :
    Snug (replace [q] new t) := by
  have hlead : isLead q = true := by simp [isLead, hq]
  refine ⟨?_, ?_, ?_⟩
  · obtain ⟨u, v, rfl⟩ := List.append_of_mem hmem
    rw [replace_append_cons]
    simp [hnew.ne_nil]
  · -- What starts the text now started it before, or it is the other text.
    obtain ⟨u, v, rfl, hu⟩ := List.eq_append_cons_of_mem hmem
    rw [replace_append_cons, replace_eq_self hu]
    by_cases hne : u = []
    · rw [hne, List.nil_append]
      exact hnewWhole.spaceWidth_append hnew.ne_nil hnew.start _
    · have huWhole : Complete u := hwhole.upto (by simp) (by simpa using hlead)
      exact huWhole.spaceWidth_append hne (spaceWidth_eq_zero_of_append hne ht.start) _
  · obtain ⟨u, v, rfl, hv⟩ : ∃ u v, t = u ++ q :: v ∧ q ∉ v := by
      obtain ⟨v, u, hvu, hv⟩ := List.eq_append_cons_of_mem (List.mem_reverse.mpr hmem)
      exact ⟨u.reverse, v.reverse, by simpa using congrArg List.reverse hvu, by simpa using hv⟩
    rw [replace_append_cons, replace_eq_self hv, List.reverse_append, List.reverse_append,
      List.append_assoc]
    by_cases hne : v = []
    · rw [hne, List.reverse_nil, List.nil_append]
      exact hnewWhole.spaceWidthRev_append hnew.ne_nil hnew.stop _
    · have huWhole : Complete u := hwhole.upto (by simp) (by simpa using hlead)
      have hvWhole : Complete v := (complete_ascii hq).append_iff.mp (huWhole.append_iff.mp hwhole)
      have hvStop : spaceWidthRev v.reverse = 0 := by
        have hstop : spaceWidthRev (v.reverse ++ q :: u.reverse) = 0 := by simpa using ht.stop
        exact spaceWidthRev_eq_zero_of_append (by simpa using hne) hstop
      exact hvWhole.spaceWidthRev_append hne hvStop _

/-! ### Characters and stray bytes -/

/-- The bytes of a unit. -/
def unitBytes : Char ⊕ UInt8 → Text
  | .inl c => String.utf8EncodeChar c
  | .inr a => [a]

/-- A text that starts with a character starts with the bytes of that. -/
theorem append_drop_of_leadChar? {t : Text} {c : Char} (h : leadChar? t = some c) :
    String.utf8EncodeChar c ++ t.drop c.utf8Size = t := by
  have hfront := congrArg (fun b : ByteArray => b.data.toList)
    (ByteArray.eq_of_utf8DecodeChar?_eq_some h)
  obtain ⟨rest, hrest⟩ : ∃ rest, t = String.utf8EncodeChar c ++ rest := by
    refine ⟨((t.take 4).toByteArray.extract c.utf8Size (t.take 4).toByteArray.size).data.toList ++
      t.drop 4, ?_⟩
    have htake : t.take 4 = String.utf8EncodeChar c ++
        ((t.take 4).toByteArray.extract c.utf8Size (t.take 4).toByteArray.size).data.toList := by
      simpa using hfront
    rw [← List.append_assoc, ← htake, List.take_append_drop]
  rw [hrest, ← String.length_utf8EncodeChar, List.drop_left]

theorem unitsFrom_eq_units_drop (k : Nat) (t : Text) : unitsFrom k t = units (t.drop k) := by
  induction k generalizing t with
  | zero => rfl
  | succ k ih =>
    cases t with
    | nil => rfl
    | cons a r => exact ih r

theorem units_of_leadChar? {t : Text} {c : Char} (h : leadChar? t = some c) :
    units t = .inl c :: units (t.drop c.utf8Size) := by
  cases t with
  | nil => cases h
  | cons a r =>
    have hsize : c.utf8Size = c.utf8Size - 1 + 1 := by have := c.utf8Size_pos; omega
    rw [units, unitsFrom, h, hsize, List.drop_succ_cons]
    exact congrArg _ (unitsFrom_eq_units_drop _ _)

/-- The characters of a text and the bytes that belong to none are the text. -/
theorem flatMap_units (t : Text) : (units t).flatMap unitBytes = t := by
  suffices hfrom : ∀ k, (unitsFrom k t).flatMap unitBytes = t.drop k from hfrom 0
  induction t with
  | nil => simp [unitsFrom]
  | cons a r ih =>
    intro k
    cases k with
    | succ k => exact ih k
    | zero =>
      rw [unitsFrom]
      split
      · next c hlead =>
        have hdrop : (a :: r).drop c.utf8Size = r.drop (c.utf8Size - 1) := by
          rw [List.drop_cons c.utf8Size_pos]
        rw [List.flatMap_cons, ih, ← hdrop]
        exact append_drop_of_leadChar? hlead
      · rw [List.flatMap_cons, ih]
        rfl

theorem leadChar?_encode (c : Char) (t : Text) :
    leadChar? (String.utf8EncodeChar c ++ t) = some c := by
  have hlength : (String.utf8EncodeChar c).length ≤ 4 := by
    rw [String.length_utf8EncodeChar]
    exact c.utf8Size_le_four
  rw [leadChar?, List.take_append, List.take_of_length_le hlength, List.toByteArray_append]
  exact ByteArray.utf8DecodeChar?_utf8EncodeChar_append

/-- In a string every byte belongs to a character. -/
theorem units_of (s : String) : units (of s) = s.toList.map .inl := by
  have hof : of s = s.toList.flatMap String.utf8EncodeChar := by
    rw [of, String.toUTF8, ← String.utf8Encode_toList, List.utf8Encode]
    simp
  rw [hof]
  induction s.toList with
  | nil => rfl
  | cons c cs ih =>
    rw [List.flatMap_cons, units_of_leadChar? (leadChar?_encode c _),
      ← String.length_utf8EncodeChar, List.drop_left, ih, List.map_cons]

theorem chars_of (s : String) : chars (of s) = s.toList := by
  rw [chars, units_of, List.map_map]
  exact List.map_id _

theorem asString_of (s : String) : asString (of s) = s := by
  rw [asString, chars_of, String.ofList_toList]

end Stylesheet.Text
