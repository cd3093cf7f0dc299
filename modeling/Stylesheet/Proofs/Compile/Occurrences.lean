import Mathlib.Data.List.Perm.Subperm
import Mathlib.Tactic.Linarith
import Mathlib.Tactic.Zify
import Stylesheet.Expression.Token
import Stylesheet.Proofs.Compile.Replacement
import Stylesheet.Proofs.Text

/-!
# Occurrences of names

Where a selector is extended, its occurrences in other selectors are replaced, but only those that
stand alone: no name goes on into the occurrence or out of it, and no mark before it makes it
another name. A class, an id or an element that stands alone shares no byte with any other place
where it occurs, so to replace these occurrences from left to right is to replace them all.

The scan takes the bytes of names for ASCII. A character outside ASCII goes on with a name as well,
and so an occurrence next to one can be replaced although it does not stand alone. The scan does
what is asked for unless a selector has such an occurrence.

## Main definitions

* `IsSimple` — a class, an id or an element
* `StandsAlone` — an occurrence, told by the texts before and after it, that is a name of its own
* `Spliced` — a text with given occurrences replaced
* `ReplacesAlone` — a text with the occurrences replaced that stand alone
* `Replaces` — a scan from left to right that replaces occurrences with a property

## Main results

* `not_standsAlone_of_overlap` — of two occurrences that overlap neither stands alone
* `Replaces.exists_spliced` — what a scan replaces, by induction on the scan
* `replaceWhole_alone_iff` — when the occurrences that stand alone are replaced
-/

namespace Stylesheet

open Text

variable {name : UInt8 → Bool} {P : Text → Text → Prop} {old new t out before after rest : Text}
  {i : Nat} {ks : List Nat}

/-! ### Names that stand alone -/

/-- A class, an id or an element: a name, with a mark before it or none. -/
def IsSimple (old : Text) : Prop :=
  ∃ c r, old = c :: r ∧ (∀ d ∈ r, Token.isNameChar d = true) ∧
    (Token.isNameChar c = true ∨ (c = ch '.' ∨ c = ch '#') ∧ r ≠ [])

/-- Between these texts `old` is a name of its own, `name` telling the bytes of names: none comes
after it, no mark before it, and none before it if it has no mark. -/
structure StandsAlone (name : UInt8 → Bool) (old before after : Text) : Prop where
  after_name : ∀ c, after.head? = some c → name c = false
  before_mark : ∀ c, before.getLast? = some c → isMark c = false
  before_name : isMark (head0 old) = false → ∀ c, before.getLast? = some c → name c = false

theorem IsSimple.ne_nil (h : IsSimple old) : old ≠ [] := by
  obtain ⟨c, r, rfl, -⟩ := h
  exact List.cons_ne_nil c r

theorem isMark_of_isNameChar : ∀ c, Token.isNameChar c = true → isMark c = false :=
  forall_byte (by decide +kernel)

/-- The bytes of names are those of ASCII, and all bytes outside ASCII. -/
theorem isNameChar_iff : ∀ c, Token.isNameChar c = true ↔ isName c = true ∨ 0x80 ≤ c :=
  forall_byte (by decide +kernel)

/-- What is alone among all names is so among those of ASCII. -/
theorem StandsAlone.ascii (h : StandsAlone Token.isNameChar old before after) :
    StandsAlone isName old before after := by
  have hname {c : UInt8} (hc : Token.isNameChar c = false) : isName c = false := by
    by_contra hascii
    have hchar := (isNameChar_iff c).mpr (.inl (by simpa using hascii))
    simp [hc] at hchar
  exact ⟨fun c hc => hname (h.after_name c hc), h.before_mark,
    fun hmark c hc => hname (h.before_name hmark c hc)⟩

/-- Where no byte is outside ASCII, these are all names. -/
theorem StandsAlone.of_ascii (hbefore : ∀ c ∈ before, c < 0x80) (hafter : ∀ c ∈ after, c < 0x80)
    (h : StandsAlone isName old before after) : StandsAlone Token.isNameChar old before after := by
  have hname {c : UInt8} (hlow : c < 0x80) (hc : isName c = false) :
      Token.isNameChar c = false := by
    by_contra hchar
    obtain hascii | hhigh := (isNameChar_iff c).mp (by simpa using hchar)
    · simp [hc] at hascii
    · exact absurd hlow (UInt8.not_lt.mpr hhigh)
  refine ⟨?_, h.before_mark, ?_⟩
  · intro c hc
    exact hname (hafter c (List.mem_of_mem_head? hc)) (h.after_name c hc)
  · intro hmark c hc
    exact hname (hbefore c (List.mem_of_getLast? hc)) (h.before_name hmark c hc)

/-- Where two occurrences overlap, the first is `x ++ y` where the second starts with `y`, so that
`y ++ z` is the second one and `z` comes after the first. -/
theorem exists_overlap {u v u' v' : Text} (h : u ++ old ++ v = u' ++ old ++ v')
    (hlt : u.length < u'.length) (hoverlap : u'.length < u.length + old.length) :
    ∃ x y z, u' = u ++ x ∧ v = z ++ v' ∧ old = x ++ y ∧ old = y ++ z ∧
      0 < x.length ∧ 0 < y.length ∧ 0 < z.length := by
  obtain ⟨x, rfl, hx⟩ : ∃ x, u' = u ++ x ∧ old ++ v = x ++ (old ++ v') := by
    rw [List.append_assoc, List.append_assoc] at h
    obtain hx | ⟨w, rfl, -⟩ := List.append_eq_append_iff.mp h
    · exact hx
    · rw [List.length_append] at hlt
      omega
  rw [List.length_append] at hlt hoverlap
  obtain ⟨y, hy, hy'⟩ : ∃ y, old = x ++ y ∧ old ++ v' = y ++ v := by
    obtain ⟨w, rfl, -⟩ | hy := List.append_eq_append_iff.mp hx
    · rw [List.length_append] at hoverlap
      omega
    · exact hy
  have hlength := congrArg List.length hy
  rw [List.length_append] at hlength
  obtain ⟨z, hz, rfl⟩ : ∃ z, old = y ++ z ∧ v = z ++ v' := by
    obtain ⟨w, rfl, -⟩ | hz := List.append_eq_append_iff.mp hy'
    · rw [List.length_append] at hlength
      omega
    · exact hz
  have hlength' := congrArg List.length hz
  rw [List.length_append] at hlength'
  exact ⟨x, y, z, rfl, rfl, hy, hz, by omega, by omega, by omega⟩

/-- Of two occurrences that overlap neither stands alone: the second has a byte of a name before
it, and the first has one after it. -/
theorem not_standsAlone_of_overlap (hold : IsSimple old) {u v u' v' : Text}
    (h : u ++ old ++ v = u' ++ old ++ v') (hlt : u.length < u'.length)
    (hoverlap : u'.length < u.length + old.length) :
    ¬ StandsAlone Token.isNameChar old u v ∧ ¬ StandsAlone Token.isNameChar old u' v' := by
  obtain ⟨x, y, z, rfl, rfl, hy, hz, hxpos, hypos, hzpos⟩ := exists_overlap h hlt hoverlap
  obtain ⟨c, r, rfl, hr, -⟩ := hold
  obtain ⟨_, x, rfl⟩ := List.exists_cons_of_length_pos hxpos
  obtain ⟨_, y, rfl⟩ := List.exists_cons_of_length_pos hypos
  obtain ⟨e, z, rfl⟩ := List.exists_cons_of_length_pos hzpos
  obtain ⟨rfl, hrx⟩ := List.cons.inj hy
  obtain ⟨rfl, hry⟩ := List.cons.inj hz
  -- As `y` begins like `old` but further on, the first byte is one of a name as the others are.
  have hc : Token.isNameChar c = true := hr c (by simp [hrx])
  constructor
  · intro halone
    have hfree : Token.isNameChar e = false := halone.after_name e rfl
    rw [hr e (by simp [hry])] at hfree
    cases hfree
  · intro halone
    have hlast : (u ++ c :: x).getLast? = some ((c :: x).getLast (List.cons_ne_nil c x)) := by
      rw [List.getLast?_append_of_ne_nil _ (List.cons_ne_nil c x), List.getLast?_eq_some_getLast]
    have hfree := halone.before_name (isMark_of_isNameChar c hc) _ hlast
    have hname : ∀ d ∈ c :: x, Token.isNameChar d = true := by
      refine List.forall_mem_cons.mpr ⟨hc, fun d hd => hr d ?_⟩
      rw [hrx]
      exact List.mem_append_left _ hd
    rw [hname _ (List.getLast_mem _)] at hfree
    cases hfree

/-! ### Replaced occurrences -/

/-- A text in which `old` is replaced by `new` where it stands at given offsets, in order. The text
starts at offset `i`. -/
inductive Spliced (old new : Text) : (i : Nat) → (ks : List Nat) → (t out : Text) → Prop
  | nil {i : Nat} : Spliced old new i [] [] []
  | keep {i : Nat} {ks : List Nat} {c : UInt8} {t out : Text}
      (h : Spliced old new (i + 1) ks t out) : Spliced old new i ks (c :: t) (c :: out)
  | put {i : Nat} {ks : List Nat} {t out : Text}
      (h : Spliced old new (i + old.length) ks t out) :
    Spliced old new i (i :: ks) (old ++ t) (new ++ out)

/-- A text in which `old` is replaced by `new` at just those places where it stands alone. -/
def ReplacesAlone (name : UInt8 → Bool) (old new t out : Text) : Prop :=
  ∃ ks, Spliced old new 0 ks t out ∧ ∀ before after, t = before ++ old ++ after →
    (StandsAlone name old before after ↔ before.length ∈ ks)

namespace Spliced

theorem eq_self (h : Spliced old new i [] t out) : out = t := by
  generalize hks : [] = ks at h
  induction h with
  | nil => rfl
  | keep h ih => rw [ih hks]
  | put h ih => cases hks

theorem eq_of_eq (h : Spliced old old i ks t out) : out = t := by
  induction h with
  | nil => rfl
  | keep h ih => rw [ih]
  | put h ih => rw [ih]

/-- The text has an occurrence at each of the offsets. -/
theorem exists_occurrence (h : Spliced old new i ks t out) {k : Nat} (hk : k ∈ ks) :
    ∃ before after, t = before ++ old ++ after ∧ k = i + before.length := by
  induction h with
  | nil => cases hk
  | @keep i ks c t out h ih =>
    obtain ⟨before, after, rfl, rfl⟩ := ih hk
    refine ⟨c :: before, after, rfl, ?_⟩
    rw [List.length_cons]
    omega
  | @put i ks t out h ih =>
    rcases List.mem_cons.mp hk with rfl | hk
    · exact ⟨[], t, rfl, rfl⟩
    · obtain ⟨before, after, rfl, rfl⟩ := ih hk
      refine ⟨old ++ before, after, by simp only [List.append_assoc], ?_⟩
      rw [List.length_append]
      omega

theorem nodup (hold : old ≠ []) (h : Spliced old new i ks t out) : ks.Nodup := by
  have hpos : 0 < old.length := List.length_pos_iff.mpr hold
  induction h with
  | nil => exact List.nodup_nil
  | keep h ih => exact ih
  | @put i ks t out h ih =>
    apply List.nodup_cons.mpr
    refine ⟨?_, ih⟩
    intro hi
    obtain ⟨before, after, -, heq⟩ := h.exists_occurrence hi
    omega

/-- Each replaced occurrence changes the length alike. -/
theorem length_add (h : Spliced old new i ks t out) :
    out.length + ks.length * old.length = t.length + ks.length * new.length := by
  induction h with
  | nil => simp
  | keep h ih =>
    rw [List.length_cons, List.length_cons]
    omega
  | put h ih =>
    rw [List.length_append, List.length_append, List.length_cons, Nat.succ_mul, Nat.succ_mul]
    omega

/-- How many bytes of two texts differ. -/
def differences (t u : Text) : Nat := (t.zip u).countP fun e => e.1 ≠ e.2

/-- Each replaced occurrence makes the texts differ alike. -/
theorem differences_eq (hlength : old.length = new.length) (h : Spliced old new i ks t out) :
    differences t out = ks.length * differences old new := by
  induction h with
  | nil => simp [differences]
  | @keep i ks c t out h ih =>
    rw [← ih]
    simp [differences]
  | put h ih =>
    rw [differences, List.zip_append hlength, List.countP_append, ← differences, ← differences, ih,
      List.length_cons, Nat.succ_mul, Nat.add_comm]

theorem eq_of_differences_eq_zero {t u : Text} (hlength : t.length = u.length)
    (h : differences t u = 0) : t = u := by
  induction t generalizing u with
  | nil => exact (List.length_eq_zero_iff.mp hlength.symm).symm
  | cons c t ih =>
    cases u with
    | nil => cases hlength
    | cons d u =>
      simp only [differences, List.zip_cons_cons, List.countP_cons, Nat.add_eq_zero_iff] at h
      obtain ⟨hrest, hfirst⟩ := h
      have hcd : c = d := by simpa using hfirst
      rw [hcd, ih (Nat.succ.inj hlength) hrest]

/-- What is replaced by another text can be counted in the result. -/
theorem length_eq (hne : new ≠ old) {js : List Nat} (h : Spliced old new i ks t out)
    (h' : Spliced old new i js t out) : ks.length = js.length := by
  -- Each one changes the length of the text, or else the number of bytes that are not as before.
  by_cases hlength : old.length = new.length
  · have hdiffer : 0 < differences old new := by
      by_contra hzero
      exact hne (eq_of_differences_eq_zero hlength (by omega)).symm
    have hsame := (h.differences_eq hlength).symm.trans (h'.differences_eq hlength)
    exact Nat.eq_of_mul_eq_mul_right hdiffer hsame
  · have hk := h.length_add
    have hj := h'.length_add
    have hproduct : ((ks.length : Int) - js.length) * (old.length - new.length) = 0 := by
      zify at hk hj
      linarith
    obtain hsame | hsame := mul_eq_zero.mp hproduct
    · omega
    · exact absurd (by omega) hlength

end Spliced

/-! ### The scan -/

/-- A scan from left to right that replaces `old` by `new` where the texts before and after it have
a property, and goes on behind it. -/
inductive Replaces (P : Text → Text → Prop) (old new : Text) : (before rest out : Text) → Prop
  | done {before : Text} : Replaces P old new before [] []
  | whole {before after out : Text} (h : P before after)
      (hrest : Replaces P old new (before ++ old) after out) :
    Replaces P old new before (old ++ after) (new ++ out)
  | byte {before rest out : Text} {c : UInt8}
      (h : ∀ after, c :: rest = old ++ after → ¬ P before after)
      (hrest : Replaces P old new (before ++ [c]) rest out) :
    Replaces P old new before (c :: rest) (c :: out)

/-- There is such a scan for any property. -/
theorem exists_replaces (hold : old ≠ []) (P : Text → Text → Prop) (new before rest : Text) :
    ∃ out, Replaces P old new before rest out := by
  induction hn : rest.length using Nat.strong_induction_on generalizing before rest with
  | _ n ih =>
    by_cases hwhole : ∃ after, rest = old ++ after ∧ P before after
    · obtain ⟨after, rfl, hP⟩ := hwhole
      have hpos : 0 < old.length := List.length_pos_iff.mpr hold
      rw [List.length_append] at hn
      obtain ⟨out, hout⟩ := ih after.length (by omega) (before ++ old) after rfl
      exact ⟨new ++ out, .whole hP hout⟩
    · cases rest with
      | nil => exact ⟨[], .done⟩
      | cons c rest =>
        rw [List.length_cons] at hn
        obtain ⟨out, hout⟩ := ih rest.length (by omega) (before ++ [c]) rest rfl
        exact ⟨c :: out, .byte (fun after heq hP => hwhole ⟨after, heq, hP⟩) hout⟩

/-- What a scan replaces: only occurrences with the property, and each of these but those that
overlap one before. The induction is on the scan, and offsets are those of the whole text. -/
theorem Replaces.exists_spliced (hold : old ≠ []) (h : Replaces P old new before rest out) :
    ∃ ks, Spliced old new before.length ks rest out ∧
      (∀ k ∈ ks, ∃ u v, before ++ rest = u ++ old ++ v ∧ k = u.length ∧ P u v) ∧
      ∀ u v, before ++ rest = u ++ old ++ v → before.length ≤ u.length → P u v →
        u.length ∈ ks ∨ ∃ k ∈ ks, k < u.length ∧ u.length < k + old.length := by
  -- by the steps of the scan, which goes on behind what it replaces
  induction h with
  | @done before =>
    refine ⟨[], .nil, nofun, ?_⟩
    intro u v heq hle hP
    have hpos : 0 < old.length := List.length_pos_iff.mpr hold
    have hlength := congrArg List.length heq
    simp only [List.length_append, List.length_nil] at hlength
    omega
  | @whole before after out hP hrest ih =>
    obtain ⟨ks, hspliced, hfound, hall⟩ := ih
    rw [List.append_assoc] at hfound hall
    rw [List.length_append] at hspliced hall
    refine ⟨before.length :: ks, .put hspliced, ?_, ?_⟩
    · intro k hk
      rcases List.mem_cons.mp hk with rfl | hk
      · exact ⟨before, after, (List.append_assoc _ _ _).symm, rfl, hP⟩
      · exact hfound k hk
    · intro u v heq hle hPu
      -- What the scan has passed by going on behind the occurrence starts inside it.
      by_cases hnext : before.length + old.length ≤ u.length
      · obtain hu | ⟨k, hk, hoverlap⟩ := hall u v heq hnext hPu
        · exact .inl (List.mem_cons_of_mem _ hu)
        · exact .inr ⟨k, List.mem_cons_of_mem _ hk, hoverlap⟩
      · obtain hsame | hlt := Nat.eq_or_lt_of_le hle
        · exact .inl (hsame ▸ List.mem_cons_self)
        · exact .inr ⟨before.length, List.mem_cons_self, hlt, by omega⟩
  | @byte before rest out c hP hrest ih =>
    obtain ⟨ks, hspliced, hfound, hall⟩ := ih
    rw [List.append_assoc, List.singleton_append] at hfound hall
    rw [List.length_append, List.length_singleton] at hspliced hall
    refine ⟨ks, .keep hspliced, hfound, ?_⟩
    intro u v heq hle hPu
    obtain hsame | hlt := Nat.eq_or_lt_of_le hle
    · rw [List.append_assoc] at heq
      obtain ⟨rfl, hrest⟩ := List.append_inj heq hsame
      exact absurd hPu (hP v hrest)
    · exact hall u v heq hlt hPu

/-! ### Replacing whole names -/

theorem blocksBefore_eq_false_iff {c d : UInt8} : blocksBefore c d = false ↔
    isMark c = false ∧ (isMark d = false → isName c = false) := by
  unfold blocksBefore
  cases isMark d <;> simp [and_comm]

theorem standsWhole_iff : standsWhole old before.getLast? rest = true ↔
    ∃ after, rest = old ++ after ∧ StandsAlone isName old before after := by
  unfold standsWhole
  rw [Bool.and_eq_true, Bool.and_eq_true, starts, List.isPrefixOf_iff_prefix]
  constructor
  · rintro ⟨⟨⟨after, rfl⟩, hbefore⟩, hafter⟩
    rw [List.drop_left] at hafter
    -- a byte before blocks the occurrence if it is a mark, or of a name that would go on
    have hfree {c : UInt8} (hc : before.getLast? = some c) :
        blocksBefore c (head0 old) = false := by
      simpa [hc] using hbefore
    refine ⟨after, rfl, ?_, ?_, ?_⟩
    · intro c hc
      simpa [hc] using hafter
    · intro c hc
      exact (blocksBefore_eq_false_iff.mp (hfree hc)).1
    · intro hmark c hc
      exact (blocksBefore_eq_false_iff.mp (hfree hc)).2 hmark
  · rintro ⟨after, rfl, halone⟩
    rw [List.drop_left]
    refine ⟨⟨⟨after, rfl⟩, ?_⟩, ?_⟩
    · cases hlast : before.getLast? with
      | none => rfl
      | some c =>
        have hfree := blocksBefore_eq_false_iff.mpr
          ⟨halone.before_mark c hlast, fun hmark => halone.before_name hmark c hlast⟩
        simp [hfree]
    · cases hhead : after.head? with
      | none => rfl
      | some c => simp [halone.after_name c hhead]

theorem replaceWholeFrom_append (w t : Text) : ∀ before : Text,
    replaceWholeFrom old new w.length before.getLast? (w ++ t) =
      replaceWholeFrom old new 0 (before ++ w).getLast? t := by
  induction w with
  | nil => simp
  | cons c w ih =>
    intro before
    have hlast : some c = (before ++ [c]).getLast? := (List.getLast?_concat).symm
    rw [List.cons_append, List.length_cons, replaceWholeFrom, hlast, ih, List.append_assoc,
      List.singleton_append]

/-- Replacing whole occurrences is the scan for those that stand alone among the names of ASCII. -/
theorem replaces_replaceWholeFrom (hold : old ≠ []) (new before rest : Text) :
    Replaces (StandsAlone isName old) old new before rest
      (replaceWholeFrom old new 0 before.getLast? rest) := by
  induction hn : rest.length using Nat.strong_induction_on generalizing before rest with
  | _ n ih =>
    cases rest with
    | nil => exact .done
    | cons c r =>
      have hlast : some c = (before ++ [c]).getLast? := List.getLast?_concat.symm
      by_cases hwhole : standsWhole old before.getLast? (c :: r) = true
      · obtain ⟨after, heq, halone⟩ := standsWhole_iff.mp hwhole
        -- The bytes of the occurrence after its first one are skipped.
        obtain ⟨d, w, rfl⟩ := List.exists_cons_of_ne_nil hold
        obtain ⟨rfl, hr⟩ : c = d ∧ r = w ++ after := List.cons.inj heq
        subst hr
        rw [replaceWholeFrom, if_pos hwhole, List.length_cons, Nat.add_sub_cancel, hlast,
          replaceWholeFrom_append, List.append_assoc, List.singleton_append]
        refine .whole halone (ih after.length ?_ _ after rfl)
        simp only [List.length_cons, List.length_append] at hn
        omega
      · rw [replaceWholeFrom, if_neg hwhole, hlast]
        refine .byte ?_ (ih r.length ?_ _ r rfl)
        · intro after heq halone
          exact hwhole (standsWhole_iff.mpr ⟨after, heq, halone⟩)
        · rw [List.length_cons] at hn
          omega

theorem ReplacesAlone.eq_self (h : ReplacesAlone name old new t out)
    (hnone : ∀ before after, t = before ++ old ++ after → ¬ StandsAlone name old before after) :
    out = t := by
  obtain ⟨ks, hspliced, hks⟩ := h
  cases ks with
  | nil => exact hspliced.eq_self
  | cons k ks =>
    obtain ⟨before, after, rfl, rfl⟩ := hspliced.exists_occurrence List.mem_cons_self
    rw [Nat.zero_add] at hks
    exact absurd ((hks before after rfl).mpr List.mem_cons_self) (hnone before after rfl)

/-- A scan for occurrences that stand alone replaces them all. -/
theorem Replaces.exists_exact (hold : IsSimple old) (h : Replaces P old new [] t out)
    (hP : ∀ before after, t = before ++ old ++ after → P before after →
      StandsAlone Token.isNameChar old before after) :
    ∃ ks, Spliced old new 0 ks t out ∧ ∀ before after, t = before ++ old ++ after →
      (P before after ↔ before.length ∈ ks) := by
  obtain ⟨ks, hspliced, hfound, hall⟩ := h.exists_spliced hold.ne_nil
  rw [List.nil_append] at hfound hall
  refine ⟨ks, hspliced, ?_⟩
  intro u v heq
  constructor
  · intro hPu
    obtain hu | ⟨k, hk, hlt, hoverlap⟩ := hall u v heq (Nat.zero_le _) hPu
    · exact hu
    · obtain ⟨u', v', heq', rfl, -⟩ := hfound k hk
      have hapart := not_standsAlone_of_overlap hold (heq'.symm.trans heq) hlt hoverlap
      exact absurd (hP u v heq hPu) hapart.2
  · intro hu
    obtain ⟨u', v', heq', hlength, hPu⟩ := hfound _ hu
    have hsame := heq.symm.trans heq'
    rw [List.append_assoc, List.append_assoc] at hsame
    obtain ⟨rfl, hv⟩ := List.append_inj hsame hlength
    rwa [List.append_cancel_left hv]

/-- The scan for what stands alone among the names of ASCII does what is asked for if and only if
this stands alone among all names, or nothing is changed. -/
theorem Replaces.replacesAlone_iff (hold : IsSimple old)
    (h : Replaces (StandsAlone isName old) old new [] t out) :
    ReplacesAlone Token.isNameChar old new t out ↔ new = old ∨
      ∀ before after, t = before ++ old ++ after → StandsAlone isName old before after →
        StandsAlone Token.isNameChar old before after := by
  constructor
  · rintro ⟨js, hjs, hexact⟩
    by_cases hne : new = old
    · exact .inl hne
    obtain ⟨ks, hspliced, hfound, hall⟩ := h.exists_spliced hold.ne_nil
    rw [List.nil_append] at hfound hall
    -- What stands alone is replaced by the scan, and the scan replaces no more occurrences.
    have hsubset : js ⊆ ks := by
      intro k hk
      obtain ⟨u, v, heq, rfl⟩ := hjs.exists_occurrence hk
      rw [Nat.zero_add] at hk ⊢
      have halone := (hexact u v heq).mpr hk
      obtain hu | ⟨k, hk, hlt, hoverlap⟩ := hall u v heq (Nat.zero_le _) halone.ascii
      · exact hu
      · obtain ⟨u', v', heq', rfl, -⟩ := hfound k hk
        have hapart := not_standsAlone_of_overlap hold (heq'.symm.trans heq) hlt hoverlap
        exact absurd halone hapart.2
    have hsub : js.Subperm ks := List.subperm_of_subset (hjs.nodup hold.ne_nil) hsubset
    have hperm : js.Perm ks := hsub.perm_of_length_le (hspliced.length_eq hne hjs).le
    apply Or.inr
    intro u v heq halone
    obtain hu | ⟨k, hk, hlt, hoverlap⟩ := hall u v heq (Nat.zero_le _) halone
    · exact (hexact u v heq).mpr (hperm.mem_iff.mpr hu)
    · obtain ⟨u', v', heq', rfl, -⟩ := hfound k hk
      have halone' := (hexact u' v' heq').mpr (hperm.mem_iff.mpr hk)
      have hapart := not_standsAlone_of_overlap hold (heq'.symm.trans heq) hlt hoverlap
      exact absurd halone' hapart.1
  · rintro (rfl | hascii)
    · -- Whatever occurrences are replaced by themselves, the text stays as it is.
      obtain ⟨ks, hspliced, -⟩ := h.exists_spliced hold.ne_nil
      obtain ⟨out', hout'⟩ :=
        exists_replaces hold.ne_nil (StandsAlone Token.isNameChar new) new [] t
      obtain ⟨js, hjs, hexact⟩ := hout'.exists_exact hold fun _ _ _ halone => halone
      rw [hjs.eq_of_eq] at hjs
      exact ⟨js, hspliced.eq_of_eq ▸ hjs, hexact⟩
    · obtain ⟨ks, hspliced, hexact⟩ := h.exists_exact hold hascii
      refine ⟨ks, hspliced, ?_⟩
      intro u v heq
      rw [← hexact u v heq]
      exact ⟨StandsAlone.ascii, hascii u v heq⟩

/-- Replacing whole occurrences of a class, an id or an element replaces them at just the places
where it stands alone, and changes nothing if there is none, unless what is put in is the same or
some occurrence stands alone among the names of ASCII but not among all names. -/
theorem replaceWhole_alone_iff (hold : IsSimple old) (selector new : Text) :
    (ReplacesAlone Token.isNameChar old new selector (replaceWhole selector old new) ∧
      ((∀ before after, selector = before ++ old ++ after →
        ¬ StandsAlone Token.isNameChar old before after) →
          replaceWhole selector old new = selector)) ↔
    new = old ∨ ∀ before after, selector = before ++ old ++ after →
      StandsAlone isName old before after → StandsAlone Token.isNameChar old before after := by
  have hscan : Replaces (StandsAlone isName old) old new [] selector
      (replaceWhole selector old new) :=
    replaces_replaceWholeFrom hold.ne_nil new [] selector
  rw [← hscan.replacesAlone_iff hold]
  exact ⟨And.left, fun halone => ⟨halone, halone.eq_self⟩⟩

/-- A class in a compound, in a longer name and alone. -/
theorem baseSelector_replaced :
    IsSimple (of ".base") ∧
      (∀ before after, of ".base .basement a.base" = before ++ of ".base" ++ after →
        StandsAlone isName (of ".base") before after →
          StandsAlone Token.isNameChar (of ".base") before after) ∧
      ReplacesAlone Token.isNameChar (of ".base") (of ".x") (of ".base .basement a.base")
        (replaceWhole (of ".base .basement a.base") (of ".base") (of ".x")) ∧
      replaceWhole (of ".base .basement a.base") (of ".base") (of ".x") =
        of ".x .basement a.x" := by
  have hsimple : IsSimple (of ".base") :=
    ⟨ch '.', of "base", rfl, by decide, .inr ⟨.inl rfl, by decide⟩⟩
  have hlow : ∀ c ∈ of ".base .basement a.base", c < 0x80 := by decide
  have hascii : ∀ before after, of ".base .basement a.base" = before ++ of ".base" ++ after →
      StandsAlone isName (of ".base") before after →
        StandsAlone Token.isNameChar (of ".base") before after := by
    intro before after heq halone
    rw [heq] at hlow
    exact halone.of_ascii (fun c hc => hlow c (by simp [hc])) fun c hc => hlow c (by simp [hc])
  exact ⟨hsimple, hascii, ((replaceWhole_alone_iff hsimple _ _).mpr (.inr hascii)).1, by decide⟩

/-- A name that goes on with a letter outside ASCII is cut off there. -/
theorem accentedName_replaced :
    IsSimple (of ".caf") ∧ replaceWhole (of ".café") (of ".caf") (of ".b") = of ".bé" ∧
      ¬ ReplacesAlone Token.isNameChar (of ".caf") (of ".b") (of ".café")
        (replaceWhole (of ".café") (of ".caf") (of ".b")) := by
  have hsimple : IsSimple (of ".caf") :=
    ⟨ch '.', of "caf", rfl, by decide, .inr ⟨.inl rfl, by decide⟩⟩
  refine ⟨hsimple, by decide, fun halone => ?_⟩
  have hscan := replaces_replaceWholeFrom hsimple.ne_nil (of ".b") [] (of ".café")
  obtain hsame | hascii := (hscan.replacesAlone_iff hsimple).mp halone
  · exact absurd hsame (by decide)
  · -- The first byte of the letter goes on with the name.
    have hwhole : StandsAlone isName (of ".caf") [] (of "é") := by
      refine ⟨?_, nofun, nofun⟩
      intro c hc
      obtain rfl : 0xC3 = c := Option.some.inj hc
      decide
    have hfree := (hascii [] (of "é") (by decide) hwhole).after_name 0xC3 rfl
    exact absurd hfree (by decide)

end Stylesheet
