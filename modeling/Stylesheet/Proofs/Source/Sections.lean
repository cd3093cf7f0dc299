import Mathlib.Data.List.GetD
import Mathlib.Data.List.Induction
import Stylesheet.Proofs.Source.Cursors

/-!
# The sections of a text

Where nothing is open, a text is divided by its semicolons, and by the braces that are no
interpolation's: what stands before such a brace leads up to the block it opens. This file
divides a balanced text so, without the pass that finds blocks and without asking which part
of a lead is the header of the block.

The division is a relation, which proofs go through case by case. It has a value for every
balanced text and no other.

## Main definitions

* `Throughout` — what holds of the bytes of a text at which nothing is open
* `Unbroken` — no semicolon and no brace divides the text
* `Sections` — the leads and the bodies of a text

## Main results

* `Balanced.exists_sections`, `Sections.unique` — a balanced text has sections, and no others
* `Sections.pad_left`, `Sections.pad_right` — white space around a text
* `Sections.of_semicolon` — a last semicolon
-/

namespace Stylesheet

open Text

/-! ### Bytes at which nothing is open -/

theorem balanced_iff_run {t : Text} : Balanced t ↔ Brackets.run {} t = some {} := by
  constructor
  · rintro ⟨⟨quote, escaped, paren, depth⟩, hrun, rfl, rfl, rfl⟩
    have hescaped : escaped = false := (Brackets.proper_empty.run hrun).escaped rfl
    rw [hrun, hescaped]
  · exact fun hrun => ⟨{}, hrun, rfl, rfl, rfl⟩

theorem balanced_iff_clear {t : Text} : Balanced t ↔ Clear t t.length := by
  rw [balanced_iff_run, Clear, Brackets.upTo_length]

theorem Balanced.run_append {t : Text} (h : Balanced t) (u : Text) :
    Brackets.run {} (t ++ u) = Brackets.run {} u := by
  rw [Brackets.run_append, balanced_iff_run.mp h, Option.bind_some]

theorem balanced_of_inBlank {w : Text} (hw : ∀ c ∈ w, inBlank c = true) : Balanced w :=
  balanced_iff_run.mpr (Brackets.run_of_inBlank rfl hw)

instance (t : Text) : Decidable (Balanced t) := decidable_of_iff _ balanced_iff_run.symm

instance (t : Text) (i : Nat) : Decidable (Clear t i) :=
  inferInstanceAs (Decidable (Brackets.upTo t i = some {}))

section Places

variable {t u : Text} {i : Nat}

theorem clear_append (hi : i ≤ t.length) : Clear (t ++ u) i ↔ Clear t i := by
  rw [Clear, Clear, Brackets.upTo_append hi]

theorem Balanced.clear_append (h : Balanced t) : Clear (t ++ u) (t.length + i) ↔ Clear u i := by
  rw [Clear, Clear, Brackets.upTo, Brackets.upTo, List.take_length_add_append, h.run_append]

theorem at0_append (hi : i < t.length) : at0 (t ++ u) i = at0 t i := by
  rw [at0, at0, List.getD_append _ _ _ _ hi]

theorem at0_append_add (t u : Text) (i : Nat) : at0 (t ++ u) (t.length + i) = at0 u i := by
  rw [at0, at0, List.getD_append_right _ _ _ _ (Nat.le_add_right _ _), Nat.add_sub_cancel_left]

theorem at0_length (t : Text) (c : UInt8) (u : Text) : at0 (t ++ c :: u) t.length = c :=
  at0_append_add t (c :: u) 0

theorem afterHash_append (hi : i ≤ t.length) : afterHash (t ++ u) i = afterHash t i := by
  unfold afterHash
  by_cases hzero : i = 0
  · simp [hzero]
  · rw [at0_append (by omega)]

theorem afterHash_append_add (t u : Text) (hi : i ≠ 0) :
    afterHash (t ++ u) (t.length + i) = afterHash u i := by
  unfold afterHash
  have hlast : t.length + i - 1 = t.length + (i - 1) := by omega
  have hpos : 0 < t.length + i ∧ 0 < i := by omega
  rw [hlast, at0_append_add]
  simp [hpos]

/-- A text that ends in a number sign. -/
theorem afterHash_length {t : Text} : afterHash t t.length = true ↔ t.getLast? = some (ch '#') := by
  rcases List.eq_nil_or_concat t with rfl | ⟨t, c, rfl⟩
  · decide
  · have hlast : (t ++ [c]).length - 1 = t.length + 0 := by simp
    rw [List.concat_eq_append, afterHash, hlast, at0_append_add]
    simp [at0]

end Places

/-- What `p` says of every byte of a text at which nothing is open. It is told whether a
number sign stands before the byte. -/
def Throughout (p : Bool → UInt8 → Bool) (t : Text) : Prop :=
  ∀ i < t.length, Clear t i → p (afterHash t i) (at0 t i) = true

instance (p : Bool → UInt8 → Bool) (t : Text) : Decidable (Throughout p t) :=
  inferInstanceAs (Decidable (∀ i < t.length, Clear t i → p (afterHash t i) (at0 t i) = true))

section Throughout

variable {p q : Bool → UInt8 → Bool} {t u : Text} {c : UInt8}

theorem throughout_nil : Throughout p [] := nofun

theorem Throughout.imp (h : Throughout p t) (hpq : ∀ b c, p b c = true → q b c = true) :
    Throughout q t := fun i hi hclear => hpq _ _ (h i hi hclear)

theorem Throughout.left (h : Throughout p (t ++ u)) : Throughout p t := by
  intro i hi hclear
  have hbyte := h i (by rw [List.length_append]; omega) ((clear_append hi.le).mpr hclear)
  rwa [afterHash_append hi.le, at0_append hi] at hbyte

/-- One more byte counts if nothing is open before it. -/
theorem throughout_concat :
    Throughout p (t ++ [c]) ↔
      Throughout p t ∧ (Balanced t → p (afterHash t t.length) c = true) := by
  have hlast := at0_length t c []
  constructor
  · refine fun h => ⟨h.left, fun hclear => ?_⟩
    have hbyte := h t.length (by simp) ((clear_append le_rfl).mpr (balanced_iff_clear.mp hclear))
    rwa [afterHash_append le_rfl, hlast] at hbyte
  · rintro ⟨h, hnext⟩ i hi hclear
    rw [List.length_append, List.length_singleton, Nat.lt_succ_iff_lt_or_eq] at hi
    rcases hi with hi | rfl
    · rw [afterHash_append hi.le, at0_append hi]
      exact h i hi ((clear_append hi.le).mp hclear)
    · rw [afterHash_append le_rfl, hlast]
      exact hnext (balanced_iff_clear.mpr ((clear_append le_rfl).mp hclear))

/-- After a balanced text, a number sign at whose end does no harm. -/
theorem Throughout.append (hp : ∀ c, p false c = true → p true c = true) (ht : Throughout p t)
    (hbalanced : Balanced t) (hu : Throughout p u) : Throughout p (t ++ u) := by
  intro i hi hclear
  rcases Nat.lt_or_ge i t.length with hlt | hge
  · rw [afterHash_append hlt.le, at0_append hlt]
    exact ht i hlt ((clear_append hlt.le).mp hclear)
  · -- a place in the second text, which is open there as it is in both
    obtain ⟨j, rfl⟩ := Nat.exists_eq_add_of_le hge
    rw [List.length_append] at hi
    have hbyte := hu j (by omega) (hbalanced.clear_append.mp hclear)
    rw [at0_append_add]
    by_cases hzero : j = 0
    · -- the first byte of a text comes after no number sign
      subst hzero
      have hfirst : p false (at0 u 0) = true := hbyte
      cases hhash : afterHash (t ++ u) (t.length + 0) with
      | false => exact hfirst
      | true => exact hp _ hfirst
    · rwa [afterHash_append_add t u hzero]

/-- What is said of the bytes alone is so in the part after a balanced text. -/
theorem Throughout.right {p : UInt8 → Bool} (h : Throughout (fun _ => p) (t ++ u))
    (hbalanced : Balanced t) : Throughout (fun _ => p) u := by
  intro i hi hclear
  have hbyte := h (t.length + i) (by rw [List.length_append]; omega)
    (hbalanced.clear_append.mpr hclear)
  rwa [at0_append_add] at hbyte

/-- Where it fails there is a first byte at which it does. -/
theorem exists_first_of_not_throughout (h : ¬Throughout p t) :
    ∃ u c r, t = u ++ c :: r ∧ Throughout p u ∧ Balanced u ∧
      p (afterHash u u.length) c = false := by
  -- from the right: the last byte fails, or what is before it does
  induction t using List.reverseRecOn with
  | nil => exact absurd throughout_nil h
  | append_singleton t d ih =>
    by_cases ht : Throughout p t
    · rw [throughout_concat, not_and, Classical.not_imp, Bool.not_eq_true] at h
      obtain ⟨hbalanced, hfails⟩ := h ht
      exact ⟨t, d, [], rfl, ht, hbalanced, hfails⟩
    · obtain ⟨u, c, r, rfl, hu⟩ := ih ht
      exact ⟨u, c, r ++ [d], by simp, hu⟩

end Throughout

/-! ### Unbroken texts -/

/-- Where a semicolon leaves no quote open, none was open, and it changes nothing. -/
theorem Brackets.eq_of_step_semicolon {b b' : Brackets} (hb : b.Proper)
    (h : b.step (ch ';') = some b') (hquote : b'.quote = none) : b = b' := by
  have hmark : isQuote (ch ';') = false := by decide
  cases hopen : b.quote with
  | none =>
    have hne : ch ';' ≠ ch '(' ∧ ch ';' ≠ ch ')' ∧ ch ';' ≠ ch '\x7b' ∧ ch ';' ≠ ch '\x7d' := by
      decide
    simpa [step, hopen, hmark, hne] using h
  | some q =>
    -- in quotes a semicolon would leave them open
    have hne : ch ';' ≠ q := by
      rintro rfl
      exact absurd (hb.isQuote _ hopen) (by simp [hmark])
    have hescape : ch ';' ≠ ch '\\' := by decide
    simp only [step, hopen, hne, hescape, if_false] at h
    split_ifs at h <;> cases h <;> simp_all

theorem balanced_of_semicolon {t : Text} (h : Balanced (t ++ [ch ';'])) : Balanced t := by
  rw [balanced_iff_run, Brackets.run_append] at h
  obtain ⟨b, hrun, hlast⟩ := Option.bind_eq_some_iff.mp h
  obtain ⟨b', hstep, hb'⟩ := Option.bind_eq_some_iff.mp hlast
  obtain rfl := Option.some.inj hb'
  rw [Brackets.eq_of_step_semicolon (Brackets.proper_empty.run hrun) hstep rfl] at hrun
  exact balanced_iff_run.mpr hrun

/-- A byte that does not divide a text: no semicolon, and no brace but that of an
interpolation. -/
def isUnbroken (hash : Bool) (c : UInt8) : Bool := c ≠ ch ';' && (c ≠ ch '\x7b' || hash)

theorem isUnbroken_mono (c : UInt8) (h : isUnbroken false c = true) : isUnbroken true c = true := by
  simp only [isUnbroken, Bool.or_true, Bool.and_true, Bool.and_eq_true] at h ⊢
  exact h.1

theorem isUnbroken_of_inBlank {c : UInt8} (hc : inBlank c = true) (hash : Bool) :
    isUnbroken hash c = true := by
  have hsemicolon : c ≠ ch ';' := Brackets.ne_of_inBlank hc (by decide)
  have hbrace : c ≠ ch '\x7b' := Brackets.ne_of_inBlank hc (by decide)
  simp [isUnbroken, hsemicolon, hbrace]

/-- A byte that divides a text. -/
theorem isUnbroken_eq_false_iff {hash : Bool} {c : UInt8} :
    isUnbroken hash c = false ↔ c = ch ';' ∨ c = ch '\x7b' ∧ hash = false := by
  by_cases hsemicolon : c = ch ';'
  · simp [isUnbroken, hsemicolon]
  · simp [isUnbroken, hsemicolon]

/-- A text without a semicolon, a brace but an interpolation's, or anything left open. -/
structure Unbroken (t : Text) : Prop where
  balanced : Balanced t
  throughout : Throughout isUnbroken t

instance (t : Text) : Decidable (Unbroken t) :=
  decidable_of_iff (Balanced t ∧ Throughout isUnbroken t) ⟨fun h => ⟨h.1, h.2⟩, fun h => ⟨h.1, h.2⟩⟩

theorem unbroken_nil : Unbroken [] := ⟨balanced_iff_run.mpr rfl, throughout_nil⟩

theorem unbroken_of_inBlank {w : Text} (hw : ∀ c ∈ w, inBlank c = true) : Unbroken w := by
  refine ⟨balanced_of_inBlank hw, fun i hi _ => isUnbroken_of_inBlank (hw _ ?_) _⟩
  rw [at0, List.getD_eq_getElem _ _ hi]
  exact List.getElem_mem hi

theorem Unbroken.append {t u : Text} (ht : Unbroken t) (hu : Unbroken u) : Unbroken (t ++ u) :=
  ⟨balanced_iff_run.mpr ((ht.balanced.run_append u).trans (balanced_iff_run.mp hu.balanced)),
    ht.throughout.append isUnbroken_mono ht.balanced hu.throughout⟩

/-- What stands after an unbroken text is its end, or divides the text. -/
def Stops (t rest : Text) : Prop :=
  ∀ c ∈ rest.head?, isUnbroken (afterHash t t.length) c = false

theorem stops_nil (t : Text) : Stops t [] := nofun

theorem stops_semicolon (t rest : Text) : Stops t (ch ';' :: rest) := by
  rintro c ⟨⟩
  exact isUnbroken_eq_false_iff.mpr (.inl rfl)

theorem stops_brace {t : Text} (hhash : t.getLast? ≠ some (ch '#')) (rest : Text) :
    Stops t (ch '\x7b' :: rest) := by
  rintro c ⟨⟩
  refine isUnbroken_eq_false_iff.mpr (.inr ⟨rfl, ?_⟩)
  rwa [← Bool.not_eq_true, afterHash_length]

/-- An unbroken text cannot go on where another has stopped. -/
theorem Unbroken.length_le {u u' x x' : Text} (hu : Unbroken u) (hu' : Unbroken u')
    (hx : Stops u x) (h : u ++ x = u' ++ x') : u'.length ≤ u.length := by
  -- else the byte at which the first stops is one of the second, which goes on there
  by_contra hlt
  rw [Nat.not_le] at hlt
  obtain ⟨v, rfl⟩ : u <+: u' :=
    List.prefix_of_prefix_length_le ⟨x, h⟩ (List.prefix_append _ _) hlt.le
  rw [List.append_assoc, List.append_cancel_left_eq] at h
  obtain ⟨c, v, rfl⟩ : ∃ c v', v = c :: v' := by
    refine List.exists_cons_of_ne_nil ?_
    rintro rfl
    simp at hlt
  have hstop : isUnbroken (afterHash u u.length) c = false := hx c (by simp [h])
  rw [List.append_cons] at hu'
  have hgoes := (throughout_concat.mp hu'.throughout.left).2 hu.balanced
  rw [hstop] at hgoes
  cases hgoes

theorem Unbroken.unique {u u' x x' : Text} (hu : Unbroken u) (hu' : Unbroken u')
    (hx : Stops u x) (hx' : Stops u' x') (h : u ++ x = u' ++ x') : u = u' ∧ x = x' :=
  List.append_inj h (le_antisymm (hu'.length_le hu hx' h.symm) (hu.length_le hu' hx h))

/-! ### Bodies -/

namespace Brackets

/-- What a text does it does inside a brace as well. -/
theorem step_deeper {b b' : Brackets} {c : UInt8} (h : b.step c = some b') :
    b.deeper.step c = some b'.deeper := by
  cases hquote : b.quote with
  | some q =>
    simp only [step, deeper, hquote] at h ⊢
    split_ifs at h ⊢ <;> cases h <;> simp_all
  | none =>
    simp only [step, deeper, hquote] at h ⊢
    split_ifs at h ⊢ <;> cases h <;> simp_all
    omega

theorem run_deeper {b b' : Brackets} {t : Text} (h : b.run t = some b') :
    b.deeper.run t = some b'.deeper := by
  induction t generalizing b with
  | nil =>
    obtain rfl := Option.some.inj h
    rfl
  | cons c t ih =>
    obtain ⟨b₁, hstep, hrest⟩ := Option.bind_eq_some_iff.mp (run_cons b c t ▸ h)
    rw [run_cons, step_deeper hstep, Option.bind_some]
    exact ih hrest

/-- A byte that leaves no brace open where one was is a closing brace, at which nothing else is
open. -/
theorem eq_close_of_step_deeper {b d : Brackets} {c : UInt8} (hb : b.Proper)
    (h : b.deeper.step c = some d) (hdepth : d.depth = 0) :
    c = ch '\x7d' ∧ b = {} ∧ d = {} := by
  have hopen : b.deeper.depth ≠ 0 := Nat.succ_ne_zero _
  cases hquote : b.quote with
  | some q =>
    have hdeeper : b.deeper.quote = some q := hquote
    simp only [step, hdeeper] at h
    split_ifs at h <;> cases h <;> exact absurd hdepth hopen
  | none =>
    have hdeeper : b.deeper.quote = none := hquote
    simp only [step, hdeeper] at h
    split_ifs at h with hq hparen hclose hinside hbrace hend <;> obtain rfl := Option.some.inj h
    · exact absurd hdepth hopen
    · exact absurd hdepth hopen
    · exact absurd hdepth hopen
    · exact absurd hdepth hopen
    · exact absurd hdepth (Nat.succ_ne_zero _)
    · obtain ⟨quote, escaped, paren, depth⟩ := b
      obtain rfl : quote = none := hquote
      obtain rfl : escaped = false := hb.escaped rfl
      obtain rfl : paren = 0 := Nat.le_zero.mp (Nat.le_of_not_lt hinside)
      obtain rfl : depth = 0 := hdepth
      exact ⟨hend, rfl, rfl⟩
    · exact absurd hdepth hopen

/-- A brace that is open is closed at the end of a body. -/
theorem exists_body {b : Brackets} {t : Text} (hb : b.Proper) (h : b.deeper.run t = some {}) :
    ∃ body rest, t = body ++ ch '\x7d' :: rest ∧ b.run body = some {} ∧ run {} rest = some {} := by
  -- the brace is closed by the first byte, or still open after it
  induction t generalizing b with
  | nil => exact absurd (congrArg (Option.map depth) h) (by simp [deeper])
  | cons c t ih =>
    obtain ⟨d, hstep, hrest⟩ := Option.bind_eq_some_iff.mp (run_cons _ c t ▸ h)
    by_cases hdepth : d.depth = 0
    · obtain ⟨rfl, rfl, rfl⟩ := eq_close_of_step_deeper hb hstep hdepth
      exact ⟨[], t, rfl, rfl, hrest⟩
    · obtain ⟨b', hb', rfl⟩ := step_of_step_deeper hstep hdepth
      obtain ⟨body, rest, rfl, hbody, hrest⟩ := ih (hb.step hb') hrest
      exact ⟨c :: body, rest, rfl, by rw [run_cons, hb', Option.bind_some, hbody], hrest⟩

end Brackets

/-- A body ends at the first closing brace without a partner. -/
theorem Balanced.length_le {body body' rest rest' : Text} (hbody : Balanced body)
    (hbody' : Balanced body') (h : body ++ ch '\x7d' :: rest = body' ++ ch '\x7d' :: rest') :
    body'.length ≤ body.length := by
  -- else the brace that closes the first body is in the second, without a partner
  by_contra hlt
  rw [Nat.not_le] at hlt
  obtain ⟨v, rfl⟩ : body <+: body' :=
    List.prefix_of_prefix_length_le ⟨_, h⟩ (List.prefix_append _ _) hlt.le
  rw [List.append_assoc, List.append_cancel_left_eq] at h
  obtain ⟨c, v, rfl⟩ : ∃ c v', v = c :: v' := by
    refine List.exists_cons_of_ne_nil ?_
    rintro rfl
    simp at hlt
  obtain ⟨rfl, -⟩ := List.cons.inj h
  have hrun := balanced_iff_run.mp hbody'
  rw [hbody.run_append] at hrun
  cases hrun

theorem Balanced.unique {body body' rest rest' : Text} (hbody : Balanced body)
    (hbody' : Balanced body') (h : body ++ ch '\x7d' :: rest = body' ++ ch '\x7d' :: rest') :
    body = body' ∧ rest = rest' := by
  obtain ⟨rfl, hrest⟩ := List.append_inj h
    (le_antisymm (hbody'.length_le hbody h.symm) (hbody.length_le hbody' h))
  exact ⟨rfl, (List.cons.inj hrest).2⟩

/-! ### Sections -/

/-- What leads up to the blocks of a text, with the bodies of the blocks. What stands before a
semicolon or at the end leads up to none. -/
inductive Sections : Text → List (Text × Text) → Prop
  | rest {u : Text} (hu : Unbroken u) : Sections u []
  | ended {u t : Text} {ss : List (Text × Text)} (hu : Unbroken u) (ht : Sections t ss) :
    Sections (u ++ ch ';' :: t) ss
  | block {u body t : Text} {ss : List (Text × Text)} (hu : Unbroken u)
      (hhash : u.getLast? ≠ some (ch '#')) (hbody : Balanced body) (ht : Sections t ss) :
    Sections (u ++ ch '\x7b' :: (body ++ ch '\x7d' :: t)) ((u, body) :: ss)

/-- What is after a semicolon and after a block is divided as well, so by its length every
balanced text is. -/
theorem Balanced.exists_sections {t : Text} (h : Balanced t) : ∃ ss, Sections t ss := by
  induction hn : t.length using Nat.strongRecOn generalizing t with
  | _ n ih =>
    by_cases hall : Throughout isUnbroken t
    · exact ⟨[], .rest ⟨h, hall⟩⟩
    -- the first byte that divides the text, with an unbroken text before it
    obtain ⟨u, c, r, rfl, hu, hbalanced, hstop⟩ := exists_first_of_not_throughout hall
    have hrun := balanced_iff_run.mp h
    rw [hbalanced.run_append, Brackets.run_cons] at hrun
    rcases isUnbroken_eq_false_iff.mp hstop with rfl | ⟨rfl, hhash⟩
    · obtain ⟨ss, hss⟩ := ih r.length (by rw [← hn]; simp; omega) (balanced_iff_run.mpr hrun) rfl
      exact ⟨ss, .ended ⟨hbalanced, hu⟩ hss⟩
    · obtain ⟨body, rest, rfl, hbody, hrest⟩ :=
        Brackets.exists_body Brackets.proper_empty (b := {}) hrun
      obtain ⟨ss, hss⟩ := ih rest.length (by rw [← hn]; simp; omega)
        (balanced_iff_run.mpr hrest) rfl
      rw [← Bool.not_eq_true, afterHash_length] at hhash
      exact ⟨_, .block ⟨hbalanced, hu⟩ hhash (balanced_iff_run.mpr hbody) hss⟩

namespace Sections

variable {t u w : Text} {ss ss' : List (Text × Text)}

/-- The sections of a text, from what its first unbroken part is and what stops it. -/
theorem cases_unbroken (h : Sections t ss) : ∃ u x, t = u ++ x ∧ Unbroken u ∧ Stops u x ∧
    ((x = [] ∧ ss = []) ∨ (∃ r, x = ch ';' :: r ∧ Sections r ss) ∨
      ∃ body r ss', x = ch '\x7b' :: (body ++ ch '\x7d' :: r) ∧ Balanced body ∧
        ss = (u, body) :: ss' ∧ Sections r ss') := by
  cases h with
  | rest hu => exact ⟨t, [], by simp, hu, stops_nil t, .inl ⟨rfl, rfl⟩⟩
  | ended hu ht => exact ⟨_, _, rfl, hu, stops_semicolon _ _, .inr (.inl ⟨_, rfl, ht⟩)⟩
  | block hu hhash hbody ht =>
    exact ⟨_, _, rfl, hu, stops_brace hhash _, .inr (.inr ⟨_, _, _, rfl, hbody, rfl, ht⟩)⟩

/-- A text is divided in one way. -/
theorem unique (h : Sections t ss) (h' : Sections t ss') : ss = ss' := by
  -- the first unbroken part and the byte that stops it are determined, and with them the case
  induction h generalizing ss' with
  | @rest u hu =>
    obtain ⟨u', x', heq, hu', hx', hcases⟩ := h'.cases_unbroken
    obtain ⟨-, rfl⟩ := hu.unique hu' (stops_nil u) hx' (by rwa [List.append_nil])
    rcases hcases with ⟨-, rfl⟩ | ⟨r, hr, -⟩ | ⟨body, r, ss₁, hr, -⟩
    · rfl
    · cases hr
    · cases hr
  | @ended u t ss hu ht ih =>
    obtain ⟨u', x', heq, hu', hx', hcases⟩ := h'.cases_unbroken
    obtain ⟨-, rfl⟩ := hu.unique hu' (stops_semicolon u t) hx' heq
    rcases hcases with ⟨hr, -⟩ | ⟨r, hr, hss'⟩ | ⟨body, r, ss₁, hr, -⟩
    · cases hr
    · cases hr
      exact ih hss'
    · cases hr
  | @block u body t ss hu hhash hbody ht ih =>
    obtain ⟨u', x', heq, hu', hx', hcases⟩ := h'.cases_unbroken
    obtain ⟨rfl, rfl⟩ := hu.unique hu' (stops_brace hhash _) hx' heq
    rcases hcases with ⟨hr, -⟩ | ⟨r, hr, -⟩ | ⟨body', r, ss₁, hr, hbody', rfl, hss₁⟩
    · cases hr
    · cases hr
    · obtain ⟨rfl, rfl⟩ := hbody.unique hbody' (List.cons.inj hr).2
      rw [ih hss₁]

/-- The leads and the bodies of a text. -/
theorem of_mem (h : Sections t ss) {s : Text × Text} (hs : s ∈ ss) :
    Unbroken s.1 ∧ s.1.getLast? ≠ some (ch '#') ∧ Balanced s.2 := by
  induction h with
  | rest hu => cases hs
  | ended hu ht ih => exact ih hs
  | block hu hhash hbody ht ih =>
    rcases List.mem_cons.mp hs with rfl | hs
    · exact ⟨hu, hhash, hbody⟩
    · exact ih hs

theorem nil : Sections [] [] := .rest unbroken_nil

/-- White space after a text is part of what is after its last section. -/
theorem pad_right (h : Sections t ss) (hw : ∀ c ∈ w, inBlank c = true) : Sections (t ++ w) ss := by
  induction h with
  | rest hu => exact .rest (hu.append (unbroken_of_inBlank hw))
  | ended hu ht ih =>
    rw [List.append_assoc, List.cons_append]
    exact .ended hu ih
  | block hu hhash hbody ht ih =>
    rw [List.append_assoc, List.cons_append, List.append_assoc, List.cons_append]
    exact .block hu hhash hbody ih

/-- White space before a text is part of the first lead, or of nothing that leads up to a block. -/
theorem pad_left (h : Sections t ss) (hw : ∀ c ∈ w, inBlank c = true) :
    ∃ x, (x = [] ∨ x = w) ∧ Sections (w ++ t) (ss.modifyHead fun s => (x ++ s.1, s.2)) := by
  have hpad := unbroken_of_inBlank hw
  cases h with
  | rest hu => exact ⟨[], .inl rfl, .rest (hpad.append hu)⟩
  | @ended u t ss hu ht =>
    refine ⟨[], .inl rfl, ?_⟩
    have hsame : (ss.modifyHead fun s => ([] ++ s.1, s.2)) = ss := by cases ss <;> rfl
    rw [hsame, ← List.append_assoc]
    exact .ended (hpad.append hu) ht
  | @block u body t ss hu hhash hbody ht =>
    refine ⟨w, .inr rfl, ?_⟩
    rw [← List.append_assoc]
    refine .block (hpad.append hu) (fun hlast => ?_) hbody ht
    -- a number sign at the end would be in the lead
    cases hu' : u.getLast? with
    | none =>
      rw [List.getLast?_append, hu', Option.none_or] at hlast
      have hblank := hw _ (List.mem_of_getLast? hlast)
      exact absurd hblank (by decide)
    | some c =>
      rw [List.getLast?_append, hu', Option.some_or, ← hu'] at hlast
      exact hhash hlast

/-- Without its last semicolon a text has the same sections. -/
theorem of_semicolon (h : Sections (t ++ [ch ';']) ss) : Sections t ss := by
  generalize hx : t ++ [ch ';'] = x at h
  induction h generalizing t with
  | rest hu =>
    subst hx
    -- nothing is open before the semicolon, and so it is one that divides the text
    have hgoes := (throughout_concat.mp hu.throughout).2 (balanced_of_semicolon hu.balanced)
    simp [isUnbroken] at hgoes
  | @ended u r ss hu hr ih =>
    rcases List.eq_nil_or_concat r with rfl | ⟨r, c, rfl⟩
    · obtain rfl := hr.unique nil
      obtain ⟨rfl, -⟩ := List.append_inj' hx rfl
      exact .rest hu
    · rw [List.concat_eq_append, ← List.cons_append, ← List.append_assoc] at hx
      obtain ⟨rfl, hc⟩ := List.append_inj' hx rfl
      exact .ended hu (ih (by rw [hc, List.concat_eq_append]))
  | @block u body r ss hu hhash hbody hr ih =>
    rcases List.eq_nil_or_concat r with rfl | ⟨r, c, rfl⟩
    · rw [← List.cons_append, ← List.append_assoc] at hx
      -- a text that ends in a block does not end in a semicolon
      obtain ⟨-, hc⟩ := List.append_inj' hx rfl
      cases hc
    · rw [List.concat_eq_append, ← List.cons_append, ← List.append_assoc, ← List.cons_append,
        ← List.append_assoc] at hx
      obtain ⟨rfl, hc⟩ := List.append_inj' hx rfl
      have hsections := Sections.block hu hhash hbody (ih (by rw [hc, List.concat_eq_append]))
      rwa [← List.cons_append, ← List.append_assoc] at hsections

/-- A text with sections is balanced: its leads are, and its bodies are in braces. -/
theorem balanced (h : Sections t ss) : Balanced t := by
  induction h with
  | rest hu => exact hu.balanced
  | ended hu ht ih =>
    rw [balanced_iff_run] at ih ⊢
    rw [hu.balanced.run_append]
    exact ih
  | block hu hhash hbody ht ih =>
    rw [balanced_iff_run] at hbody ih ⊢
    have hopen : Brackets.step {} (ch '\x7b') = some (Brackets.deeper {}) := rfl
    have hclose : Brackets.step (Brackets.deeper {}) (ch '\x7d') = some {} := rfl
    rw [hu.balanced.run_append, Brackets.run_cons, hopen, Option.bind_some, Brackets.run_append,
      Brackets.run_deeper hbody, Option.bind_some, Brackets.run_cons, hclose, Option.bind_some, ih]

end Sections

end Stylesheet
