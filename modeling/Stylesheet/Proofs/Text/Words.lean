import Mathlib.Data.List.Basic
import Mathlib.Tactic.SplitIfs
import Stylesheet.Text

/-!
# Words, ends and parts of texts

A text is snug if no white space stands at either end of it. Trimming gives a snug text
back from any padding, collapsing makes a text snug, and a snug text stays so between
ASCII characters. Splitting a text at a byte undoes joining parts without that byte.

## Main definitions

* `Text.isLead` — a byte that starts a character
* `Text.Snug` — no white space at either end
* `Text.Ordered` — texts in order, each once

## Main results

* `Text.Snug.trim_pad` — trimming takes padding off a snug text
* `Text.snug_of_trim_eq`, `Text.snug_of_collapse_eq` — trimmed and collapsed texts are snug
* `Text.split_join` — splitting undoes joining
* `Text.has_iff` — searching finds the words that occur
* `Text.replace_singleton` — replacing a byte
* `Text.mem_sortUnique`, `Text.sortUnique_eq_self`, `Text.ordered_sortUnique` — putting a list
  in order
* `Text.Ordered.ext` — members tell what such a list is
-/

namespace Stylesheet.Text

/-! ### White space at the ends -/

/-- A white-space character at the start of a text starts all that the text is the start
of. -/
theorem spaceWidth_eq_zero_of_append {t u : Text} (ht : t ≠ []) (h : spaceWidth (t ++ u) = 0) :
    spaceWidth t = 0 := by
  match t with
  | [] => exact absurd rfl ht
  | [a] =>
    have ha : blank1 a = false := by
      match u with
      | [] => grind [spaceWidth]
      | [b] => grind [spaceWidth]
      | b :: c :: u => grind [spaceWidth]
    simp [spaceWidth, ha]
  | [a, b] =>
    have hab : blank1 a = false ∧ blank2 a b = false := by
      match u with
      | [] => grind [spaceWidth]
      | c :: u => grind [spaceWidth]
    simp [spaceWidth, hab]
  | a :: b :: c :: t => exact h

/-- A byte that starts a character. -/
def isLead (c : UInt8) : Bool := c < 0x80 || 0xC0 ≤ c

/-- Only the first byte of a white-space character starts a character. -/
theorem isLead_of_blank2 {a b : UInt8} (h : blank2 a b = true) :
    isLead a = true ∧ isLead b = false := by
  simp only [blank2, Bool.and_eq_true, Bool.or_eq_true, decide_eq_true_eq] at h
  rcases h with ⟨rfl, rfl | rfl⟩ <;> decide

theorem isLead_of_blank3 {a b c : UInt8} (h : blank3 a b c = true) :
    isLead a = true ∧ isLead b = false ∧ isLead c = false := by
  have hrange : ∀ c : UInt8, (0x80 ≤ c && c ≤ 0x8A) = true → isLead c = false := by
    intro c hc
    grind [isLead]
  simp only [blank3, Bool.or_eq_true, Bool.and_eq_true, decide_eq_true_eq] at h
  rcases h with ((⟨⟨rfl, rfl⟩, rfl⟩ | ⟨⟨rfl, rfl⟩, ((hc | rfl) | rfl) | rfl⟩) | ⟨⟨rfl, rfl⟩, rfl⟩) |
    ⟨⟨rfl, rfl⟩, rfl⟩
  case inl.inl.inr.inl.inl.inl => exact ⟨by decide, by decide, hrange c (by simpa using hc)⟩
  all_goals decide

/-- An ASCII character continues no white-space character. -/
theorem blank2_eq_false_of_ascii {a c : UInt8} (hc : c < 0x80) : blank2 a c = false := by
  grind [blank2]

theorem blank3_eq_false_of_ascii {a b c : UInt8} (h : b < 0x80 ∨ c < 0x80) :
    blank3 a b c = false := by
  grind [blank3]

/-- A byte that starts a character continues no white-space character. -/
theorem spaceWidth_append_lead {t u : Text} {c : UInt8} (ht : t ≠ []) (hc : isLead c = true)
    (h : spaceWidth t = 0) : spaceWidth (t ++ c :: u) = 0 := by
  have htwo (a : UInt8) : blank2 a c = false := by
    rw [← Bool.not_eq_true]
    exact fun h => by simp [isLead_of_blank2 h] at hc
  have hthree (a b : UInt8) : blank3 a c b = false ∧ blank3 a b c = false := by
    rw [← Bool.not_eq_true, ← Bool.not_eq_true]
    exact ⟨fun h => by simp [isLead_of_blank3 h] at hc, fun h => by simp [isLead_of_blank3 h] at hc⟩
  match t with
  | [] => exact absurd rfl ht
  | [a] =>
    have ha : blank1 a = false := by grind [spaceWidth]
    cases u with
    | nil => simp [spaceWidth, ha, htwo]
    | cons d u => simp [spaceWidth, ha, htwo, hthree]
  | [a, b] =>
    have hab : blank1 a = false ∧ blank2 a b = false := by grind [spaceWidth]
    simp [spaceWidth, hab, hthree]
  | a :: b :: c :: t => exact h

theorem spaceWidth_append_ascii {t u : Text} {c : UInt8} (ht : t ≠ []) (hc : c < 0x80)
    (h : spaceWidth t = 0) : spaceWidth (t ++ c :: u) = 0 :=
  spaceWidth_append_lead ht (by simp [isLead, hc]) h

/-- As `spaceWidth_append_ascii`, for texts given last byte first: an ASCII character
starts no longer white-space character. -/
theorem spaceWidthRev_append_ascii {t u : Text} {c : UInt8} (ht : t ≠ []) (hc : c < 0x80)
    (h : spaceWidthRev t = 0) : spaceWidthRev (t ++ c :: u) = 0 := by
  have hlead2 (a : UInt8) : blank2 c a = false := by grind [blank2]
  have hlead3 (a b : UInt8) : blank3 c a b = false := by grind [blank3]
  match t with
  | [] => exact absurd rfl ht
  | [a] =>
    have ha : blank1 a = false := by grind [spaceWidthRev]
    cases u with
    | nil => simp [spaceWidthRev, ha, hlead2]
    | cons d u => simp [spaceWidthRev, ha, hlead2, blank3_eq_false_of_ascii (.inl hc)]
  | [a, b] =>
    have hab : blank1 a = false ∧ blank2 b a = false := by grind [spaceWidthRev]
    simp [spaceWidthRev, hab, hlead3]
  | a :: b :: c :: t => exact h

/-- No white space at either end of a text that is not empty. -/
structure Snug (t : Text) : Prop where
  ne_nil : t ≠ []
  start : spaceWidth t = 0
  stop : spaceWidthRev t.reverse = 0

theorem dropSpace_eq_self {width : Text → Nat} {t : Text} (h : width t = 0) :
    dropSpace width 0 t = t := by
  cases t with
  | nil => rfl
  | cons a r => rw [dropSpace, h]

theorem length_dropSpace_le (width : Text → Nat) (k : Nat) (t : Text) :
    (dropSpace width k t).length ≤ t.length := by
  fun_induction dropSpace width k t with
  | case1 => exact Nat.le_refl _
  | case2 => exact Nat.le_refl _
  | case3 a r w _ ih => exact Nat.le_succ_of_le ih
  | case4 k a r ih => exact Nat.le_succ_of_le ih

/-- Nothing is dropped only where there is nothing to drop. -/
theorem width_eq_zero_of_dropSpace {width : Text → Nat} {t : Text} (ht : t ≠ [])
    (h : t.length ≤ (dropSpace width 0 t).length) : width t = 0 := by
  cases t with
  | nil => exact absurd rfl ht
  | cons a r =>
    cases hw : width (a :: r) with
    | zero => rfl
    | succ w =>
      rw [dropSpace, hw] at h
      have hle := length_dropSpace_le width w r
      simp only [List.length_cons] at h
      omega

theorem dropSpace_blank {width : Text → Nat} {w t : Text}
    (hwidth : ∀ a r, blank1 a = true → width (a :: r) = 1) (hw : ∀ c ∈ w, blank1 c = true) :
    dropSpace width 0 (w ++ t) = dropSpace width 0 t := by
  induction w with
  | nil => rfl
  | cons a w ih =>
    rw [List.cons_append, dropSpace, hwidth a _ (hw a List.mem_cons_self)]
    exact ih fun c hc => hw c (List.mem_cons_of_mem a hc)

theorem spaceWidth_blank (a : UInt8) (r : Text) (h : blank1 a = true) :
    spaceWidth (a :: r) = 1 := by
  match r with
  | [] => simp [spaceWidth, h]
  | [b] => simp [spaceWidth, h]
  | b :: c :: r => simp [spaceWidth, h]

/-- White space at the start is trimmed away. -/
theorem trim_blank_append {w : Text} (hw : ∀ c ∈ w, blank1 c = true) (t : Text) :
    trim (w ++ t) = trim t := by
  rw [trim, trimLeft, dropSpace_blank spaceWidth_blank hw]
  rfl

theorem spaceWidthRev_blank (a : UInt8) (r : Text) (h : blank1 a = true) :
    spaceWidthRev (a :: r) = 1 := by
  match r with
  | [] => simp [spaceWidthRev, h]
  | [b] => simp [spaceWidthRev, h]
  | b :: c :: r => simp [spaceWidthRev, h]

theorem ascii_of_blank1 {c : UInt8} (h : blank1 c = true) : c < 0x80 := by
  simp only [blank1, isSpace, Bool.or_eq_true, decide_eq_true_eq] at h
  rcases h with ((((rfl | rfl) | rfl) | rfl) | rfl) | rfl <;> decide

/-- Trimming takes padding off a snug text. -/
theorem Snug.trim_pad {t w v : Text} (h : Snug t) (hw : ∀ c ∈ w, blank1 c = true)
    (hv : ∀ c ∈ v, blank1 c = true) : trim (w ++ t ++ v) = t := by
  have hstart : spaceWidth (t ++ v) = 0 := by
    cases v with
    | nil => simpa using h.start
    | cons c v =>
      exact spaceWidth_append_ascii h.ne_nil (ascii_of_blank1 (hv c List.mem_cons_self)) h.start
  have hleft : trimLeft (w ++ t ++ v) = t ++ v := by
    rw [trimLeft, List.append_assoc, dropSpace_blank spaceWidth_blank hw, dropSpace_eq_self hstart]
  have hright : dropSpace spaceWidthRev 0 (v.reverse ++ t.reverse) = t.reverse := by
    rw [dropSpace_blank spaceWidthRev_blank (by simpa using hv), dropSpace_eq_self h.stop]
  rw [trim, hleft, trimRight, List.reverse_append, hright, List.reverse_reverse]

theorem Snug.trim_eq {t : Text} (h : Snug t) : trim t = t := by
  simpa using h.trim_pad (w := []) (v := []) (by simp) (by simp)

/-- A text that trimming leaves as it is has no white space at its ends. -/
theorem snug_of_trim_eq {t : Text} (hne : t ≠ []) (h : trim t = t) : Snug t := by
  have hlength : t.length = (trimRight (trimLeft t)).length := congrArg List.length h.symm
  have hright : (trimRight (trimLeft t)).length ≤ (trimLeft t).length := by
    simpa [trimRight] using length_dropSpace_le spaceWidthRev 0 (trimLeft t).reverse
  have hleft : (trimLeft t).length ≤ t.length := length_dropSpace_le spaceWidth 0 t
  have hstart : spaceWidth t = 0 :=
    width_eq_zero_of_dropSpace hne (by rw [← trimLeft]; omega)
  have hsame : trimLeft t = t := dropSpace_eq_self hstart
  refine ⟨hne, hstart, width_eq_zero_of_dropSpace (by simpa using hne) ?_⟩
  rw [hsame, trimRight, List.length_reverse] at hlength
  rw [List.length_reverse]
  omega

theorem spaceWidthRev_ascii {c : UInt8} (hc : c < 0x80) (hblank : blank1 c = false) (r : Text) :
    spaceWidthRev (c :: r) = 0 := by
  match r with
  | [] => simp [spaceWidthRev, hblank]
  | [a] => simp [spaceWidthRev, hblank, blank2_eq_false_of_ascii hc]
  | a :: b :: r =>
    simp [spaceWidthRev, hblank, blank2_eq_false_of_ascii hc, blank3_eq_false_of_ascii (.inr hc)]

theorem spaceWidth_ascii {c : UInt8} (hc : c < 0x80) (hblank : blank1 c = false) (r : Text) :
    spaceWidth (c :: r) = 0 := by
  have hlead2 (a : UInt8) : blank2 c a = false := by grind [blank2]
  have hlead3 (a b : UInt8) : blank3 c a b = false := by grind [blank3]
  match r with
  | [] => simp [spaceWidth, hblank]
  | [a] => simp [spaceWidth, hblank, hlead2]
  | a :: b :: r => simp [spaceWidth, hblank, hlead2, hlead3]

theorem snug_of_ascii {t : Text} (hne : t ≠ []) (ht : ∀ c ∈ t, c < 0x80 ∧ blank1 c = false) :
    Snug t := by
  refine ⟨hne, ?_, ?_⟩
  · obtain ⟨c, r, rfl⟩ := List.exists_cons_of_ne_nil hne
    exact spaceWidth_ascii (ht c List.mem_cons_self).1 (ht c List.mem_cons_self).2 r
  · obtain ⟨c, r, hr⟩ := List.exists_cons_of_ne_nil (List.reverse_ne_nil_iff.mpr hne)
    have hc : c ∈ t := List.mem_reverse.mp (hr ▸ List.mem_cons_self)
    rw [hr]
    exact spaceWidthRev_ascii (ht c hc).1 (ht c hc).2 r

/-- Two snug texts with ASCII characters between them. -/
theorem Snug.append {t u v : Text} (ht : Snug t) (hv : Snug v) (hne : u ≠ [])
    (hu : ∀ c ∈ u, c < 0x80) : Snug (t ++ u ++ v) := by
  refine ⟨by simp [ht.ne_nil], ?_, ?_⟩
  · obtain ⟨c, a, rfl⟩ := List.exists_cons_of_ne_nil hne
    rw [List.append_assoc, List.cons_append]
    exact spaceWidth_append_ascii ht.ne_nil (hu c List.mem_cons_self) ht.start
  · obtain ⟨c, a, ha⟩ := List.exists_cons_of_ne_nil (List.reverse_ne_nil_iff.mpr hne)
    have hc : c ∈ u := List.mem_reverse.mp (ha ▸ List.mem_cons_self)
    rw [List.reverse_append, List.reverse_append, ha]
    exact spaceWidthRev_append_ascii (by simpa using hv.ne_nil) (hu c hc) hv.stop

/-- A snug text, and what follows it up to an ASCII character that is not white space. -/
theorem Snug.upto {t u : Text} (ht : Snug t) {c d : UInt8} (hc : c < 0x80)
    (hlast : (t ++ c :: u).getLast? = some d) (hd : d < 0x80) (hblank : blank1 d = false) :
    Snug (t ++ c :: u) := by
  refine ⟨by simp, spaceWidth_append_ascii ht.ne_nil hc ht.start, ?_⟩
  obtain ⟨v, hv⟩ := List.getLast?_eq_some_iff.mp hlast
  rw [hv, List.reverse_append]
  exact spaceWidthRev_ascii hd hblank _

theorem Snug.snoc {t : Text} (ht : Snug t) {d : UInt8} (hd : d < 0x80) (hblank : blank1 d = false) :
    Snug (t ++ [d]) :=
  ht.upto hd (by simp) hd hblank

theorem isBlank_of_blank1 {w : Text} (hw : ∀ c ∈ w, blank1 c = true) : isBlank w = true := by
  have hleft : trimLeft w = [] := by
    have h := dropSpace_blank (t := []) spaceWidth_blank hw
    rwa [List.append_nil] at h
  rw [isBlank, trim, hleft]
  rfl

/-! ### Words -/

/-- Nowhere in a text does a white-space character start. -/
def Solid (t : Text) : Prop := ∀ v, v ≠ [] → v <:+ t → spaceWidth v = 0

theorem blank1_eq_false_of_spaceWidth {a : UInt8} {r : Text} (h : spaceWidth (a :: r) = 0) :
    blank1 a = false := by
  match r with
  | [] => grind [spaceWidth]
  | [b] => grind [spaceWidth]
  | b :: c :: r => grind [spaceWidth]

theorem Solid.not_blank1 {t : Text} (h : Solid t) {c : UInt8} (hc : c ∈ t) : blank1 c = false := by
  obtain ⟨u, v, rfl⟩ := List.append_of_mem hc
  exact blank1_eq_false_of_spaceWidth (h (c :: v) (by simp) (List.suffix_append u _))

/-- The character that a text ends with starts at one of its suffixes. -/
theorem exists_suffix_of_spaceWidthRev {t : Text} (h : spaceWidthRev t.reverse ≠ 0) :
    ∃ v, v ≠ [] ∧ v <:+ t ∧ spaceWidth v ≠ 0 := by
  obtain ⟨r, rfl⟩ : ∃ r : Text, t = r.reverse := ⟨t.reverse, by simp⟩
  rw [List.reverse_reverse] at h
  match r with
  | [] => exact absurd rfl h
  | [a] => exact ⟨[a], by simp, List.suffix_refl _, by grind [spaceWidth, spaceWidthRev]⟩
  | [a, b] =>
    by_cases ha : blank1 a = true
    · exact ⟨[a], by simp, ⟨[b], by simp⟩, by simp [spaceWidth, ha]⟩
    · exact ⟨[b, a], by simp, ⟨[], by simp⟩, by grind [spaceWidth, spaceWidthRev]⟩
  | a :: b :: c :: r =>
    by_cases ha : blank1 a = true
    · exact ⟨[a], by simp, ⟨(b :: c :: r).reverse, by simp⟩, by simp [spaceWidth, ha]⟩
    by_cases hba : blank2 b a = true
    · exact ⟨[b, a], by simp, ⟨(c :: r).reverse, by simp⟩, by grind [spaceWidth]⟩
    · exact ⟨[c, b, a], by simp, ⟨r.reverse, by simp⟩, by grind [spaceWidth, spaceWidthRev]⟩

theorem Solid.snug {t : Text} (h : Solid t) (hne : t ≠ []) : Snug t := by
  refine ⟨hne, h t hne (List.suffix_refl t), ?_⟩
  by_contra hstop
  obtain ⟨v, hv, hsuffix, hwidth⟩ := exists_suffix_of_spaceWidthRev hstop
  exact hwidth (h v hv hsuffix)

theorem solid_of_mem_flush {word t : Text}
    (hword : ∀ v, v ≠ [] → v <:+ word.reverse → spaceWidth (v ++ t) = 0) :
    ∀ w ∈ flush word, w ≠ [] ∧ Solid w := by
  intro w hw
  rw [flush] at hw
  split_ifs at hw with hempty
  · exact absurd hw List.not_mem_nil
  obtain rfl := List.mem_singleton.mp hw
  refine ⟨by simpa using hempty, fun v hv hsuffix => ?_⟩
  exact spaceWidth_eq_zero_of_append hv (hword v hv hsuffix)

/-- The words of a text are solid. The word under way is solid together with what comes
after it, which the induction needs at the next byte. -/
theorem solid_of_mem_fieldsFrom {k : Nat} {word t : Text}
    (hword : ∀ v, v ≠ [] → v <:+ word.reverse → spaceWidth (v ++ t) = 0)
    (hskip : k ≠ 0 → word = []) : ∀ w ∈ fieldsFrom k word t, w ≠ [] ∧ Solid w := by
  have hnone {t : Text} (v : Text) (hv : v ≠ []) (hsuffix : v <:+ [].reverse) :
      spaceWidth (v ++ t) = 0 := absurd (List.suffix_nil.mp hsuffix) hv
  fun_induction fieldsFrom k word t with
  | case1 => exact solid_of_mem_flush hword
  | case2 word a r hwidth ih =>
    refine ih (fun v hv hsuffix => ?_) fun h => absurd rfl h
    rw [List.reverse_cons] at hsuffix
    obtain rfl | ⟨v', rfl, hsuffix'⟩ := List.suffix_concat_iff.mp hsuffix
    · exact absurd rfl hv
    · rw [List.append_assoc, List.singleton_append]
      by_cases hv' : v' = []
      · rw [hv']
        exact hwidth
      · exact hword v' hv' hsuffix'
  | case3 word a r w hwidth ih =>
    intro u hu
    rcases List.mem_append.mp hu with hu | hu
    · exact solid_of_mem_flush hword u hu
    · exact ih hnone (fun _ => rfl) u hu
  | case4 k word a r ih =>
    obtain rfl := hskip (Nat.succ_ne_zero k)
    exact ih hnone fun _ => rfl

theorem solid_of_mem_fields {t w : Text} (h : w ∈ fields t) : w ≠ [] ∧ Solid w :=
  solid_of_mem_fieldsFrom (fun _ hv hsuffix => absurd (List.suffix_nil.mp hsuffix) hv)
    (fun _ => rfl) w h

/-! ### Joining and splitting -/

@[simp] theorem join_nil (sep : Text) : join sep [] = [] := rfl

@[simp] theorem join_singleton (sep t : Text) : join sep [t] = t := by simp [join]

theorem join_cons_cons (sep t u : Text) (ts : List Text) :
    join sep (t :: u :: ts) = t ++ sep ++ join sep (u :: ts) := by
  simp [join, List.intercalate_cons_cons]

theorem join_cons (sep t : Text) (ts : List Text) :
    join sep (t :: ts) = t ++ ts.flatMap (sep ++ ·) := by
  induction ts generalizing t with
  | nil => simp
  | cons u ts ih => rw [join_cons_cons, ih, List.flatMap_cons, List.append_assoc, List.append_assoc]

theorem getLast?_join {sep : Text} {ts : List Text} (hts : ∀ t ∈ ts, t ≠ []) :
    (join sep ts).getLast? = ts.getLast?.bind List.getLast? := by
  induction ts with
  | nil => rfl
  | cons t ts ih =>
    cases ts with
    | nil => simp
    | cons u ts =>
      have hrest := ih fun v hv => hts v (List.mem_cons_of_mem t hv)
      obtain ⟨v, hv⟩ : ∃ v, (u :: ts).getLast? = some v :=
        ⟨_, List.getLast?_eq_some_getLast (by simp)⟩
      have hmem : v ∈ t :: u :: ts := List.mem_cons_of_mem t (List.mem_of_getLast? hv)
      obtain ⟨c, hc⟩ : ∃ c, v.getLast? = some c :=
        ⟨_, List.getLast?_eq_some_getLast (hts v hmem)⟩
      rw [hv, Option.bind_some, hc] at hrest
      rw [join_cons_cons, List.getLast?_append, hrest, List.getLast?_cons_cons, hv,
        Option.bind_some, hc]
      rfl

/-- Snug texts joined by ASCII characters. -/
theorem snug_join {sep : Text} {ts : List Text} (hne : ts ≠ []) (hts : ∀ t ∈ ts, Snug t)
    (hsep : sep ≠ []) (hascii : ∀ c ∈ sep, c < 0x80) : Snug (join sep ts) := by
  induction ts with
  | nil => exact absurd rfl hne
  | cons t ts ih =>
    cases ts with
    | nil => simpa using hts t List.mem_cons_self
    | cons u ts =>
      rw [join_cons_cons]
      refine (hts t List.mem_cons_self).append (ih (by simp) fun v hv => ?_) hsep hascii
      exact hts v (List.mem_cons_of_mem t hv)

/-- A collapsed text that is not empty has no white space at its ends. -/
theorem snug_of_collapse_eq {t : Text} (hne : t ≠ []) (h : collapse t = t) : Snug t := by
  rw [← h, collapse]
  refine snug_join ?_ (fun w hw => ?_) (by simp) (by decide)
  · rintro hnil
    rw [collapse, hnil] at h
    exact hne h.symm
  · obtain ⟨hw, hsolid⟩ := solid_of_mem_fields hw
    exact hsolid.snug hw

theorem mem_join {sep : Text} {ts : List Text} {c : UInt8} (h : c ∈ join sep ts) :
    c ∈ sep ∨ ∃ t ∈ ts, c ∈ t := by
  induction ts with
  | nil => exact absurd h List.not_mem_nil
  | cons t ts ih =>
    cases ts with
    | nil => exact .inr ⟨t, List.mem_cons_self, by simpa using h⟩
    | cons u ts =>
      rw [join_cons_cons] at h
      rcases List.mem_append.mp h with h | h
      · rcases List.mem_append.mp h with h | h
        · exact .inr ⟨t, List.mem_cons_self, h⟩
        · exact .inl h
      · rcases ih h with h | ⟨v, hv, h⟩
        · exact .inl h
        · exact .inr ⟨v, List.mem_cons_of_mem t hv, h⟩

/-- The only white space of one byte in a collapsed text is the space. -/
theorem eq_space_of_collapse_eq {t : Text} (h : collapse t = t) {c : UInt8} (hc : c ∈ t)
    (hblank : blank1 c = true) : c = ch ' ' := by
  rw [← h, collapse] at hc
  rcases mem_join hc with hc | ⟨w, hw, hc⟩
  · exact List.mem_singleton.mp hc
  · rw [(solid_of_mem_fields hw).2.not_blank1 hc] at hblank
    exact absurd hblank Bool.false_ne_true

theorem collapse_space_cons (t : Text) : collapse (ch ' ' :: t) = collapse t := by
  have hwidth : spaceWidth (ch ' ' :: t) = 1 := spaceWidth_blank _ t (by decide)
  rw [collapse, collapse, fields, fields, fieldsFrom, hwidth]
  rfl

theorem splitFrom_eq (sep : UInt8) (part t : Text) :
    splitFrom sep part t = List.splitOnPPrepend (· == sep) t part := by
  fun_induction splitFrom sep part t with
  | case1 => rfl
  | case2 part r ih =>
    rw [List.splitOnPPrepend_cons_pos (by simp), ih]
    rfl
  | case3 part a r ha ih => rw [List.splitOnPPrepend_cons_neg (by simpa using ha), ih]

theorem split_eq_splitOn (sep : UInt8) (t : Text) : split sep t = t.splitOn sep :=
  splitFrom_eq sep [] t

theorem split_append_cons {sep : UInt8} {t : Text} (ht : sep ∉ t) (u : Text) :
    split sep (t ++ sep :: u) = t :: split sep u := by
  rw [split_eq_splitOn, split_eq_splitOn]
  exact List.splitOn_append_cons_self_of_not_mem ht u

theorem not_mem_of_mem_splitFrom {sep : UInt8} {part t u : Text} (hpart : sep ∉ part)
    (hu : u ∈ splitFrom sep part t) : sep ∉ u := by
  fun_induction splitFrom sep part t with
  | case1 part =>
    obtain rfl := List.mem_singleton.mp hu
    exact fun h => hpart (List.mem_reverse.mp h)
  | case2 part r ih =>
    rcases List.mem_cons.mp hu with rfl | hu
    · exact fun h => hpart (List.mem_reverse.mp h)
    · exact ih List.not_mem_nil hu
  | case3 part a r ha ih => exact ih (List.not_mem_cons_of_ne_of_not_mem (Ne.symm ha) hpart) hu

/-- A part has no separator. -/
theorem not_mem_of_mem_split {sep : UInt8} {t u : Text} (hu : u ∈ split sep t) : sep ∉ u :=
  not_mem_of_mem_splitFrom List.not_mem_nil hu

/-- Joining undoes splitting. -/
theorem join_split (sep : UInt8) (t : Text) : join [sep] (split sep t) = t := by
  rw [split_eq_splitOn]
  exact List.intercalate_splitOn sep

/-- Splitting undoes joining parts without the separator. -/
theorem split_join {sep : UInt8} {ts : List Text} (hne : ts ≠ []) (hts : ∀ t ∈ ts, sep ∉ t) :
    split sep (join [sep] ts) = ts := by
  rw [split_eq_splitOn]
  exact List.splitOn_intercalate sep hts hne

/-- Of a property that the start of a text can be taken off from: the parts between the separators
have it if and only if each separator stands behind a text that has it. -/
theorem forall_mem_split_iff {P : Text → Prop} {sep : UInt8}
    (happend : ∀ {u} v, P u → (P (u ++ v) ↔ P v)) (hsep : P [sep]) {t : Text} (ht : P t) :
    (∀ p ∈ split sep t, P p) ↔ ∀ u v, t = u ++ sep :: v → P u := by
  have hdrop (u v : Text) (hu : P u) : P (u ++ sep :: v) ↔ P v := by
    rw [happend _ hu, ← List.singleton_append, happend _ hsep]
  induction hn : t.length using Nat.strongRecOn generalizing t with
  | _ n ih =>
    by_cases hmem : sep ∈ t
    · obtain ⟨p, rest, rfl, hp⟩ := List.eq_append_cons_of_mem hmem
      rw [split_append_cons hp, List.forall_mem_cons]
      have hless : rest.length < n := by
        rw [← hn, List.length_append, List.length_cons]
        omega
      constructor
      · rintro ⟨hpart, hparts⟩ u v huv
        have hrest := (ih _ hless ((hdrop p rest hpart).mp ht) rfl).mp hparts
        rcases List.append_eq_append_iff.mp huv with ⟨w, rfl, hw⟩ | ⟨w, rfl, hw⟩
        · cases w with
          | nil => simpa using hpart
          | cons c w =>
            obtain ⟨rfl, hrest'⟩ := List.cons.inj hw
            exact (hdrop p w hpart).mpr (hrest w v hrest')
        · cases w with
          | nil => simpa using hpart
          | cons c w =>
            -- the first separator would stand in the part before it
            obtain ⟨rfl, -⟩ := List.cons.inj hw
            exact absurd (by simp) hp
      · intro hfree
        have hpart : P p := hfree p rest rfl
        refine ⟨hpart, (ih _ hless ((hdrop p rest hpart).mp ht) rfl).mpr fun u v huv => ?_⟩
        exact (hdrop p u hpart).mp (hfree (p ++ sep :: u) v (by simp [huv]))
    · have halone : split sep t = [t] := by
        simpa using split_join (List.cons_ne_nil t []) fun u hu => List.mem_singleton.mp hu ▸ hmem
      rw [halone]
      constructor
      · intro _ u v huv
        exact absurd (huv ▸ by simp) hmem
      · intro _ p hp
        obtain rfl := List.mem_singleton.mp hp
        exact ht

theorem mem_join_iff {sep : Text} {ts : List Text} {c : UInt8} (hc : c ∉ sep) :
    c ∈ join sep ts ↔ ∃ t ∈ ts, c ∈ t := by
  cases ts with
  | nil => simp
  | cons t ts => simp [join_cons, hc]

/-! ### Slices -/

/-- A slice that starts where a part of the text does. -/
theorem slice_append {a b c : Text} {n : Nat} (hn : n ≤ b.length) :
    slice (a ++ b ++ c) a.length (a.length + n) = b.take n := by
  rw [slice, List.append_assoc, List.take_length_add_append, List.drop_left,
    List.take_append_of_le_length hn]

/-- The slice that is a part of the text. -/
theorem slice_middle {t a b c : Text} (h : t = a ++ b ++ c) :
    slice t a.length (a ++ b).length = b := by
  rw [h, List.length_append, slice_append (Nat.le_refl _), List.take_length]

/-! ### Occurrences -/

theorem findFrom_isSome_iff {p t : Text} {i : Nat} : (findFrom p i t).isSome ↔ p <:+: t := by
  induction t generalizing i with
  | nil => simp [findFrom]
  | cons a r ih =>
    rw [findFrom, List.infix_cons_iff, ← ih (i := i + 1), starts]
    split_ifs with hstart
    · simp [List.isPrefixOf_iff_prefix.mp hstart]
    · have hno : ¬ p <+: a :: r := fun h => hstart (List.isPrefixOf_iff_prefix.mpr h)
      simp [hno]

theorem has_iff {p t : Text} : has t p = true ↔ p <:+: t := findFrom_isSome_iff

@[simp] theorem has_self (t : Text) : has t t = true := has_iff.mpr List.infix_rfl

/-- The first of a kind is where none stand before it. -/
theorem indexOf_append_cons {c : UInt8} {t : Text} (ht : c ∉ t) (u : Text) :
    indexOf c (t ++ c :: u) = some t.length := by
  have hbefore : t.findIdx? (· = c) = none := by
    rw [List.findIdx?_eq_none_iff]
    intro d hd
    simpa using ne_of_mem_of_not_mem hd ht
  rw [indexOf, List.findIdx?_append, hbefore, Option.none_or]
  simp [List.findIdx?_cons]

/-! ### Replacing a byte -/

theorem replace_singleton (q : UInt8) (new t : Text) :
    replace [q] new t = t.flatMap fun c => if c = q then new else [c] := by
  rw [replace]
  induction t with
  | nil => rfl
  | cons c t ih =>
    have hstarts : starts (c :: t) [q] = decide (c = q) := by
      rw [starts, List.isPrefixOf, List.isPrefixOf, Bool.and_true]
      exact decide_eq_decide.mpr eq_comm
    rw [replaceFrom, hstarts, List.flatMap_cons, ← ih]
    by_cases hc : c = q <;> simp [hc]

/-- A byte that is not there is not replaced. -/
theorem replace_eq_self {q : UInt8} {t : Text} (ht : q ∉ t) (new : Text) :
    replace [q] new t = t := by
  rw [replace_singleton, List.flatMap_congr (g := fun c => [c]) fun c hc => if_neg ?_,
    List.flatMap_singleton']
  rintro rfl
  exact ht hc

/-! ### Lists in order -/

theorem mem_compact {ts : List Text} {t : Text} : t ∈ compact ts ↔ t ∈ ts := by
  fun_induction compact ts with
  | case1 => rfl
  | case2 => rfl
  | case3 a r ih => simp [ih]
  | case4 a b r _ ih => simp [ih]

/-- A list put in order has the same members. -/
theorem mem_sortUnique {ts : List Text} {t : Text} : t ∈ sortUnique ts ↔ t ∈ ts :=
  mem_compact.trans List.mem_mergeSort

theorem compact_eq_self {ts : List Text} (hts : ts.Nodup) : compact ts = ts := by
  fun_induction compact ts with
  | case1 => rfl
  | case2 => rfl
  | case3 a r => simp at hts
  | case4 a b r _ ih => rw [ih hts.of_cons]

/-- A list in order without duplicates is left as it is. -/
theorem sortUnique_eq_self {ts : List Text} (hsorted : ts.Pairwise fun s t => le s t = true)
    (hnodup : ts.Nodup) : sortUnique ts = ts := by
  rw [sortUnique, sort, List.mergeSort_of_pairwise hsorted, compact_eq_self hnodup]

theorem le_total (s t : Text) : le s t = true ∨ le t s = true := by
  fun_induction le s t with
  | case1 => exact .inl rfl
  | case2 => exact .inr rfl
  | case3 a r u ih => simpa [le] using ih
  | case4 a r b u hab =>
    have hba : b ≠ a := Ne.symm hab
    simp only [le, if_neg hba, decide_eq_true_eq]
    exact UInt8.lt_or_lt_of_ne hab

theorem le_trans {s t u : Text} (hst : le s t = true) (htu : le t u = true) :
    le s u = true := by
  induction s generalizing t u with
  | nil => rfl
  | cons a s ih =>
    cases t with
    | nil => simp [le] at hst
    | cons b t =>
      cases u with
      | nil => simp [le] at htu
      | cons c u =>
        simp only [le] at hst htu ⊢
        by_cases hab : a = b
        · subst hab
          by_cases hac : a = c
          · simp only [hac, if_true] at hst htu ⊢
            exact ih hst htu
          · simpa [hac] using htu
        · simp only [hab, if_false, decide_eq_true_eq] at hst
          by_cases hbc : b = c
          · subst hbc
            simpa [hab] using hst
          · simp only [hbc, if_false, decide_eq_true_eq] at htu
            have hac : a < c := UInt8.lt_trans hst htu
            simp [UInt8.ne_of_lt hac, hac]

theorem le_antisymm {s t : Text} (hst : le s t = true) (hts : le t s = true) : s = t := by
  induction s generalizing t with
  | nil =>
    cases t with
    | nil => rfl
    | cons b t => simp [le] at hts
  | cons a s ih =>
    cases t with
    | nil => simp [le] at hst
    | cons b t =>
      simp only [le] at hst hts
      by_cases hab : a = b
      · subst hab
        simp only [if_true] at hst hts
        rw [ih hst hts]
      · simp only [hab, Ne.symm hab, if_false, decide_eq_true_eq] at hst hts
        exact absurd hts (UInt8.lt_asymm hst)

theorem lt_of_le_of_ne {s t : Text} (h : le s t = true) (hne : s ≠ t) : lt s t = true := by
  rw [lt, Bool.not_eq_true', ← Bool.not_eq_true]
  exact fun hts => hne (le_antisymm h hts)

/-- In the order of bytes, and each once. -/
structure Ordered (ts : List Text) : Prop where
  sorted : ts.Pairwise fun s t => le s t = true
  nodup : ts.Nodup

theorem ordered_compact {ts : List Text} (hts : ts.Pairwise fun s t => le s t = true) :
    Ordered (compact ts) := by
  fun_induction compact ts with
  | case1 => exact ⟨.nil, .nil⟩
  | case2 a => exact ⟨List.pairwise_singleton _ a, by simp⟩
  | case3 a r ih => exact ih hts.of_cons
  | case4 a b r hab ih =>
    obtain ⟨hfirst, hrest⟩ := List.pairwise_cons.mp hts
    have hordered := ih hrest
    refine ⟨List.pairwise_cons.mpr ⟨fun t ht => hfirst t (mem_compact.mp ht), hordered.sorted⟩,
      List.nodup_cons.mpr ⟨fun ha => ?_, hordered.nodup⟩⟩
    -- A copy of `a` further on would put `b` both after and before `a`.
    rcases List.mem_cons.mp (mem_compact.mp ha) with rfl | ha
    · exact hab rfl
    · have hba := (List.pairwise_cons.mp hrest).1 a ha
      exact hab (le_antisymm (hfirst b List.mem_cons_self) hba)

/-- Putting a list in order does that. -/
theorem ordered_sortUnique (ts : List Text) : Ordered (sortUnique ts) := by
  refine ordered_compact (@List.pairwise_mergeSort Text le (fun _ _ _ => le_trans) ?_ ts)
  intro s t
  exact Bool.or_eq_true_iff.mpr (le_total s t)

/-- Such a list is in strict order. -/
theorem Ordered.strict {ts : List Text} (h : Ordered ts) : ts.Pairwise fun s t => lt s t = true :=
  h.sorted.imp₂ (fun _ _ hle hne => lt_of_le_of_ne hle hne) h.nodup

/-- There is one such list of given members. -/
theorem Ordered.ext {ts us : List Text} (hts : Ordered ts) (hus : Ordered us)
    (h : ∀ t, t ∈ ts ↔ t ∈ us) : ts = us :=
  ((List.perm_ext_iff_of_nodup hts.nodup hus.nodup).mpr h).eq_of_pairwise
    (fun _ _ _ _ => le_antisymm) hts.sorted hus.sorted

theorem sortUnique_congr {ts us : List Text} (h : ∀ t, t ∈ ts ↔ t ∈ us) :
    sortUnique ts = sortUnique us :=
  (ordered_sortUnique ts).ext (ordered_sortUnique us) fun t => by
    rw [mem_sortUnique, mem_sortUnique, h]

end Stylesheet.Text
