import Mathlib.Tactic.SplitIfs
import Stylesheet.Proofs.Text
import Stylesheet.Proofs.Text.Space

/-!
# Words and the white space between them

White space divides a text into words, whatever stands around it: a white-space character
starts with a byte that continues no other. So one space does as well as any white space. A
text without white space at its ends can be collapsed wherever it stands, and what is put in
place of its other bytes does not change that.

## Main definitions

* `Text.Spelled` — a text is given words with white space between them
* `Text.SameWords` — one text can stand for another

## Main results

* `Text.fields_append_spaces` — white space divides the words of a text
* `Text.Snug.sameWords_flatMap` — a text without white space at its ends can be collapsed
* `Text.collapse_append_space` — two texts with a space between them
-/

namespace Stylesheet.Text

/-! ### White space divides words -/

/-- White space at the start of a text is there whatever follows. -/
theorem spaceWidth_append {t : Text} (h : spaceWidth t ≠ 0) (u : Text) :
    spaceWidth (t ++ u) = spaceWidth t := by
  match t with
  | [] => exact absurd rfl h
  | [a] =>
    have ha : blank1 a = true := by grind [spaceWidth]
    rw [List.cons_append, spaceWidth_blank a _ ha, spaceWidth_blank a _ ha]
  | [a, b] =>
    cases u with
    | nil => rfl
    | cons c u => grind [spaceWidth]
  | a :: b :: c :: t => rfl

/-- White space is a lead byte and what belongs to it. -/
theorem Spaces.isLead_head {s : Text} (hs : Spaces s) : ∀ c ∈ s.head?, isLead c = true := by
  intro c hc
  cases hs with
  | nil => cases hc
  | one ha =>
    obtain rfl := Option.some.inj hc
    simp [isLead, ascii_of_blank1 ha]
  | two hab =>
    obtain rfl := Option.some.inj hc
    exact (isLead_of_blank2 hab).1
  | three habc =>
    obtain rfl := Option.some.inj hc
    exact (isLead_of_blank3 habc).1

/-- The bytes still to be skipped are skipped first. -/
theorem fieldsFrom_eq_drop (k : Nat) (word t : Text) :
    fieldsFrom k word t = fieldsFrom 0 word (t.drop k) := by
  induction k generalizing t with
  | zero => rfl
  | succ k ih =>
    cases t with
    | nil => rfl
    | cons a t =>
      rw [fieldsFrom, List.drop_succ_cons]
      exact ih t

/-- A white-space character ends the word under way. -/
theorem fieldsFrom_of_width {c t : Text} (hne : c ≠ []) (h : spaceWidth (c ++ t) = c.length)
    (word : Text) : fieldsFrom 0 word (c ++ t) = flush word ++ fields t := by
  obtain ⟨a, r, rfl⟩ := List.exists_cons_of_ne_nil hne
  rw [List.cons_append] at h ⊢
  rw [fieldsFrom, h, List.length_cons]
  change flush word ++ fieldsFrom r.length [] (r ++ t) = _
  rw [fieldsFrom_eq_drop, List.drop_left]
  rfl

theorem Spaces.fields_append {s : Text} (hs : Spaces s) (t : Text) :
    fields (s ++ t) = fields t := by
  induction hs with
  | nil => rfl
  | @one a s ha hs ih =>
    exact (fieldsFrom_of_width (c := [a]) (by simp) (spaceWidth_blank a _ ha) []).trans ih
  | @two a b s hab hs ih =>
    exact (fieldsFrom_of_width (c := [a, b]) (by simp) (spaceWidth_blank2 hab _) []).trans ih
  | @three a b c s habc hs ih =>
    exact (fieldsFrom_of_width (c := [a, b, c]) (by simp) (spaceWidth_blank3 habc _) []).trans ih

/-- White space ends the word under way. -/
theorem Spaces.fieldsFrom_append {s : Text} (hs : Spaces s) (hne : s ≠ []) (word t : Text) :
    fieldsFrom 0 word (s ++ t) = flush word ++ fields t := by
  cases hs with
  | nil => exact absurd rfl hne
  | @one a s ha hs =>
    rw [← hs.fields_append t]
    exact fieldsFrom_of_width (c := [a]) (by simp) (spaceWidth_blank a _ ha) word
  | @two a b s hab hs =>
    rw [← hs.fields_append t]
    exact fieldsFrom_of_width (c := [a, b]) (by simp) (spaceWidth_blank2 hab _) word
  | @three a b c s habc hs =>
    rw [← hs.fields_append t]
    exact fieldsFrom_of_width (c := [a, b, c]) (by simp) (spaceWidth_blank3 habc _) word

theorem spaceWidth_le (t : Text) : spaceWidth t ≤ t.length := by
  match t with
  | [] => exact Nat.le_refl 0
  | [a] => grind [spaceWidth]
  | [a, b] => grind [spaceWidth]
  | a :: b :: c :: t => grind [spaceWidth]

theorem fieldsFrom_append_spaces {s : Text} (hs : Spaces s) (hne : s ≠ []) (u : Text) {k : Nat}
    {word t : Text} (hk : k ≤ t.length) :
    fieldsFrom k word (t ++ (s ++ u)) = fieldsFrom k word t ++ fields u := by
  fun_induction fieldsFrom k word t with
  | case1 k word =>
    obtain rfl : k = 0 := Nat.le_zero.mp hk
    exact hs.fieldsFrom_append hne word u
  | case2 word a r hwidth ih =>
    have hwidth' : spaceWidth (a :: (r ++ (s ++ u))) = 0 := by
      obtain ⟨c, s', rfl⟩ := List.exists_cons_of_ne_nil hne
      exact spaceWidth_append_lead (List.cons_ne_nil a r) (hs.isLead_head c rfl) hwidth
    rw [List.cons_append, fieldsFrom, hwidth']
    exact ih (Nat.zero_le _)
  | case3 word a r w hwidth ih =>
    -- A white-space character of the first text ends in it.
    have hle : w ≤ r.length := by
      have hle := spaceWidth_le (a :: r)
      rw [List.length_cons] at hle
      omega
    have hwidth' : spaceWidth (a :: (r ++ (s ++ u))) = w + 1 := by
      rw [← List.cons_append, spaceWidth_append (by omega), hwidth]
    rw [List.cons_append, fieldsFrom, hwidth', List.append_assoc, ← ih hle]
  | case4 k word a r ih => exact ih (Nat.le_of_succ_le_succ hk)

/-- White space divides the words of a text. -/
theorem fields_append_spaces {s : Text} (hs : Spaces s) (hne : s ≠ []) (t u : Text) :
    fields (t ++ (s ++ u)) = fields t ++ fields u :=
  fieldsFrom_append_spaces hs hne u (Nat.zero_le _)

/-! ### Words with white space between them -/

/-- A text has these words, in order, with white space between them. -/
inductive Spelled : List Text → Text → Prop
  | nil : Spelled [] []
  | last (w : Text) : Spelled [w] w
  | blank {s t : Text} {ws : List Text} (hs : Spaces s) (ht : Spelled ws t) : Spelled ws (s ++ t)
  | word {w s t : Text} {ws : List Text} (hs : Spaces s) (hne : s ≠ []) (ht : Spelled ws t) :
    Spelled (w :: ws) (w ++ (s ++ t))

theorem spelled_fieldsFrom {k : Nat} {word t : Text} (hskip : k ≠ 0 → word = []) :
    Spelled (fieldsFrom k word t) (word.reverse ++ t.drop k) := by
  fun_induction fieldsFrom k word t with
  | case1 k word =>
    rw [flush, List.drop_nil, List.append_nil]
    split_ifs with hempty
    · rw [List.isEmpty_iff.mp hempty]
      exact .nil
    · exact .last _
  | case2 word a r hwidth ih => simpa using ih fun h => absurd rfl h
  | case3 word a r w hwidth ih =>
    have hspaces := spaces_of_spaceWidth hwidth
    have hsplit : a :: r = a :: r.take w ++ r.drop w := by simp
    have hrest := ih fun _ => rfl
    rw [List.drop_zero, hsplit, flush]
    split_ifs with hempty
    · rw [List.isEmpty_iff.mp hempty, List.reverse_nil, List.nil_append, List.nil_append]
      exact .blank hspaces hrest
    · exact .word hspaces (List.cons_ne_nil _ _) hrest
  | case4 k word a r ih =>
    obtain rfl := hskip (Nat.succ_ne_zero k)
    exact ih fun _ => rfl

/-- Every text has the words that are read in it. -/
theorem spelled_fields (t : Text) : Spelled (fields t) t := spelled_fieldsFrom fun _ => rfl

/-! ### White space at the end -/

/-- A white-space character at the end of a text ends all that ends with the text. -/
theorem spaceWidthRev_eq_zero_of_append {t u : Text} (ht : t ≠ [])
    (h : spaceWidthRev (t ++ u) = 0) : spaceWidthRev t = 0 := by
  match t with
  | [] => exact absurd rfl ht
  | [a] =>
    have ha : blank1 a = false := by
      rcases u with _ | ⟨b, _ | ⟨c, u⟩⟩ <;> grind [spaceWidthRev]
    simp [spaceWidthRev, ha]
  | [a, b] =>
    have hab : blank1 a = false ∧ blank2 b a = false := by
      cases u <;> grind [spaceWidthRev]
    simp [spaceWidthRev, hab]
  | a :: b :: c :: t => exact h

/-- White space ends with a white-space character. -/
theorem Spaces.spaceWidthRev_ne_zero {s : Text} (hs : Spaces s) (hne : s ≠ []) :
    spaceWidthRev s.reverse ≠ 0 := by
  have hlater {c s : Text} (hwidth : spaceWidthRev c.reverse ≠ 0)
      (ih : s ≠ [] → spaceWidthRev s.reverse ≠ 0) : spaceWidthRev (c ++ s).reverse ≠ 0 := by
    by_cases hs : s = []
    · rwa [hs, List.append_nil]
    · intro hzero
      rw [List.reverse_append] at hzero
      exact ih hs (spaceWidthRev_eq_zero_of_append (by simpa using hs) hzero)
  induction hs with
  | nil => exact absurd rfl hne
  | @one a s ha hs ih => exact hlater (c := [a]) (by simp [spaceWidthRev, ha]) ih
  | @two a b s hab hs ih =>
    refine hlater (c := [a, b]) ?_ ih
    simp only [List.reverse_cons, List.reverse_nil, List.nil_append, List.cons_append,
      spaceWidthRev, hab]
    split_ifs <;> simp
  | @three a b c s habc hs ih =>
    refine hlater (c := [a, b, c]) ?_ ih
    simp only [List.reverse_cons, List.reverse_nil, List.nil_append, List.cons_append,
      spaceWidthRev, habc]
    split_ifs <;> simp

/-- No white space at the end of a text. -/
def EndsSnug (t : Text) : Prop := t = [] ∨ spaceWidthRev t.reverse = 0

theorem EndsSnug.right {t u : Text} (h : EndsSnug (t ++ u)) : EndsSnug u := by
  by_cases hu : u = []
  · exact .inl hu
  rcases h with h | h
  · exact absurd (List.append_eq_nil_iff.mp h).2 hu
  · rw [List.reverse_append] at h
    exact .inr (spaceWidthRev_eq_zero_of_append (by simpa using hu) h)

theorem Spaces.not_endsSnug {s : Text} (hs : Spaces s) (hne : s ≠ []) : ¬ EndsSnug s := by
  rintro (h | h)
  · exact hne h
  · exact hs.spaceWidthRev_ne_zero hne h

theorem Spelled.spaces {t : Text} {ws : List Text} (h : Spelled ws t) (hws : ws = []) :
    Spaces t := by
  induction h with
  | nil => exact .nil
  | last w => cases hws
  | blank hs ht ih => exact hs.append (ih hws)
  | word => cases hws

/-! ### Texts that can stand for one another -/

/-- Wherever one of the texts stands, the words are the same as with the other in its place. -/
def SameWords (t u : Text) : Prop := ∀ v w, fields (v ++ (t ++ w)) = fields (v ++ (u ++ w))

namespace SameWords

theorem refl (t : Text) : SameWords t t := fun _ _ => rfl

variable {t u v t' u' : Text}

theorem trans (h : SameWords t u) (h' : SameWords u v) : SameWords t v :=
  fun x y => (h x y).trans (h' x y)

theorem append (h : SameWords t u) (h' : SameWords t' u') : SameWords (t ++ t') (u ++ u') := by
  intro v w
  calc
    fields (v ++ (t ++ t' ++ w)) = fields (v ++ (t ++ (t' ++ w))) := by rw [List.append_assoc t]
    _ = fields (v ++ (u ++ (t' ++ w))) := h v (t' ++ w)
    _ = fields (v ++ u ++ (t' ++ w)) := by rw [List.append_assoc v]
    _ = fields (v ++ u ++ (u' ++ w)) := h' (v ++ u) w
    _ = fields (v ++ (u ++ u' ++ w)) := by rw [List.append_assoc v, List.append_assoc u]

theorem flatMap {f g : UInt8 → Text} (h : ∀ c, SameWords (f c) (g c)) (t : Text) :
    SameWords (t.flatMap f) (t.flatMap g) := by
  induction t with
  | nil => exact refl []
  | cons c t ih => exact (h c).append ih

theorem collapse_eq (h : SameWords t u) : collapse t = collapse u := by
  have hfields := h [] []
  rw [List.append_nil, List.append_nil] at hfields
  exact congrArg (join [ch ' ']) hfields

end SameWords

theorem Spaces.sameWords {s s' : Text} (hs : Spaces s) (hs' : Spaces s') (hne : s ≠ [])
    (hne' : s' ≠ []) : SameWords s s' := by
  intro v w
  rw [fields_append_spaces hs hne, fields_append_spaces hs' hne']

theorem spaces_space : Spaces [ch ' '] := .one (by decide) .nil

theorem inBlank_of_mem_spaces {s : Text} (hs : Spaces s) : ∀ c ∈ s, inBlank c = true := by
  induction hs with
  | nil => nofun
  | @one a s ha hs ih =>
    rw [List.forall_mem_cons]
    exact ⟨(inBlank_of_spaceWidth (spaceWidth_blank a s ha)).1, ih⟩
  | @two a b s hab hs ih =>
    obtain ⟨ha, hb⟩ := inBlank_of_spaceWidth (spaceWidth_blank2 hab s)
    rw [List.forall_mem_cons, List.forall_mem_cons]
    exact ⟨ha, hb b (by simp), ih⟩
  | @three a b c s habc hs ih =>
    obtain ⟨ha, hbc⟩ := inBlank_of_spaceWidth (spaceWidth_blank3 habc s)
    rw [List.forall_mem_cons, List.forall_mem_cons, List.forall_mem_cons]
    exact ⟨ha, hbc b (by simp), hbc c (by simp), ih⟩

/-- Where white space stands for itself, words need only one space between them. -/
theorem Spelled.sameWords {f : UInt8 → Text} (hf : ∀ c, inBlank c = true → f c = [c])
    {ws : List Text} {t : Text} (h : Spelled ws t) (hends : EndsSnug t) :
    SameWords (ch ' ' :: t.flatMap f) (ch ' ' :: (join [ch ' '] ws).flatMap f) ∧
      (spaceWidth t = 0 → SameWords (t.flatMap f) ((join [ch ' '] ws).flatMap f)) := by
  have hkept {s : Text} (hs : Spaces s) : s.flatMap f = s := by
    rw [List.flatMap_congr fun c hc => hf c (inBlank_of_mem_spaces hs c hc),
      List.flatMap_singleton']
  induction h with
  | nil => exact ⟨.refl _, fun _ => .refl _⟩
  | last w =>
    rw [join_singleton]
    exact ⟨.refl _, fun _ => .refl _⟩
  | @blank s t ws hs ht ih =>
    obtain ⟨hspace, hsnug⟩ := ih hends.right
    refine ⟨?_, fun hwidth => ?_⟩
    · rw [List.flatMap_append, hkept hs]
      have hmerge :=
        (Spaces.one (a := ch ' ') (by decide) hs).sameWords spaces_space (by simp) (by simp)
      exact (hmerge.append (.refl (t.flatMap f))).trans hspace
    · -- No white space stands in front.
      by_cases hne : s = []
      · rw [hne] at hwidth ⊢
        exact hsnug hwidth
      · exact absurd hwidth (hs.spaceWidth_ne_zero hne t)
  | @word w s t ws hs hne ht ih =>
    obtain ⟨hspace, -⟩ := ih hends.right.right
    -- White space after the last word would be white space at the end.
    have hws : ws ≠ [] := by
      intro hws
      have hblank : Spaces (s ++ t) := hs.append (ht.spaces hws)
      exact hblank.not_endsSnug (by simp [hne]) hends.right
    have hjoin : join [ch ' '] (w :: ws) = w ++ ch ' ' :: join [ch ' '] ws := by
      obtain ⟨v, vs, rfl⟩ := List.exists_cons_of_ne_nil hws
      rw [join_cons_cons, List.append_assoc, List.singleton_append]
    have hwords : SameWords ((w ++ (s ++ t)).flatMap f) ((join [ch ' '] (w :: ws)).flatMap f) := by
      rw [hjoin, List.flatMap_append, List.flatMap_append, List.flatMap_append, hkept hs,
        List.flatMap_cons, hf _ (by decide)]
      refine (SameWords.refl _).append (.trans ?_ hspace)
      exact (hs.sameWords spaces_space hne (by simp)).append (.refl _)
    exact ⟨(SameWords.refl [ch ' ']).append hwords, fun _ => hwords⟩

/-- Where white space stands for itself, a text without white space at its ends can be collapsed
first. -/
theorem Snug.sameWords_flatMap {f : UInt8 → Text} (hf : ∀ c, inBlank c = true → f c = [c])
    {t : Text} (h : Snug t) : SameWords (t.flatMap f) ((collapse t).flatMap f) :=
  ((spelled_fields t).sameWords hf (.inr h.stop)).2 h.start

theorem Snug.sameWords {t : Text} (h : Snug t) : SameWords t (collapse t) := by
  simpa using h.sameWords_flatMap (f := fun c => [c]) fun _ _ => rfl

/-! ### Collapsed texts -/

theorem collapse_eq_nil_iff {t : Text} : collapse t = [] ↔ fields t = [] := by
  rw [collapse]
  cases hwords : fields t with
  | nil => exact iff_of_true rfl rfl
  | cons w ws =>
    have hw : w ≠ [] := (solid_of_mem_fields (hwords ▸ List.mem_cons_self)).1
    simp [join_cons, hw]

theorem Snug.collapse_ne_nil {t : Text} (h : Snug t) : collapse t ≠ [] := by
  intro hnil
  have hspaces := (spelled_fields t).spaces (collapse_eq_nil_iff.mp hnil)
  exact hspaces.not_endsSnug h.ne_nil (.inr h.stop)

theorem join_append {sep : Text} {ts us : List Text} (hts : ts ≠ []) (hus : us ≠ []) :
    join sep (ts ++ us) = join sep ts ++ (sep ++ join sep us) := by
  obtain ⟨t, ts, rfl⟩ := List.exists_cons_of_ne_nil hts
  obtain ⟨u, us, rfl⟩ := List.exists_cons_of_ne_nil hus
  simp [join_cons]

theorem fields_append_space (t u : Text) : fields (t ++ ch ' ' :: u) = fields t ++ fields u :=
  fields_append_spaces spaces_space (List.cons_ne_nil _ _) t u

/-- Two texts with a space between them are collapsed apart. -/
theorem collapse_append_space {t u : Text} (ht : collapse t ≠ []) (hu : collapse u ≠ []) :
    collapse (t ++ ch ' ' :: u) = collapse t ++ ch ' ' :: collapse u := by
  rw [Ne, collapse_eq_nil_iff] at ht hu
  rw [collapse, fields_append_space, join_append ht hu]
  rfl

theorem collapse_append_of_nil {t : Text} (ht : collapse t = []) (u : Text) :
    collapse (t ++ ch ' ' :: u) = collapse u := by
  rw [collapse, fields_append_space, collapse_eq_nil_iff.mp ht, List.nil_append]
  rfl

/-! ### Trimmed texts -/

/-- Trimming takes no words away. -/
theorem collapse_trim (t : Text) : collapse (trim t) = collapse t := by
  obtain ⟨w, v, ht, hw, hv⟩ := exists_trim_spaces t
  have hend : fields (trim t ++ v) = fields (trim t) := by
    by_cases hne : v = []
    · rw [hne, List.append_nil]
    · have hwords := fields_append_spaces hv hne (trim t) []
      simpa [fields, fieldsFrom, flush] using hwords
  conv_rhs => rw [ht]
  rw [collapse, collapse, List.append_assoc, hw.fields_append, hend]

theorem collapse_eq_nil_iff_trim {t : Text} : collapse t = [] ↔ trim t = [] := by
  rw [← collapse_trim]
  constructor
  · intro hnil
    by_contra hne
    exact (snug_trim hne).collapse_ne_nil hnil
  · intro hnil
    rw [hnil]
    rfl

/-- White space is what has no words. -/
theorem spaces_iff_fields {t : Text} : Spaces t ↔ fields t = [] := by
  constructor
  · intro h
    rw [← collapse_eq_nil_iff, collapse_eq_nil_iff_trim]
    exact List.isEmpty_iff.mp h.isBlank
  · exact (spelled_fields t).spaces

/-- White space is what is trimmed to nothing. -/
theorem spaces_iff_trim {t : Text} : Spaces t ↔ trim t = [] := by
  rw [spaces_iff_fields, ← collapse_eq_nil_iff, collapse_eq_nil_iff_trim]

end Stylesheet.Text
