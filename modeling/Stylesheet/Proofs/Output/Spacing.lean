import Mathlib.Data.List.Chain
import Stylesheet.Proofs.Output.Squeeze
import Stylesheet.Proofs.Selector

/-!
# What squeezed text says

The selectors of a header stand between its commas, and of each only the words count. So white
space beside a comma says nothing, and any other white space says as much as one space. Beside
other punctuation it may say more: squeezing takes it away all the same, and `.x :hover` becomes
`.x:hover`. Where white space stands beside no punctuation but commas, squeezing keeps the words
of every part, and with them the selectors.

## Main definitions

* `partWords` — the words of a text, part by part between its commas
* `Loose` — neighbours that white space between them does not hold together
* `PlainLead` — a lead whose white space says what a space says

## Main results

* `partWords_squeezed` — squeezing keeps the words between commas
* `PlainLead.selectors_eq`, `PlainLead.opens` — a plain lead keeps its selectors
* `exists_squeezed_append` — white space before a text
-/

namespace Stylesheet

open Text

/-! ### Words between commas -/

/-- The words of the parts of a text between its commas. -/
def partWords (t : Text) : List (List Text) := (split (ch ',') t).map fields

section Parts

variable {s s' t : Text}

theorem comma_notMem_spaces (hs : Spaces s) : ch ',' ∉ s := fun h =>
  absurd (inBlank_of_mem_spaces hs _ h) (by decide)

theorem splitFrom_append {sep : UInt8} (ht : sep ∉ t) (part u : Text) :
    splitFrom sep part (t ++ u) = splitFrom sep (t.reverse ++ part) u := by
  induction t generalizing part with
  | nil => rfl
  | cons a t ih =>
    rw [List.mem_cons, not_or] at ht
    rw [List.cons_append, splitFrom, if_neg (Ne.symm ht.1), ih ht.2]
    simp

/-- What is under way counts by the words it has, whatever follows. -/
theorem map_fields_splitFrom_congr {sep : UInt8} {p p' : Text}
    (h : ∀ x, fields (p.reverse ++ x) = fields (p'.reverse ++ x)) (u : Text) :
    (splitFrom sep p u).map fields = (splitFrom sep p' u).map fields := by
  have hhere := h []
  rw [List.append_nil, List.append_nil] at hhere
  -- both grow by the same bytes up to the next separator
  induction u generalizing p p' with
  | nil => simpa [splitFrom] using hhere
  | cons a u ih =>
    rw [splitFrom, splitFrom]
    split_ifs
    · rw [List.map_cons, List.map_cons, hhere]
    · have hmore (x : Text) : fields ((a :: p).reverse ++ x) = fields ((a :: p').reverse ++ x) := by
        simpa using h (a :: x)
      exact ih hmore (by simpa using hmore [])

theorem partWords_comma (v w : Text) :
    partWords (v ++ ch ',' :: w) = partWords v ++ partWords w := by
  have hsplit (part : Text) : splitFrom (ch ',') part (v ++ ch ',' :: w) =
      splitFrom (ch ',') part v ++ split (ch ',') w := by
    induction v generalizing part with
    | nil => simp [splitFrom, split]
    | cons a v ih =>
      rw [List.cons_append, splitFrom, splitFrom]
      split_ifs
      · rw [ih, List.cons_append]
      · exact ih _
  rw [partWords, split, hsplit, List.map_append]
  rfl

/-- White space before a text has no words. -/
theorem partWords_spaces_append (hs : Spaces s) (w : Text) : partWords (s ++ w) = partWords w := by
  rw [partWords, split, splitFrom_append (comma_notMem_spaces hs)]
  refine map_fields_splitFrom_congr (fun x => ?_) w
  simpa using hs.fields_append x

/-- What a text ends with counts by the words it gives to what stands before it. -/
theorem partWords_append_congr {x x' : Text}
    (h : ∀ part, (splitFrom (ch ',') part x).map fields = (splitFrom (ch ',') part x').map fields)
    (v : Text) : partWords (v ++ x) = partWords (v ++ x') := by
  have hsplit (part : Text) : (splitFrom (ch ',') part (v ++ x)).map fields =
      (splitFrom (ch ',') part (v ++ x')).map fields := by
    induction v generalizing part with
    | nil => exact h part
    | cons a v ih =>
      rw [List.cons_append, List.cons_append, splitFrom, splitFrom]
      split_ifs
      · rw [List.map_cons, List.map_cons, ih]
      · exact ih _
  exact hsplit []

/-- All that counts of white space in the middle of a text is that it is there. -/
theorem partWords_middle (hs : Spaces s) (hs' : Spaces s') (hne : s ≠ []) (hne' : s' ≠ [])
    (v w : Text) : partWords (v ++ (s ++ w)) = partWords (v ++ (s' ++ w)) := by
  refine partWords_append_congr (fun part => ?_) v
  rw [splitFrom_append (comma_notMem_spaces hs), splitFrom_append (comma_notMem_spaces hs')]
  refine map_fields_splitFrom_congr (fun x => ?_) w
  simpa using hs.sameWords hs' hne hne' part.reverse x

/-- White space after a text has no words. -/
theorem partWords_append_spaces (hs : Spaces s) (v : Text) : partWords (v ++ s) = partWords v := by
  by_cases hne : s = []
  · rw [hne, List.append_nil]
  have hend : partWords (v ++ s) = partWords (v ++ []) := by
    refine partWords_append_congr (fun part => ?_) v
    have halone := splitFrom_append (comma_notMem_spaces hs) part []
    have hwords := fields_append_spaces hs hne part.reverse []
    rw [List.append_nil] at halone hwords
    rw [halone]
    simpa [splitFrom, fields, fieldsFrom, flush] using hwords
  rwa [List.append_nil] at hend

theorem partWords_trim (t : Text) : partWords (trim t) = partWords t := by
  obtain ⟨w, v, hsplit, hw, hv⟩ := exists_trim_spaces t
  conv_rhs => rw [hsplit]
  rw [partWords_append_spaces hv, partWords_spaces_append hw]

theorem partWords_eq_iff : partWords t = [[]] ↔ Spaces t := by
  constructor
  · intro h
    obtain ⟨p, hsplit, hp⟩ := List.map_eq_singleton_iff.mp h
    have hjoin := join_split (ch ',') t
    rw [hsplit, join_singleton] at hjoin
    rw [← hjoin, spaces_iff_fields, hp]
  · intro h
    have hblank := partWords_spaces_append h []
    rwa [List.append_nil] at hblank

end Parts

/-! ### Neighbours -/

theorem blank1_of_isSpace : ∀ c, isSpace c = true → blank1 c = true :=
  forall_byte (by decide +kernel)

/-- Punctuation other than a comma. -/
def isJoint (c : UInt8) : Bool := isTight c && decide (c ≠ ch ',')

/-- Two bytes in a row, of which neither is white space beside such punctuation. -/
def Loose (a b : UInt8) : Prop :=
  (isSpace a = true → isJoint b = false) ∧ (isSpace b = true → isJoint a = false)

instance (a b : UInt8) : Decidable (Loose a b) :=
  inferInstanceAs
    (Decidable ((isSpace a = true → isJoint b = false) ∧ (isSpace b = true → isJoint a = false)))

section Neighbours

variable {out r u : Text} {c : UInt8} {space : Bool} {k : Nat}

/-- The text that is still to be read, with the space that is due. -/
def withDue (space : Bool) (r : Text) : Text := if space then ch ' ' :: r else r

theorem partWords_withSpace (space : Bool) (out r : Text) :
    partWords ((withSpace space out).reverse ++ r) =
      partWords (out.reverse ++ withDue space r) := by
  cases space with
  | false => rfl
  | true =>
    cases out with
    | nil => exact (partWords_spaces_append spaces_space r).symm
    | cons d out => simp [withSpace, withDue]

/-- The white space at a place counts as one space. -/
theorem partWords_withDue_space (hc : isSpace c = true) (space : Bool) (v r : Text) :
    partWords (v ++ withDue space (c :: r)) = partWords (v ++ ch ' ' :: r) := by
  have hblank : Spaces [c] := .one (blank1_of_isSpace c hc) .nil
  cases space with
  | false => exact partWords_middle hblank spaces_space (by simp) (by simp) v r
  | true =>
    exact partWords_middle (spaces_space.append hblank) spaces_space (by simp) (by simp) v r

/-- After a comma white space counts for nothing. -/
theorem partWords_comma_withDue (hc : isSpace c = true) (space : Bool) (v r : Text) :
    partWords (v ++ ch ',' :: withDue space (c :: r)) = partWords (v ++ ch ',' :: r) := by
  rw [List.append_cons, partWords_withDue_space hc, ← List.append_cons, partWords_comma,
    partWords_comma, ← List.singleton_append, partWords_spaces_append spaces_space]

/-- Before a comma white space counts for nothing. -/
theorem partWords_withDue_comma (space : Bool) (v r : Text) :
    partWords (v ++ withDue space (ch ',' :: r)) = partWords (v ++ ch ',' :: r) := by
  cases space with
  | false => rfl
  | true =>
    change partWords (v ++ ch ' ' :: ch ',' :: r) = _
    rw [List.append_cons, partWords_comma, partWords_comma, partWords_append_spaces spaces_space]

/-- What is written ends in a comma, if it ends in punctuation at all. -/
theorem exists_comma_of_isTight (hout : ∀ d ∈ out.head?, isJoint d = false)
    (h : isTight (head0 out) = true) : ∃ v, out = ch ',' :: v := by
  cases out with
  | nil => cases h
  | cons d v =>
    have hjoint := hout d rfl
    have htight : isTight d = true := h
    have hcomma : d = ch ',' := by simpa [isJoint, htight] using hjoint
    exact ⟨v, by rw [hcomma]⟩

theorem head0_ne_of_notMem (h : ch ';' ∉ out) : head0 out ≠ ch ';' := by
  cases out with
  | nil => decide
  | cons d v =>
    rintro rfl
    exact h List.mem_cons_self

theorem semicolon_notMem_withSpace (h : ch ';' ∉ out) (space : Bool) :
    ch ';' ∉ withSpace space out := by
  unfold withSpace
  split_ifs
  · rw [List.mem_cons, not_or]
    exact ⟨by decide, h⟩
  · exact h

/-- White space that is passed counts as the space that is due after it. -/
theorem partWords_passed (hc : isSpace c = true) (hout : ∀ d ∈ out.head?, isJoint d = false)
    (space : Bool) (r : Text) :
    partWords (out.reverse ++ withDue (!isTight (head0 out)) r) =
      partWords (out.reverse ++ withDue space (c :: r)) := by
  cases htight : isTight (head0 out) with
  | true =>
    obtain ⟨v, rfl⟩ := exists_comma_of_isTight hout htight
    rw [Bool.not_true, List.reverse_cons, List.append_assoc, List.append_assoc]
    exact (partWords_comma_withDue hc space v.reverse r).symm
  | false =>
    rw [Bool.not_false, partWords_withDue_space hc]
    rfl

/-- Any other byte is written, after words that are the same. -/
theorem exists_squeezeByte_written (hc : isSpace c = false) (hout : ch ';' ∉ out)
    (hdue : space = true → isJoint c = false) (r : Text) :
    ∃ v, squeezeByte space out c = (false, c :: v) ∧ ch ';' ∉ v ∧
      partWords (v.reverse ++ c :: r) = partWords (out.reverse ++ withDue space (c :: r)) := by
  cases htight : isTight c with
  | false =>
    exact ⟨withSpace space out, squeezeByte_other hc htight space out,
      semicolon_notMem_withSpace hout space, partWords_withSpace space out (c :: r)⟩
  | true =>
    refine ⟨out, squeezeByte_tight htight (fun _ => head0_ne_of_notMem hout) space, hout, ?_⟩
    by_cases hcomma : c = ch ','
    · rw [hcomma, partWords_withDue_comma]
    · -- no space is due before other punctuation
      have hjoint : isJoint c = true := by simp [isJoint, htight, hcomma]
      have hspace : space = false := by
        rw [← Bool.not_eq_true]
        intro hspace
        cases hjoint.symm.trans (hdue hspace)
      rw [hspace]
      rfl

/-- Where white space stands loose, squeezing keeps the words of every part. -/
theorem partWords_squeezeFrom (hcopy : k ≠ 0 → space = false)
    (hdue : space = true → ∀ c ∈ r.head?, isJoint c = false)
    (hlast : ∀ d ∈ out.head?, isJoint d = true → ∀ c ∈ r.head?, isSpace c = false)
    (hout : ch ';' ∉ out) (hr : ch ';' ∉ r) (hloose : r.IsChain Loose) :
    partWords (squeezeFrom k space out r).reverse = partWords (out.reverse ++ withDue space r) := by
  -- what is written and what is due count together as what has been read
  induction r generalizing k space out with
  | nil =>
    rw [squeezeFrom]
    cases space with
    | false => simp [withDue]
    | true => exact (partWords_append_spaces spaces_space out.reverse).symm
  | cons c r ih =>
    obtain ⟨hnext, hrest⟩ := List.isChain_cons.mp hloose
    rw [List.mem_cons, not_or] at hr
    -- a byte that is written stays as it is
    have hwritten {v : Text} (hv : ch ';' ∉ v) (k' : Nat) :
        partWords (squeezeFrom k' false (c :: v) r).reverse = partWords (v.reverse ++ c :: r) := by
      have hafter : ∀ d ∈ (c :: v).head?, isJoint d = true → ∀ b ∈ r.head?, isSpace b = false := by
        rintro d ⟨⟩ hjoint b hb
        rw [← Bool.not_eq_true]
        intro hblank
        rw [(hnext b hb).2 hblank] at hjoint
        cases hjoint
      have hcv : ch ';' ∉ c :: v := by simp [hr.1, hv]
      have hspace (h : false = true) : ∀ b ∈ r.head?, isJoint b = false :=
        absurd h Bool.false_ne_true
      rw [ih (fun _ => rfl) hspace hafter hcv hr.2 hrest, List.reverse_cons, List.append_assoc]
      rfl
    cases k with
    | succ k =>
      obtain rfl := hcopy k.succ_ne_zero
      exact hwritten hout k
    | zero =>
      rw [squeezeFrom_zero_cons]
      cases hs : isSpace c with
      | true =>
        have hfree : ∀ d ∈ out.head?, isJoint d = false := by
          intro d hd
          rw [← Bool.not_eq_true]
          intro hjoint
          cases hs.symm.trans (hlast d hd hjoint c rfl)
        rw [squeezeByte_space hs, Brackets.not_isQuote_of_inBlank (inBlank_of_isSpace c hs)]
        dsimp only
        rw [if_neg Bool.false_ne_true, ← partWords_passed hs hfree space r]
        exact ih (fun h => absurd rfl h) (fun _ b hb => (hnext b hb).1 hs)
          (fun d hd hjoint => by cases hjoint.symm.trans (hfree d hd)) hout hr.2 hrest
      | false =>
        obtain ⟨v, hbyte, hv, hwords⟩ :=
          exists_squeezeByte_written hs hout (fun hspace => hdue hspace c rfl) r
        rw [hbyte, hwritten hv, hwords]

/-- Squeezing keeps the words between commas, where white space stands loose. -/
theorem partWords_squeezed (hloose : u.IsChain Loose) (hsemicolon : ch ';' ∉ u) :
    partWords (squeezed u) = partWords u :=
  partWords_squeezeFrom (fun _ => rfl) nofun nofun List.not_mem_nil hsemicolon hloose

end Neighbours

/-! ### White space -/

theorem not_isTight_of_inBlank : ∀ c, inBlank c = true → isTight c = false :=
  forall_byte (by decide +kernel)

section Blank

variable {out r u w : Text}

/-- Punctuation may take a semicolon away, but never all punctuation. -/
theorem any_isTight_squeezeFrom (k : Nat) (space : Bool)
    (h : (out.any isTight || r.any isTight) = true) :
    (squeezeFrom k space out r).any isTight = true := by
  -- punctuation that was written stays, and punctuation to come is written
  induction r generalizing k space out with
  | nil => cases k <;> simpa [squeezeFrom] using h
  | cons c r ih =>
    rw [List.any_cons] at h
    cases k with
    | succ k =>
      have hcopied : ((c :: out).any isTight || r.any isTight) = true := by
        rw [List.any_cons]
        grind
      exact ih k space hcopied
    | zero =>
      rw [squeezeFrom_zero_cons]
      refine ih _ _ ?_
      cases hs : isSpace c with
      | true =>
        have hc := not_isTight_of_inBlank c (inBlank_of_isSpace c hs)
        rw [squeezeByte_space hs]
        simpa [hc] using h
      | false =>
        cases ht : isTight c with
        | true => simp [squeezeByte, hs, ht, (isQuote_of_isTight c ht).1]
        | false =>
          rw [squeezeByte_other hs ht, List.any_cons]
          have hkept : out.any isTight = true → (withSpace space out).any isTight = true := by
            intro hout
            unfold withSpace
            split_ifs
            · rw [List.any_cons, hout, Bool.or_true]
            · exact hout
          grind

theorem loose_of_not_isTight (hu : ∀ c ∈ u, isTight c = false) :
    u.IsChain Loose ∧ ch ';' ∉ u := by
  have hjoint {c : UInt8} (hc : c ∈ u) : isJoint c = false := by simp [isJoint, hu c hc]
  refine ⟨List.Pairwise.isChain (List.pairwise_of_forall_mem_list fun a ha b hb => ?_), fun h => ?_⟩
  · exact ⟨fun _ => hjoint hb, fun _ => hjoint ha⟩
  · exact absurd (hu _ h) (by decide)

/-- What is blank when it is squeezed was blank. -/
theorem spaces_of_squeezed (h : trim (squeezed u) = []) : Spaces u := by
  have hspaces := spaces_iff_trim.mpr h
  have hu : ∀ c ∈ u, isTight c = false := by
    intro c hc
    by_contra hmark
    rw [Bool.not_eq_false] at hmark
    have hany : (([] : Text).any isTight || u.any isTight) = true := by
      simpa using ⟨c, hc, hmark⟩
    obtain ⟨d, hd, hmark'⟩ := List.any_eq_true.mp (any_isTight_squeezeFrom 0 false hany)
    have hblank := inBlank_of_mem_spaces hspaces d (List.mem_reverse.mpr hd)
    rw [not_isTight_of_inBlank d hblank] at hmark'
    cases hmark'
  obtain ⟨hloose, hsemicolon⟩ := loose_of_not_isTight hu
  rw [← partWords_eq_iff, ← partWords_squeezed hloose hsemicolon]
  exact partWords_eq_iff.mpr hspaces

/-- White space is squeezed to white space. -/
theorem Text.Spaces.squeezed (hw : Spaces w) : Spaces (squeezed w) := by
  obtain ⟨hloose, hsemicolon⟩ := loose_of_not_isTight fun c hc =>
    not_isTight_of_inBlank c (inBlank_of_mem_spaces hw c hc)
  rw [← partWords_eq_iff, partWords_squeezed hloose hsemicolon]
  exact partWords_eq_iff.mpr hw

/-- White space before a text leaves white space before the text squeezed. -/
theorem exists_squeezed_append (hw : Spaces w) (hu : Balanced u) :
    ∃ v, Spaces v ∧ squeezed (w ++ u) = v ++ squeezed u := by
  obtain ⟨space, hmore⟩ :=
    exists_squeezeFrom_balanced (balanced_of_inBlank (inBlank_of_mem_spaces hw)) false []
  obtain ⟨blank, hblank, -, heq⟩ :=
    exists_squeezeFrom_out (balanced_iff_run.mp hu) space (squeezeFrom 0 false [] w)
  refine ⟨squeezed w ++ blank, hw.squeezed.append ?_, ?_⟩
  · rcases hblank with rfl | rfl
    · exact .nil
    · exact spaces_space
  · have hrev : blank.reverse = blank := by rcases hblank with rfl | rfl <;> rfl
    rw [squeezed, hmore, heq]
    simp [squeezed, hrev]

/-- The last byte of a squeezed text comes before nothing but white space. -/
theorem exists_last_squeezeFrom {k : Nat} {space : Bool} {d : UInt8}
    (h : (squeezeFrom k space out r).head? = some d) :
    (out.head? = some d ∧ ∀ c ∈ r, isSpace c = true) ∨
      ∃ x y, r = x ++ d :: y ∧ ∀ c ∈ y, isSpace c = true := by
  induction r generalizing k space out with
  | nil =>
    rw [squeezeFrom] at h
    exact .inl ⟨h, fun c hc => absurd hc List.not_mem_nil⟩
  | cons c r ih =>
    -- where a byte is written, the last one is that byte or comes after it
    have hwritten {k' : Nat} {space' : Bool} {v : Text}
        (h : (squeezeFrom k' space' (c :: v) r).head? = some d) :
        ∃ x y, c :: r = x ++ d :: y ∧ ∀ c ∈ y, isSpace c = true := by
      rcases ih h with ⟨hd, hr⟩ | ⟨x, y, rfl, hy⟩
      · obtain rfl := Option.some.inj hd
        exact ⟨[], r, rfl, hr⟩
      · exact ⟨c :: x, y, rfl, hy⟩
    cases k with
    | succ k => exact .inr (hwritten h)
    | zero =>
      rw [squeezeFrom_zero_cons] at h
      cases hs : isSpace c with
      | true =>
        rw [squeezeByte_space hs] at h
        rcases ih h with ⟨hd, hr⟩ | ⟨x, y, rfl, hy⟩
        · exact .inl ⟨hd, List.forall_mem_cons.mpr ⟨hs, hr⟩⟩
        · exact .inr ⟨c :: x, y, rfl, hy⟩
      | false =>
        obtain ⟨v, hv⟩ := exists_squeezeByte hs space out
        rw [hv] at h
        exact .inr (hwritten h)

end Blank

/-! ### Selectors -/

section Selectors

variable {t u : Text}

/-- A text without commas in the middle is in the middle of a part. -/
theorem exists_mem_split {sep : UInt8} (ht : sep ∉ t) (v w : Text) :
    ∃ a b, a ++ (t ++ b) ∈ split sep (v ++ (t ++ w)) := by
  have hfirst (part : Text) : ∃ b, part.reverse ++ b ∈ splitFrom sep part w := by
    induction w generalizing part with
    | nil => exact ⟨[], by simp [splitFrom]⟩
    | cons c w ih =>
      rw [splitFrom]
      split_ifs
      · exact ⟨[], by simp⟩
      · obtain ⟨b, hb⟩ := ih (c :: part)
        exact ⟨c :: b, by simpa using hb⟩
  have hsplit (part : Text) : ∃ a b, a ++ (t ++ b) ∈ splitFrom sep part (v ++ (t ++ w)) := by
    induction v generalizing part with
    | nil =>
      obtain ⟨b, hb⟩ := hfirst (t.reverse ++ part)
      refine ⟨part.reverse, b, ?_⟩
      rw [List.nil_append, splitFrom_append ht]
      simpa using hb
    | cons c v ih =>
      rw [List.cons_append, splitFrom]
      split_ifs
      · obtain ⟨a, b, hab⟩ := ih []
        exact ⟨a, b, List.mem_cons_of_mem _ hab⟩
      · exact ih _
  exact hsplit []

/-- A header that extends something has the word for it. -/
theorem exists_extends_word (h : has t (of " extends ") = true) :
    ∃ ws ∈ partWords t, of "extends" ∈ ws := by
  obtain ⟨v, w, rfl⟩ := has_iff.mp h
  rw [List.append_assoc]
  obtain ⟨a, b, hab⟩ := exists_mem_split (by decide : ch ',' ∉ of " extends ") v w
  refine ⟨_, List.mem_map_of_mem hab, ?_⟩
  have hword : of " extends " ++ b = ch ' ' :: (of "extends" ++ ch ' ' :: b) := rfl
  have halone : fields (of "extends") = [of "extends"] := by decide
  rw [hword, fields_append_space, fields_append_space, halone]
  simp

/-- The words of the parts say what a header selects, if none is the word for what it extends. -/
theorem parseSelectors_eq_of_partWords (h : ∀ ws ∈ partWords t, of "extends" ∉ ws) :
    (parseSelectors t).1 =
      sortUnique (((partWords t).map (join [ch ' '])).filter fun s => !s.isEmpty) := by
  have hplain : has t (of " extends ") = false := by
    rw [← Bool.not_eq_true]
    intro hhas
    obtain ⟨ws, hws, hword⟩ := exists_extends_word hhas
    exact h ws hws hword
  rw [parseSelectors_eq hplain, partWords, List.map_map]
  rfl

/-- A lead that goes on in one line, in which white space stands beside no punctuation but commas
and after no number sign, and which extends nothing. -/
structure PlainLead (u : Text) : Prop where
  line : OnLine (trimLeft u)
  loose : u.IsChain Loose
  hash : u.IsChain fun a b => isSpace b = true → a ≠ ch '#'
  semicolon : ch ';' ∉ u
  words : ∀ ws ∈ partWords u, of "extends" ∉ ws

instance (u : Text) : Decidable (PlainLead u) :=
  decidable_of_iff (OnLine (trimLeft u) ∧ u.IsChain Loose ∧
    u.IsChain (fun a b => isSpace b = true → a ≠ ch '#') ∧ ch ';' ∉ u ∧
      ∀ ws ∈ partWords u, of "extends" ∉ ws)
    ⟨fun ⟨line, loose, hash, semicolon, words⟩ => ⟨line, loose, hash, semicolon, words⟩,
      fun ⟨line, loose, hash, semicolon, words⟩ => ⟨line, loose, hash, semicolon, words⟩⟩

/-- A plain lead has the same selectors when it is squeezed. -/
theorem PlainLead.selectors_eq (h : PlainLead u) :
    (parseSelectors (trim (squeezed u))).1 = (parseSelectors (trim u)).1 := by
  have hwords : partWords (trim (squeezed u)) = partWords (trim u) := by
    rw [partWords_trim, partWords_trim, partWords_squeezed h.loose h.semicolon]
  have hplain : ∀ ws ∈ partWords (trim u), of "extends" ∉ ws := partWords_trim u ▸ h.words
  rw [parseSelectors_eq_of_partWords hplain, parseSelectors_eq_of_partWords (hwords ▸ hplain),
    hwords]

/-- A plain lead does not come to end in a number sign. -/
theorem PlainLead.opens (h : PlainLead u) (hhash : u.getLast? ≠ some (ch '#')) :
    (squeezed u).getLast? ≠ some (ch '#') := by
  rw [squeezed, List.getLast?_reverse]
  intro hlast
  rcases exists_last_squeezeFrom hlast with ⟨hnone, -⟩ | ⟨x, y, rfl, hy⟩
  · cases hnone
  · cases y with
    | nil => exact hhash (by rw [List.getLast?_concat])
    | cons b y => exact (List.isChain_append_cons_cons.mp h.hash).2.1 (hy b List.mem_cons_self) rfl

end Selectors

end Stylesheet
