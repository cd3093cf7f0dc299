import Mathlib.Tactic.SplitIfs
import Stylesheet.Selector
import Stylesheet.Proofs.Text
import Stylesheet.Proofs.Text.Words

/-!
# Lists of selectors

The header of a rule is cut into selectors at every comma. A comma in the argument of a
pseudo-class or in the value of an attribute is no different there, though it separates no
selectors: where one stands in parentheses, in square brackets or in quotes, what comes out is cut
inside them. This file says that nothing else goes wrong. If every comma of a header is outside
them, its selectors are the parts that the header is made of.

Selectors have their white space collapsed, inside quotes as well. That changes neither what is
open in them nor where their commas stand.

## Main definitions

* `Fence` — the quote and the brackets that are open at a place of a text
* `Paired` — everything that is opened is closed by its own partner
* `FreeCommas` — every comma stands outside quotes and brackets
* `topParts` — the parts of a text between such commas

## Main results

* `paired_collapse_iff` — collapsing white space changes nothing
* `paired_parts_iff` — the parts between all commas
* `topParts_join` — parts that are paired and without commas, joined by commas
* `selectors_paired_iff` — when a list of selectors is cut between them only
* `functionalList_cut` — a list of selectors as an argument
-/

namespace Stylesheet

open Text

/-! ### What is open -/

/-- The kinds of quotation marks. -/
inductive Mark where
  | single
  | double
  deriving DecidableEq

/-- The byte of a quotation mark. -/
def Mark.byte : Mark → UInt8
  | .single => ch '\''
  | .double => ch '"'

/-- What is open at a place of a text: a quote, with a mark for whether the next byte is escaped,
and brackets, told by the bytes that close them, the innermost first. -/
structure Fence where
  quote : Option (Mark × Bool) := none
  closers : List UInt8 := []
  deriving DecidableEq

namespace Fence

/-- Passes one byte. A bracket that closes another than the innermost one open is refused. In a
quote brackets mean nothing, and a backslash escapes the byte after it. -/
def step (f : Fence) (c : UInt8) : Option Fence :=
  match f.quote with
  | some (q, true) => some { f with quote := some (q, false) }
  | some (q, false) =>
    if c = ch '\\' then some { f with quote := some (q, true) }
    else if c = q.byte then some { f with quote := none }
    else some f
  | none =>
    if c = ch '"' then some { f with quote := some (.double, false) }
    else if c = ch '\'' then some { f with quote := some (.single, false) }
    else if c = ch '(' then some { f with closers := ch ')' :: f.closers }
    else if c = ch '[' then some { f with closers := ch ']' :: f.closers }
    else if c = ch ')' || c = ch ']' then
      if f.closers.head? = some c then some { f with closers := f.closers.tail } else none
    else some f

/-- Passes a text. -/
def pass (f : Fence) (t : Text) : Option Fence := t.foldlM step f

@[simp] theorem pass_nil (f : Fence) : f.pass [] = some f := rfl

@[simp] theorem pass_cons (f : Fence) (c : UInt8) (t : Text) :
    f.pass (c :: t) = (f.step c).bind (·.pass t) := rfl

theorem pass_append (f : Fence) (t u : Text) : f.pass (t ++ u) = (f.pass t).bind (·.pass u) := by
  simp [pass, List.foldlM_append]

end Fence

/-- Every quote and bracket that a text opens is closed in it, in turn, and nothing else is. -/
def Paired (t : Text) : Prop := Fence.pass {} t = some {}

instance (t : Text) : Decidable (Paired t) := inferInstanceAs (Decidable (_ = _))

theorem paired_nil : Paired [] := rfl

/-- After a text that is paired the rest is as if it stood alone. -/
theorem Paired.append_iff {t u : Text} (ht : Paired t) : Paired (t ++ u) ↔ Paired u := by
  rw [Paired, Fence.pass_append, ht]
  rfl

/-- A comma is neither a quotation mark nor a bracket. -/
theorem paired_comma : Paired [ch ','] := by decide

/-! ### White space -/

namespace Fence

/-- No byte is escaped any more. -/
def calm (f : Fence) : Fence := { f with quote := f.quote.map fun q => (q.1, false) }

@[simp] theorem calm_calm (f : Fence) : f.calm.calm = f.calm := by
  obtain ⟨quote, closers⟩ := f
  cases quote <;> rfl

theorem calm_eq_empty_iff {f : Fence} : f.calm = {} ↔ f = {} := by
  obtain ⟨quote, closers⟩ := f
  cases quote <;> simp [calm]

/-- A byte of white space stands for itself only: an escape before it ends with it. -/
theorem step_of_inBlank (f : Fence) {c : UInt8} (hc : inBlank c) : f.step c = some f.calm := by
  have hne {d : UInt8} (hd : inBlank d = false) : c ≠ d := by
    rintro rfl
    simp [hc] at hd
  obtain ⟨_ | ⟨q, _ | _⟩, closers⟩ := f
  · simp [step, calm, hne (d := ch '"') (by decide), hne (d := ch '\'') (by decide),
      hne (d := ch '(') (by decide), hne (d := ch '[') (by decide), hne (d := ch ')') (by decide),
      hne (d := ch ']') (by decide)]
  · have hquote : c ≠ q.byte := hne (by cases q <;> decide)
    simp [step, calm, hne (d := ch '\\') (by decide), hquote]
  · rfl

theorem pass_of_inBlank (f : Fence) {c : UInt8} {w : Text} (hc : inBlank c)
    (hw : ∀ c ∈ w, inBlank c) : f.pass (c :: w) = some f.calm := by
  rw [pass_cons, step_of_inBlank f hc, Option.bind_some]
  induction w generalizing f with
  | nil => rfl
  | cons d w ih =>
    obtain ⟨hd, hw⟩ := List.forall_mem_cons.mp hw
    rw [pass_cons, step_of_inBlank _ hd, Option.bind_some, ih _ hw, calm_calm]

/-- White space at the start of a text. -/
theorem pass_of_spaceWidth (f : Fence) {a : UInt8} {r : Text} {n : Nat}
    (h : spaceWidth (a :: r) = n + 1) : f.pass (a :: r) = f.calm.pass (r.drop n) := by
  obtain ⟨ha, hr⟩ := inBlank_of_spaceWidth h
  conv_lhs => rw [← List.take_append_drop n r, ← List.cons_append, pass_append,
    pass_of_inBlank f ha hr, Option.bind_some]

/-- Collapsing white space makes no difference but for an escape at the very end. The word under
way is passed together with what comes after it. -/
theorem pass_fieldsFrom (f : Fence) (hf : f.calm = f) {k : Nat} {word t : Text}
    (hskip : k ≠ 0 → word = []) :
    (f.pass (word.reverse ++ t.drop k)).map calm =
      (f.pass (join [ch ' '] (fieldsFrom k word t))).map calm := by
  fun_induction fieldsFrom k word t generalizing f with
  | case1 k word =>
    rw [List.drop_nil, List.append_nil, flush]
    split_ifs with hempty
    · rw [List.isEmpty_iff.mp hempty, join_nil]
      rfl
    · rw [join_singleton]
  | case2 word a r hwidth ih =>
    have hword := ih f hf fun h => absurd rfl h
    simpa using hword
  | case3 word a r w hwidth ih =>
    rw [List.drop_zero, pass_append, flush]
    split_ifs with hempty
    · -- White space at the start, where nothing is escaped.
      rw [List.isEmpty_iff.mp hempty, List.reverse_nil, pass_nil, Option.bind_some,
        pass_of_spaceWidth f hwidth, hf, List.nil_append]
      exact ih f hf fun _ => rfl
    · -- A word ends here. What is open after it, with no escape left over, goes on to the next.
      cases hpass : f.pass word.reverse with
      | none =>
        rw [List.singleton_append, join_cons, pass_append, hpass]
        rfl
      | some g =>
        have hrest := ih g.calm g.calm_calm fun _ => rfl
        rw [Option.bind_some, pass_of_spaceWidth g hwidth]
        rw [List.reverse_nil, List.nil_append] at hrest
        rw [hrest]
        cases hwords : fieldsFrom w [] r with
        | nil =>
          -- It was the last word: nothing stands in for the white space at the end.
          rw [List.append_nil, join_singleton, hpass, join_nil, pass_nil]
          simp
        | cons u us =>
          have hspace : g.pass [ch ' '] = some g.calm :=
            pass_of_inBlank g (by decide) (List.forall_mem_nil _)
          rw [List.singleton_append, join_cons_cons, pass_append, pass_append, hpass,
            Option.bind_some, hspace, Option.bind_some]
  | case4 k word a r ih =>
    obtain rfl := hskip (Nat.succ_ne_zero k)
    exact ih f hf fun _ => rfl

end Fence

/-- Collapsing white space changes nothing about what is open. -/
theorem paired_collapse_iff {t : Text} : Paired (collapse t) ↔ Paired t := by
  have hpass := @Fence.pass_fieldsFrom {} rfl 0 [] t fun _ => rfl
  have hpaired (u : Text) : Paired u ↔ (Fence.pass {} u).map Fence.calm = some {} := by
    rw [Paired]
    cases Fence.pass {} u with
    | none => exact iff_of_false nofun nofun
    | some g => rw [Option.map_some, Option.some_inj, Option.some_inj, Fence.calm_eq_empty_iff]
  rw [hpaired, hpaired, collapse, fields, ← hpass]
  rfl

/-- The words of a text have all its bytes that are no part of white space. -/
theorem mem_fieldsFrom_iff {c : UInt8} (hc : inBlank c = false) {k : Nat} {word t : Text}
    (hskip : k ≠ 0 → word = []) :
    (∃ w ∈ fieldsFrom k word t, c ∈ w) ↔ c ∈ word ∨ c ∈ t.drop k := by
  have hflush {word : Text} : (∃ w ∈ flush word, c ∈ w) ↔ c ∈ word := by
    rw [flush]
    split_ifs with hempty
    · simp [List.isEmpty_iff.mp hempty]
    · simp
  fun_induction fieldsFrom k word t with
  | case1 k word => rw [hflush, List.drop_nil, or_iff_left List.not_mem_nil]
  | case2 word a r hwidth ih =>
    refine (ih fun h => absurd rfl h).trans ?_
    rw [List.drop_zero, List.drop_zero, List.mem_cons, List.mem_cons]
    tauto
  | case3 word a r w hwidth ih =>
    obtain ⟨ha, hr⟩ := inBlank_of_spaceWidth hwidth
    -- the byte is none of the white space that is passed
    have hca : c ≠ a := by
      rintro rfl
      simp [hc] at ha
    have hcr : c ∉ r.take w := fun h => absurd (hr c h) (by simp [hc])
    have hdrop : c ∈ a :: r ↔ c ∈ r.drop w := by
      rw [List.mem_cons, or_iff_right hca]
      conv_lhs => rw [← List.take_append_drop w r, List.mem_append, or_iff_right hcr]
    rw [List.drop_zero, hdrop]
    simp only [List.mem_append, or_and_right, exists_or, hflush, ih fun _ => rfl,
      List.not_mem_nil, false_or]
  | case4 k word a r ih =>
    obtain rfl := hskip (Nat.succ_ne_zero k)
    exact ih fun _ => rfl

theorem mem_collapse_iff {t : Text} {c : UInt8} (hc : inBlank c = false) :
    c ∈ collapse t ↔ c ∈ t := by
  have hspace : c ∉ [ch ' '] := by
    rw [List.mem_singleton]
    rintro rfl
    exact absurd hc (by decide)
  rw [collapse, mem_join_iff hspace, fields, mem_fieldsFrom_iff hc fun _ => rfl]
  simp

/-! ### Commas -/

/-- Every comma of a text stands outside quotes and brackets. -/
def FreeCommas (t : Text) : Prop := ∀ u v, t = u ++ ch ',' :: v → Paired u

/-- The parts between all commas are paired if and only if the commas are free. -/
theorem paired_parts_iff {t : Text} (ht : Paired t) :
    (∀ p ∈ split (ch ',') t, Paired p) ↔ FreeCommas t :=
  forall_mem_split_iff (fun _ hu => hu.append_iff) paired_comma ht

/-- The parts of a text between the commas outside quotes and brackets, where `f` is what is open
and `part` the part under way, last byte first. -/
def topPartsFrom : Option Fence → Text → Text → List Text
  | _, part, [] => [part.reverse]
  | f, part, c :: r =>
    if f = some {} ∧ c = ch ',' then part.reverse :: topPartsFrom f [] r
    else topPartsFrom (f.bind (·.step c)) (c :: part) r

/-- The parts of a text between the commas outside quotes and brackets. -/
def topParts (t : Text) : List Text := topPartsFrom (some {}) [] t

theorem topPartsFrom_ne_nil (f : Option Fence) (part t : Text) : topPartsFrom f part t ≠ [] := by
  fun_induction topPartsFrom f part t with
  | case1 => exact List.cons_ne_nil _ _
  | case2 => exact List.cons_ne_nil _ _
  | case3 _ _ _ _ _ ih => exact ih

/-- The parts joined by commas are the text. -/
theorem join_topPartsFrom (f : Option Fence) (part t : Text) :
    join [ch ','] (topPartsFrom f part t) = part.reverse ++ t := by
  fun_induction topPartsFrom f part t with
  | case1 f part => rw [join_singleton, List.append_nil]
  | case2 f part c r h ih =>
    obtain ⟨p, ps, hps⟩ := List.exists_cons_of_ne_nil (topPartsFrom_ne_nil f [] r)
    rw [hps] at ih ⊢
    rw [join_cons_cons, ih, h.2]
    simp
  | case3 f part c r _ ih =>
    rw [ih]
    simp

theorem join_topParts (t : Text) : join [ch ','] (topParts t) = t := join_topPartsFrom _ [] t

/-- Of a text that is paired the parts are. -/
theorem paired_of_mem_topPartsFrom {f : Option Fence} {part t : Text}
    (hpart : Fence.pass {} part.reverse = f) (ht : f.bind (·.pass t) = some {}) :
    ∀ p ∈ topPartsFrom f part t, Paired p := by
  fun_induction topPartsFrom f part t with
  | case1 f part =>
    intro p hp
    rw [List.mem_singleton.mp hp, Paired, hpart]
    simpa using ht
  | case2 f part c r h ih =>
    obtain ⟨rfl, rfl⟩ := h
    rw [List.forall_mem_cons]
    exact ⟨hpart, ih rfl ht⟩
  | case3 f part c r _ ih =>
    refine ih ?_ ?_
    · rw [List.reverse_cons, Fence.pass_append, hpart]
      simp
    · rw [← ht]
      cases f <;> rfl

/-- A part without commas is passed to its end. -/
theorem topPartsFrom_append {p : Text} (hp : ch ',' ∉ p) (f : Option Fence) (part t : Text) :
    topPartsFrom f part (p ++ t) = topPartsFrom (f.bind (·.pass p)) (p.reverse ++ part) t := by
  induction p generalizing f part with
  | nil => cases f <;> rfl
  | cons c p ih =>
    rw [List.mem_cons, not_or] at hp
    rw [List.cons_append, topPartsFrom, if_neg fun h => hp.1 h.2.symm, ih hp.2]
    cases f <;> simp

/-- Parts that are paired and without commas, joined by commas. -/
theorem topParts_join {ps : List Text} (hne : ps ≠ [])
    (hps : ∀ p ∈ ps, Paired p ∧ ch ',' ∉ p) : topParts (join [ch ','] ps) = ps := by
  induction ps with
  | nil => exact absurd rfl hne
  | cons p ps ih =>
    obtain ⟨⟨hp, hcomma⟩, hps⟩ := List.forall_mem_cons.mp hps
    have hpass : (some {} : Option Fence).bind (·.pass p) = some {} := hp
    cases ps with
    | nil =>
      rw [join_singleton, topParts, ← List.append_nil p, topPartsFrom_append hcomma]
      simp [topPartsFrom]
    | cons q ps =>
      rw [join_cons_cons, List.append_assoc, topParts, topPartsFrom_append hcomma, hpass,
        List.singleton_append, topPartsFrom, if_pos ⟨rfl, rfl⟩]
      have hrest := ih (List.cons_ne_nil q ps) hps
      rw [topParts] at hrest
      rw [hrest]
      simp

/-! ### Headers -/

/-- Where all commas are free, they are what the text is cut at. -/
theorem FreeCommas.topParts_eq {t : Text} (ht : Paired t) (h : FreeCommas t) :
    topParts t = split (ch ',') t := by
  have hparts := (paired_parts_iff ht).mpr h
  have hjoin : join [ch ','] (split (ch ',') t) = t := by
    rw [split_eq_splitOn]
    exact List.intercalate_splitOn (ch ',')
  have hne : split (ch ',') t ≠ [] := by
    rw [split_eq_splitOn]
    exact List.splitOn_ne_nil _ t
  conv_lhs => rw [← hjoin]
  exact topParts_join hne fun p hp => ⟨hparts p hp, not_mem_of_mem_split hp⟩

/-- The commas are free if and only if no part between free commas has one. -/
theorem freeCommas_iff {t : Text} (ht : Paired t) :
    FreeCommas t ↔ ∀ p ∈ topParts t, ch ',' ∉ p := by
  constructor
  · intro h p hp
    rw [h.topParts_eq ht] at hp
    exact not_mem_of_mem_split hp
  · -- Parts without commas are what the text is cut into at all of them.
    intro h
    have hsplit : split (ch ',') t = topParts t := by
      conv_lhs => rw [← join_topParts t]
      exact split_join (topPartsFrom_ne_nil _ _ _) h
    rw [← paired_parts_iff ht, hsplit]
    exact paired_of_mem_topPartsFrom rfl ht

/-- A header that extends nothing is a list of selectors. -/
theorem parseSelectors_eq {header : Text} (h : has header (of " extends ") = false) :
    (parseSelectors header).1 =
      sortUnique (((split (ch ',') header).map collapse).filter fun s => !s.isEmpty) := by
  have hfind : find (of " extends ") header = none := by
    rw [has] at h
    simpa using h
  rw [parseSelectors, splitExtends, hfind]

/-- The selectors of a header are what is left of its parts with their white space collapsed. -/
theorem mem_parseSelectors_iff {header s : Text} (h : has header (of " extends ") = false) :
    s ∈ (parseSelectors header).1 ↔ (∃ p ∈ split (ch ',') header, collapse p = s) ∧ s ≠ [] := by
  rw [parseSelectors_eq h, mem_sortUnique, List.mem_filter, List.mem_map]
  simp

/-- The selectors of a header that is paired and extends nothing are paired, if and only if each
comma of the header stands outside quotes and brackets; and if and only if they are the parts of the
header between such commas, with white space collapsed, those without anything else left out, in
order and without duplicates. They are then read off again when they are joined by commas. -/
theorem selectors_paired_iff {header : Text} (hextends : has header (of " extends ") = false)
    (hheader : Paired header) :
    ((∀ s ∈ (parseSelectors header).1, Paired s) ↔ FreeCommas header) ∧
    ((parseSelectors header).1 =
        sortUnique (((topParts header).map collapse).filter fun s => !s.isEmpty) ↔
      FreeCommas header) ∧
    (FreeCommas header → (parseSelectors header).1 ≠ [] →
      topParts (join [ch ','] (parseSelectors header).1) = (parseSelectors header).1) := by
  have hmem {s : Text} := mem_parseSelectors_iff (s := s) hextends
  have hpaired : (∀ s ∈ (parseSelectors header).1, Paired s) ↔ FreeCommas header := by
    rw [← paired_parts_iff hheader]
    constructor
    · -- A part of nothing but white space is no selector, and has nothing open.
      intro h p hp
      by_cases hempty : collapse p = []
      · rw [← paired_collapse_iff, hempty]
        exact paired_nil
      · exact paired_collapse_iff.mp (h _ (hmem.mpr ⟨⟨p, hp, rfl⟩, hempty⟩))
    · intro h s hs
      obtain ⟨⟨p, hp, rfl⟩, -⟩ := hmem.mp hs
      exact paired_collapse_iff.mpr (h p hp)
  have hcomma : ∀ s ∈ (parseSelectors header).1, ch ',' ∉ s := by
    intro s hs
    obtain ⟨⟨p, hp, rfl⟩, -⟩ := hmem.mp hs
    rw [mem_collapse_iff (by decide)]
    exact not_mem_of_mem_split hp
  refine ⟨hpaired, ⟨?_, ?_⟩, ?_⟩
  · intro hparts
    rw [freeCommas_iff hheader]
    intro p hp hp'
    -- A part with a comma would be a selector, and no selector has one.
    have hcollapse : ch ',' ∈ collapse p := (mem_collapse_iff (by decide)).mpr hp'
    refine hcomma (collapse p) ?_ hcollapse
    rw [hparts, mem_sortUnique, List.mem_filter, List.mem_map]
    exact ⟨⟨p, hp, rfl⟩, by simpa using List.ne_nil_of_mem hcollapse⟩
  · intro h
    rw [parseSelectors_eq hextends, h.topParts_eq hheader]
  · intro h hne
    exact topParts_join hne fun s hs => ⟨hpaired.mpr h s hs, hcomma s hs⟩

/-- A list of selectors with brackets and quotes in them. -/
def linkList : Text := of ".b:not([title=\"( x\"]) > i ,  a[href]:nth-child(2n), .b"

/-- Its commas are free. -/
theorem linkList_paired :
    has linkList (of " extends ") = false ∧ Paired linkList ∧ FreeCommas linkList ∧
    ∀ s ∈ (parseSelectors linkList).1, Paired s := by
  have hextends : has linkList (of " extends ") = false := by decide
  have hheader : Paired linkList := by decide
  have hfree : FreeCommas linkList := (paired_parts_iff hheader).mp (by decide)
  exact ⟨hextends, hheader, hfree, (selectors_paired_iff hextends hheader).1.mpr hfree⟩

/-- A list of selectors as an argument is cut at its comma. -/
theorem functionalList_cut :
    let header := of ":is(.b, .a)"
    has header (of " extends ") = false ∧ Paired header ∧ topParts header = [header] ∧
    (∀ s, s ∈ (parseSelectors header).1 ↔ s ∈ [of ":is(.b", of ".a)"]) ∧
    ∀ s ∈ (parseSelectors header).1, ¬ Paired s := by
  intro header
  have hextends : has header (of " extends ") = false := by decide
  have hselectors : ((split (ch ',') header).map collapse).filter (fun s => !s.isEmpty) =
      [of ":is(.b", of ".a)"] := by decide
  have hmem (s : Text) : s ∈ (parseSelectors header).1 ↔ s ∈ [of ":is(.b", of ".a)"] := by
    rw [parseSelectors_eq hextends, mem_sortUnique, hselectors]
  refine ⟨hextends, by decide, by decide, hmem, ?_⟩
  intro s hs
  have hcut : ∀ s ∈ [of ":is(.b", of ".a)"], ¬ Paired s := by decide
  exact hcut s ((hmem s).mp hs)

end Stylesheet
