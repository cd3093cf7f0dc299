import Mathlib
import Stylesheet.Function.Selector
import Stylesheet.Proofs.Selector.Nesting
import Stylesheet.Proofs.Text.Characters

/-!
# The function that nests selectors

Selectors can be nested by rules inside one another and by a function. The function trims the
selectors it is given and keeps the white space inside them; rules have it collapsed at each level.
What the function gives, read as the selectors of a rule, are the selectors of the rules all the
same: at each level its selectors, collapsed, are theirs. For this its selectors must have no white
space at their ends, whatever is put in place of an `&`. In texts of whole characters they have
none.

The promise is not kept where the selectors are put together to a text that extends something,
though none of the arguments does. The text is then cut, and some of the selectors are lost.

## Main definitions

* `Raw` — a selector with the white space inside it as it was written
* `Collapses` — a list of such selectors, and the selectors that they are once collapsed
* `nestedSelectors` — the selectors of rules inside one another

## Main results

* `collapse_nestOne` — one selector below another
* `Collapses.nest`, `Collapses.foldl` — lists of selectors below one another
* `parseSelectors_nest` — what the function gives, read as selectors
* `extends_joined_cut` — arguments that do not extend anything, but together do
-/

namespace Stylesheet

open Text SelectorFunction

/-! ### One selector -/

/-- A selector as it is written, without white space at its ends. -/
structure Raw (r : Text) : Prop where
  snug : Snug r
  complete : Complete r
  comma : ch ',' ∉ r

theorem nestOne_of_mem {p c : Text} (hc : ch '&' ∈ c) : nestOne p c = replace [ch '&'] p c :=
  if_pos (hasByte_iff.mpr hc)

theorem nestOne_of_not_mem {p c : Text} (hc : ch '&' ∉ c) : nestOne p c = p ++ ch ' ' :: c :=
  if_neg (mt hasByte_iff.mp hc)

/-- What is put in place of a byte can be collapsed, and so can what it is put in. -/
theorem sameWords_replace {q : UInt8} (hq : inBlank q = false) {new t : Text} (hnew : Snug new)
    (ht : Snug t) : SameWords (replace [q] new t) (replace [q] (collapse new) (collapse t)) := by
  rw [replace_singleton, replace_singleton]
  have hkept (c : UInt8) (hc : inBlank c = true) : (if c = q then new else [c]) = [c] := by
    refine if_neg ?_
    rintro rfl
    rw [hq] at hc
    cases hc
  -- First the text around the byte is collapsed, then what takes the place of the byte.
  refine (ht.sameWords_flatMap hkept).trans (.flatMap (fun c => ?_) _)
  split_ifs
  · exact hnew.sameWords
  · exact .refl [c]

/-- Nesting collapsed selectors gives the same as collapsing nested ones. -/
theorem collapse_nestOne {p c : Text} (hp : Snug p) (hc : Snug c) :
    collapse (nestOne p c) = nestSelector (collapse p) (collapse c) := by
  have hamp : ch '&' ∈ collapse c ↔ ch '&' ∈ c := mem_collapse_iff (by decide)
  by_cases hmem : ch '&' ∈ c
  · rw [nestOne_of_mem hmem, nestSelector_of_mem (hamp.mpr hmem)]
    exact (sameWords_replace (by decide) hp hc).collapse_eq
  · rw [nestOne_of_not_mem hmem, nestSelector_of_not_mem hp.collapse_ne_nil (mt hamp.mp hmem)]
    exact collapse_append_space hp.collapse_ne_nil hc.collapse_ne_nil

theorem Raw.nestOne {p c : Text} (hp : Raw p) (hc : Raw c) : Raw (nestOne p c) := by
  by_cases hmem : ch '&' ∈ c
  · rw [nestOne_of_mem hmem]
    refine ⟨hp.snug.replace (by decide) hp.complete hc.snug hc.complete hmem,
      hp.complete.replace (by decide) hc.complete, ?_⟩
    rw [replace_singleton, List.mem_flatMap]
    rintro ⟨b, hb, hcomma⟩
    split_ifs at hcomma
    · exact hp.comma hcomma
    · exact hc.comma (List.mem_singleton.mp hcomma ▸ hb)
  · rw [nestOne_of_not_mem hmem]
    have hspace : Complete [ch ' '] := complete_ascii (by decide)
    refine ⟨?_, hp.complete.append (hspace.append hc.complete), ?_⟩
    · simpa using hp.snug.append hc.snug (List.cons_ne_nil (ch ' ') []) (by decide)
    · simp only [List.mem_append, List.mem_cons, not_or]
      exact ⟨hp.comma, by decide, hc.comma⟩

/-! ### Lists of selectors -/

/-- Selectors as they are written, and the selectors that they are once collapsed. -/
structure Collapses (raws selectors : List Text) : Prop where
  raw : ∀ r ∈ raws, Raw r
  ordered : Ordered selectors
  mem : ∀ s, s ∈ selectors ↔ ∃ r ∈ raws, collapse r = s

theorem Collapses.ne_nil {raws selectors : List Text} (h : Collapses raws selectors)
    (hne : raws ≠ []) : selectors ≠ [] := by
  obtain ⟨r, hr⟩ := List.exists_mem_of_ne_nil raws hne
  exact List.ne_nil_of_mem ((h.mem _).mpr ⟨r, hr, rfl⟩)

theorem mem_nestAll_iff {parents children : List Text} {r : Text} :
    r ∈ nestAll parents children ↔ ∃ p ∈ parents, ∃ c ∈ children, nestOne p c = r := by
  rw [nestAll, List.mem_flatMap]
  simp only [List.mem_map]

/-- The selectors of the function and those of the rules, one level further in. -/
theorem Collapses.nest {parents children selectors inner : List Text}
    (h : Collapses parents selectors) (h' : Collapses children inner) (hne : parents ≠ []) :
    Collapses (nestAll parents children) (nestSelectors selectors inner) := by
  refine ⟨?_, ordered_nestSelectors selectors inner, fun s => ?_⟩
  · intro r hr
    obtain ⟨p, hp, c, hc, rfl⟩ := mem_nestAll_iff.mp hr
    exact (h.raw p hp).nestOne (h'.raw c hc)
  · rw [mem_nestSelectors_iff (h.ne_nil hne)]
    constructor
    · rintro ⟨s, hs, t, ht, rfl⟩
      obtain ⟨p, hp, rfl⟩ := (h.mem s).mp hs
      obtain ⟨c, hc, rfl⟩ := (h'.mem t).mp ht
      exact ⟨_, mem_nestAll_iff.mpr ⟨p, hp, c, hc, rfl⟩,
        collapse_nestOne (h.raw p hp).snug (h'.raw c hc).snug⟩
    · rintro ⟨r, hr, rfl⟩
      obtain ⟨p, hp, c, hc, rfl⟩ := mem_nestAll_iff.mp hr
      exact ⟨_, (h.mem _).mpr ⟨p, hp, rfl⟩, _, (h'.mem _).mpr ⟨c, hc, rfl⟩,
        (collapse_nestOne (h.raw p hp).snug (h'.raw c hc).snug).symm⟩

theorem nestAll_ne_nil {parents children : List Text} (hparents : parents ≠ [])
    (hchildren : children ≠ []) : nestAll parents children ≠ [] := by
  obtain ⟨p, hp⟩ := List.exists_mem_of_ne_nil parents hparents
  obtain ⟨c, hc⟩ := List.exists_mem_of_ne_nil children hchildren
  exact List.ne_nil_of_mem (mem_nestAll_iff.mpr ⟨p, hp, c, hc, rfl⟩)

/-! ### Arguments -/

/-- A text in UTF-8 that extends nothing and has more in it than commas and white space. -/
structure SelectorText (t : Text) : Prop where
  valid : t.toByteArray.IsValidUTF8
  part : ∃ p ∈ split (ch ',') t, trim p ≠ []
  plain : has t (of " extends ") = false

theorem mem_selectorsOf_iff {v : Value} {r : Text} :
    r ∈ selectorsOf v ↔ (∃ p ∈ split (ch ',') v.unquoted, trim p = r) ∧ r ≠ [] := by
  rw [selectorsOf, List.mem_filter, List.mem_map]
  simp

theorem ordered_parseSelectors (header : Text) : Ordered (parseSelectors header).1 :=
  ordered_sortUnique _

/-- The parts of whole characters between ASCII characters are whole characters. -/
theorem complete_of_mem_split {sep : UInt8} (hsep : sep < 0x80) {t p : Text} (ht : Complete t)
    (hp : p ∈ split sep t) : Complete p := by
  refine (forall_mem_split_iff (fun _ hu => hu.append_iff) (complete_ascii hsep) ht).mpr ?_ p hp
  rintro u v rfl
  exact ht.upto (List.cons_ne_nil _ _) (by simp [isLead, hsep])

/-- The selectors of an argument and those of a rule with the same header. -/
theorem SelectorText.collapses {v : Value} (h : SelectorText v.unquoted) :
    Collapses (selectorsOf v) (parseSelectors v.unquoted).1 := by
  refine ⟨fun r hr => ?_, ordered_parseSelectors _, fun s => ?_⟩
  · obtain ⟨⟨p, hp, rfl⟩, hne⟩ := mem_selectorsOf_iff.mp hr
    have hcomplete := complete_of_mem_split (by decide) (complete_of_isValidUTF8 h.valid) hp
    refine ⟨snug_trim hne, hcomplete.trim, fun hcomma => not_mem_of_mem_split hp ?_⟩
    rwa [← mem_collapse_iff (by decide), ← collapse_trim, mem_collapse_iff (by decide)]
  · rw [mem_parseSelectors_iff h.plain]
    simp only [mem_selectorsOf_iff]
    constructor
    · rintro ⟨⟨p, hp, rfl⟩, hne⟩
      exact ⟨trim p, ⟨⟨p, hp, rfl⟩, mt collapse_eq_nil_iff_trim.mpr hne⟩, collapse_trim p⟩
    · rintro ⟨r, ⟨⟨p, hp, rfl⟩, hne⟩, rfl⟩
      rw [collapse_trim]
      exact ⟨⟨p, hp, rfl⟩, mt collapse_eq_nil_iff_trim.mp hne⟩

theorem SelectorText.selectorsOf_ne_nil {v : Value} (h : SelectorText v.unquoted) :
    selectorsOf v ≠ [] := by
  obtain ⟨p, hp, hne⟩ := h.part
  exact List.ne_nil_of_mem (mem_selectorsOf_iff.mpr ⟨⟨p, hp, rfl⟩, hne⟩)

/-- Arguments one after the other, and rules one inside the other. -/
theorem Collapses.foldl {raws selectors : List Text} (h : Collapses raws selectors)
    (hne : raws ≠ []) {args : List Value} (hargs : ∀ v ∈ args, SelectorText v.unquoted) :
    let raws' := args.foldl (fun acc v => nestAll acc (selectorsOf v)) raws
    let selectors' := args.foldl (fun acc v => nestSelectors acc (parseSelectors v.unquoted).1)
      selectors
    Collapses raws' selectors' ∧ raws' ≠ [] := by
  induction args generalizing raws selectors with
  | nil => exact ⟨h, hne⟩
  | cons v args ih =>
    obtain ⟨hv, hargs⟩ := List.forall_mem_cons.mp hargs
    exact ih (h.nest hv.collapses hne) (nestAll_ne_nil hne hv.selectorsOf_ne_nil) hargs

/-! ### What is written -/

theorem texts_plain (ts : List Text) : Value.texts ((ts.map Value.plain).map ([], ·)) = ts := by
  induction ts with
  | nil => rfl
  | cons t ts ih =>
    rw [List.map_cons, List.map_cons, Value.texts, ih]
    rfl

/-- A list of selectors is written with commas and spaces between them. -/
theorem text_selectorList {ts : List Text} (hts : ∀ t ∈ ts, t ≠ []) :
    (selectorList ts).text = join [ch ',', ch ' '] ts := by
  have hkept : ts.filter (fun t => !t.isEmpty) = ts :=
    List.filter_eq_self.mpr fun t ht => by simpa using hts t ht
  rw [selectorList, Value.ofList, Value.text, texts_plain, hkept]
  rfl

/-- The spaces between the parts are gone when those are collapsed. -/
theorem map_collapse_split_join {ts : List Text} (hne : ts ≠ []) (hts : ∀ t ∈ ts, ch ',' ∉ t) :
    (split (ch ',') (join [ch ',', ch ' '] ts)).map collapse = ts.map collapse := by
  obtain ⟨t, ts, rfl⟩ := List.exists_cons_of_ne_nil hne
  obtain ⟨ht, hts⟩ := List.forall_mem_cons.mp hts
  have hjoin : join [ch ',', ch ' '] (t :: ts) = join [ch ','] (t :: ts.map (ch ' ' :: ·)) := by
    rw [join_cons, join_cons, List.flatMap_map]
    rfl
  rw [hjoin, split_join (List.cons_ne_nil _ _), List.map_cons, List.map_map, List.map_cons]
  · exact congrArg _ (List.map_congr_left fun t _ => collapse_space_cons t)
  · rw [List.forall_mem_cons, List.forall_mem_map]
    exact ⟨ht, fun t ht' => List.not_mem_cons_of_ne_of_not_mem (by decide) (hts t ht')⟩

/-- Written selectors are read as what they are once collapsed. -/
theorem Collapses.parseSelectors_eq {raws selectors : List Text} (h : Collapses raws selectors)
    (hne : raws ≠ [])
    (hplain : has (selectorList (sortUnique raws)).text (of " extends ") = false) :
    (parseSelectors (selectorList (sortUnique raws)).text).1 = selectors := by
  have hraw : ∀ r ∈ sortUnique raws, Raw r := fun r hr => h.raw r (mem_sortUnique.mp hr)
  have hsorted : sortUnique raws ≠ [] := by
    obtain ⟨r, hr⟩ := List.exists_mem_of_ne_nil raws hne
    exact List.ne_nil_of_mem (mem_sortUnique.mpr hr)
  refine (ordered_parseSelectors _).ext h.ordered fun s => ?_
  rw [mem_parseSelectors_iff hplain, ← List.mem_map,
    text_selectorList fun r hr => (hraw r hr).snug.ne_nil,
    map_collapse_split_join hsorted fun r hr => (hraw r hr).comma, h.mem, List.mem_map]
  simp only [mem_sortUnique]
  refine and_iff_left_of_imp ?_
  rintro ⟨r, hr, rfl⟩
  exact (h.raw r hr).snug.collapse_ne_nil

/-! ### The function -/

/-- The selectors of rules inside one another, the outermost first. -/
def nestedSelectors : List (List Text) → List Text
  | [] => []
  | selectors :: inner => inner.foldl nestSelectors selectors

/-- What the function gives for arguments in UTF-8, each with a selector in it and none extending
anything, are the selectors of rules with these headers inside one another, unless it extends
something now. -/
theorem parseSelectors_nest {a : Args} (hne : a.positional ≠ [])
    (hargs : ∀ v ∈ a.positional, SelectorText v.unquoted) :
    ∃ v, nest a = .ok v ∧ (has v.text (of " extends ") = false →
      (parseSelectors v.text).1 =
        nestedSelectors (a.positional.map fun v => (parseSelectors v.unquoted).1)) := by
  obtain ⟨v, rest, hpositional⟩ := List.exists_cons_of_ne_nil hne
  rw [hpositional, List.forall_mem_cons] at hargs
  obtain ⟨hv, hrest⟩ := hargs
  obtain ⟨hcollapses, hraws⟩ := hv.collapses.foldl hv.selectorsOf_ne_nil hrest
  refine ⟨_, by rw [nest, hpositional], fun hplain => ?_⟩
  rw [hcollapses.parseSelectors_eq hraws hplain, hpositional, List.map_cons, nestedSelectors,
    List.foldl_map]

/-- Two lists of selectors and one with an `&` twice, with white space of all kinds. -/
def menuArguments : Args :=
  { positional :=
      [.quoted (of " nav ,#menu"), .quoted (of "& +  &, .item\t> a ,,"), .plain (of "b")] }

/-- They are nested alike. -/
theorem menuArguments_nest :
    (∀ v ∈ menuArguments.positional, SelectorText v.unquoted) ∧
    ∃ v, nest menuArguments = .ok v ∧
      v.text = of "#menu +  #menu b, #menu .item\t> a b, nav +  nav b, nav .item\t> a b" ∧
      (parseSelectors v.text).1 = nestedSelectors
        (menuArguments.positional.map fun v => (parseSelectors v.unquoted).1) := by
  have hargs : ∀ v ∈ menuArguments.positional, SelectorText v.unquoted := by
    simp only [menuArguments, List.forall_mem_cons]
    refine ⟨?_, ?_, ?_, List.forall_mem_nil _⟩ <;>
      exact ⟨isValidUTF8_of _, by decide, by decide⟩
  obtain ⟨v, hv, hagree⟩ := parseSelectors_nest (by decide) hargs
  have htext :
      v.text = of "#menu +  #menu b, #menu .item\t> a b, nav +  nav b, nav .item\t> a b" := by
    obtain rfl := Except.ok.inj hv
    cbv
  refine ⟨hargs, v, hv, htext, hagree ?_⟩
  rw [htext]
  decide

/-- Neither argument has `extends` in it, but the word comes about where one is put into the other.
And a character that is cut in two comes about in the same way where the arguments are no UTF-8. -/
theorem extends_joined_cut :
    (let a : Args := { positional := [.quoted (of "ends y"), .quoted (of "x ext&")] }
     (∀ v ∈ a.positional, v.unquoted.toByteArray.IsValidUTF8 ∧
        (∃ p ∈ split (ch ',') v.unquoted, trim p ≠ []) ∧
        has v.unquoted (of "extends") = false) ∧
      ∃ v, nest a = .ok v ∧ (parseSelectors v.text).1 = [of "x"] ∧
        nestedSelectors (a.positional.map fun v => (parseSelectors v.unquoted).1) =
          [of "x extends y"]) ∧
    (let a : Args := { positional := [.quoted [0x85], .quoted [0xC2, ch '&']] }
     (∀ v ∈ a.positional, (∃ p ∈ split (ch ',') v.unquoted, trim p ≠ []) ∧
        has v.unquoted (of "extends") = false) ∧
      ∃ v, nest a = .ok v ∧ (parseSelectors v.text).1 = [] ∧
        nestedSelectors (a.positional.map fun v => (parseSelectors v.unquoted).1) = [[]]) := by
  refine ⟨⟨?_, _, rfl, by cbv, by cbv⟩, ?_, _, rfl, by cbv, by cbv⟩
  · simp only [List.forall_mem_cons]
    refine ⟨?_, ?_, List.forall_mem_nil _⟩ <;>
      exact ⟨isValidUTF8_of _, by decide, by decide⟩
  · decide

end Stylesheet
