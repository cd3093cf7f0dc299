import Mathlib.Data.List.Basic
import Stylesheet.Proofs.Selector
import Stylesheet.Proofs.Text.Collapse
import Stylesheet.Selector

/-!
# Nested selectors

A selector below another stands behind it with a space between, or in place of its `&`, and then
its white space is collapsed. Selectors without `&` can be put below a selector first, and the
result below a third, or the other way round: the third takes the place of each `&` of the first
alone, and collapsing what has a space and a collapsed text at its end collapses what is in front
of them.

Lists of selectors are put in order at each level. What they become depends on which selectors are
in them and on nothing else, so the lists are associative as the selectors are.

## Main results

* `nestSelector_nestSelector` — a selector below a selector below a selector
* `mem_nestSelectors_iff` — what is in a list of nested selectors
* `nestSelectors_assoc` — lists of selectors below one another
-/

namespace Stylesheet

open Text

/-! ### One selector -/

theorem hasByte_iff {t : Text} {c : UInt8} : hasByte t c = true ↔ c ∈ t := by
  simp [hasByte]

theorem nestSelector_of_mem {s t : Text} (ht : ch '&' ∈ t) :
    nestSelector s t = collapse (replace [ch '&'] s t) :=
  if_pos (hasByte_iff.mpr ht)

/-- A selector without `&` at the root. -/
theorem nestSelector_root {t : Text} (ht : ch '&' ∉ t) : nestSelector [] t = t := by
  rw [nestSelector, if_neg (mt hasByte_iff.mp ht)]
  rfl

/-- A selector without `&` below another. -/
theorem nestSelector_of_not_mem {s t : Text} (hs : s ≠ []) (ht : ch '&' ∉ t) :
    nestSelector s t = s ++ ch ' ' :: t := by
  rw [nestSelector, if_neg (mt hasByte_iff.mp ht), if_neg (by simpa using hs)]

/-- A selector without `&` can be put below another before or after that is put below a third. -/
theorem nestSelector_nestSelector {r s t : Text} (hs : s ≠ []) (ht : t ≠ [])
    (hcollapse : collapse t = t) (hamp : ch '&' ∉ t) :
    nestSelector (nestSelector r s) t = nestSelector r (nestSelector s t) := by
  have hbelow : nestSelector s t = s ++ ch ' ' :: t := nestSelector_of_not_mem hs hamp
  have hspace : ch '&' ≠ ch ' ' := by decide
  by_cases hsamp : ch '&' ∈ s
  · have hreplace :
        replace [ch '&'] r (s ++ ch ' ' :: t) = replace [ch '&'] r s ++ ch ' ' :: t := by
      conv_rhs => rw [← replace_eq_self hamp r]
      simp only [replace_singleton, List.flatMap_append, List.flatMap_cons]
      rfl
    rw [hbelow, nestSelector_of_mem hsamp, nestSelector_of_mem (List.mem_append_left _ hsamp),
      hreplace]
    by_cases hempty : collapse (replace [ch '&'] r s) = []
    · -- Nothing is left of a lone `&` at the root.
      rw [hempty, nestSelector_root hamp, collapse_append_of_nil hempty, hcollapse]
    · rw [nestSelector_of_not_mem hempty hamp,
        collapse_append_space hempty (hcollapse.symm ▸ ht), hcollapse]
  · have hneither : ch '&' ∉ s ++ ch ' ' :: t := by simp [hsamp, hamp, hspace]
    rw [hbelow]
    by_cases hr : r = []
    · rw [hr, nestSelector_root hsamp, nestSelector_root hneither, hbelow]
    · rw [nestSelector_of_not_mem hr hsamp, nestSelector_of_not_mem hr hneither,
        nestSelector_of_not_mem (by simp [hr]) hamp, List.append_assoc, List.cons_append]

/-! ### Lists of selectors -/

/-- Each parent has each child below it. -/
theorem mem_nestSelectors_iff {parents children : List Text} (hne : parents ≠ []) {s : Text} :
    s ∈ nestSelectors parents children ↔
      ∃ p ∈ parents, ∃ c ∈ children, nestSelector p c = s := by
  rw [nestSelectors, if_neg (by simpa using hne), mem_sortUnique, List.mem_flatMap]
  simp only [List.mem_map]

/-- Without parents there is the root. -/
theorem nestSelectors_nil (children : List Text) :
    nestSelectors [] children = nestSelectors [[]] children := rfl

theorem ordered_nestSelectors (parents children : List Text) :
    Ordered (nestSelectors parents children) := ordered_sortUnique _

theorem nestSelectors_ne_nil {parents children : List Text} (hparents : parents ≠ [])
    (hchildren : children ≠ []) : nestSelectors parents children ≠ [] := by
  obtain ⟨p, hp⟩ := List.exists_mem_of_ne_nil parents hparents
  obtain ⟨c, hc⟩ := List.exists_mem_of_ne_nil children hchildren
  exact List.ne_nil_of_mem ((mem_nestSelectors_iff hparents).mpr ⟨p, hp, c, hc, rfl⟩)

/-- Which selectors there are is all that counts, not how often or in which order. -/
theorem nestSelectors_congr {parents parents' children children' : List Text}
    (hparents : ∀ s, s ∈ parents ↔ s ∈ parents') (hchildren : ∀ s, s ∈ children ↔ s ∈ children') :
    nestSelectors parents children = nestSelectors parents' children' := by
  by_cases hne : parents = []
  · have hne' : parents' = [] := by
      subst hne
      exact List.eq_nil_iff_forall_not_mem.mpr fun s hs => absurd ((hparents s).mpr hs) (by simp)
    rw [hne, hne', nestSelectors_nil, nestSelectors_nil]
    exact sortUnique_congr fun s => by simp [hchildren]
  · have hne' : parents' ≠ [] := by
      obtain ⟨s, hs⟩ := List.exists_mem_of_ne_nil parents hne
      exact List.ne_nil_of_mem ((hparents s).mp hs)
    refine (ordered_nestSelectors _ _).ext (ordered_nestSelectors _ _) fun s => ?_
    rw [mem_nestSelectors_iff hne, mem_nestSelectors_iff hne']
    simp only [hparents, hchildren]

/-- Selectors can be nested from the inside or from the outside: below parents of any kind, if the
innermost ones are collapsed and have no `&`, and the ones between them may have it as often as
they like. Nested selectors are in strict order, and depend on nothing but which parents and which
children there are. -/
theorem nestSelectors_assoc :
    (∀ outer middle inner : List Text, middle ≠ [] → (∀ s ∈ middle, s ≠ []) →
      (∀ s ∈ inner, s ≠ [] ∧ collapse s = s ∧ ch '&' ∉ s) →
      nestSelectors (nestSelectors outer middle) inner =
        nestSelectors outer (nestSelectors middle inner)) ∧
    (∀ parents children : List Text,
      (nestSelectors parents children).Pairwise fun s t => lt s t = true) ∧
    ∀ parents parents' children children' : List Text, (∀ s, s ∈ parents ↔ s ∈ parents') →
      (∀ s, s ∈ children ↔ s ∈ children') →
      nestSelectors parents children = nestSelectors parents' children' := by
  refine ⟨?_, fun parents children => (ordered_nestSelectors parents children).strict,
    fun _ _ _ _ => nestSelectors_congr⟩
  intro outer middle inner hmiddle hs ht
  -- Without parents there is the root, which is a parent like any other.
  obtain ⟨outer', houter', hsame⟩ : ∃ outer', outer' ≠ [] ∧
      ∀ children, nestSelectors outer children = nestSelectors outer' children := by
    by_cases houter : outer = []
    · exact ⟨[[]], List.cons_ne_nil _ _, fun children => by rw [houter, nestSelectors_nil]⟩
    · exact ⟨outer, houter, fun _ => rfl⟩
  rw [hsame, hsame]
  refine (ordered_nestSelectors _ _).ext (ordered_nestSelectors _ _) fun s => ?_
  rw [mem_nestSelectors_iff (nestSelectors_ne_nil houter' hmiddle), mem_nestSelectors_iff houter']
  constructor
  · rintro ⟨x, hx, t, hmem, rfl⟩
    obtain ⟨r, hr, m, hm, rfl⟩ := (mem_nestSelectors_iff houter').mp hx
    obtain ⟨hne, hcollapse, hamp⟩ := ht t hmem
    -- nesting a selector in two steps is nesting the one that the inner two make
    refine ⟨r, hr, nestSelector m t, (mem_nestSelectors_iff hmiddle).mpr ⟨m, hm, t, hmem, rfl⟩, ?_⟩
    exact (nestSelector_nestSelector (hs m hm) hne hcollapse hamp).symm
  · rintro ⟨r, hr, y, hy, rfl⟩
    obtain ⟨m, hm, t, hmem, rfl⟩ := (mem_nestSelectors_iff hmiddle).mp hy
    obtain ⟨hne, hcollapse, hamp⟩ := ht t hmem
    refine ⟨nestSelector r m, (mem_nestSelectors_iff houter').mpr ⟨r, hr, m, hm, rfl⟩, t, hmem, ?_⟩
    exact nestSelector_nestSelector (hs m hm) hne hcollapse hamp

/-- The root and a list, a selector that names its parent twice, and descendants of it. -/
theorem siblingSelectors_nested :
    let outer := [[], of "nav"]
    let middle := [of "& +  &", of ".item", of "&"]
    let inner := [of "a", of "b > i"]
    nestSelectors (nestSelectors outer middle) inner =
      nestSelectors outer (nestSelectors middle inner) ∧
    of "nav + nav b > i" ∈ nestSelectors (nestSelectors outer middle) inner := by
  intro outer middle inner
  have hassoc := nestSelectors_assoc.1 outer middle inner (by decide) (by decide) (by decide)
  refine ⟨hassoc, ?_⟩
  have hmiddle : of "nav + nav" ∈ nestSelectors outer middle :=
    (mem_nestSelectors_iff (by decide)).mpr
      ⟨of "nav", by decide, of "& +  &", by decide, by decide⟩
  exact (mem_nestSelectors_iff (List.ne_nil_of_mem hmiddle)).mpr
    ⟨_, hmiddle, of "b > i", by decide, by decide⟩

end Stylesheet
