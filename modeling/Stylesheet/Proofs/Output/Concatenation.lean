import Stylesheet.Proofs.Plain.FixedPoint

/-!
# Fragments written one after the other

Fragments share a media block or a rule only with those next to them. So where two lists of
fragments meet, all that matters are the last one written of the first list and the first one
written of the second: if these go into different media blocks, or stand outside media blocks
in different rules, then the lists are written one after the other. Private characters are
made public after that, which comes to the same before: what is written ends in an ASCII byte,
so none of them is put together where the texts meet.

## Main definitions

* `Fragment.writing` — what is written of a fragment
* `Fragment.Apart` — fragments that share neither a media block nor a rule
* `Seam` — how the groups of two lists make up those of both

## Main results

* `Style.print_congr` — only what is written of fragments matters
* `Style.print_append` — fragments that are apart where the lists meet
* `Style.restore_print_append` — the same of the text that is given out
-/

namespace Stylesheet

open Text

/-! ### What is written -/

/-- What is written of a fragment. -/
def Fragment.writing (f : Fragment) : List Text × List Text × List Property × Option RawBlock :=
  (f.selectors, f.media, f.properties, f.raw)

/-- A fragment before the groups of those after it. -/
def MediaGroup.add (f : Fragment) : List MediaGroup → List MediaGroup
  | g :: groups =>
    if g.query = mediaQuery f.media then ⟨mediaQuery f.media, Item.push f g.items⟩ :: groups
    else ⟨mediaQuery f.media, Item.push f []⟩ :: g :: groups
  | [] => [⟨mediaQuery f.media, Item.push f []⟩]

theorem MediaGroup.ofFragments_cons (f : Fragment) (rest : List Fragment) :
    ofFragments (f :: rest) = add f (ofFragments rest) := by
  rw [ofFragments]
  cases ofFragments rest <;> rfl

theorem MediaGroup.add_congr {f f' : Fragment} (h : f.writing = f'.writing)
    (groups : List MediaGroup) : add f groups = add f' groups := by
  cases f
  cases f'
  simp only [Fragment.writing, Prod.mk.injEq] at h
  obtain ⟨rfl, rfl, rfl, rfl⟩ := h
  rfl

/-- Only what is written of fragments matters to what is written. -/
theorem Style.print_congr (style : Style) {fs gs : List Fragment}
    (h : fs.map Fragment.writing = gs.map Fragment.writing) : style.print fs = style.print gs := by
  have hgroups : MediaGroup.ofFragments (emittedOf fs) = MediaGroup.ofFragments (emittedOf gs) := by
    induction fs generalizing gs with
    | nil =>
      obtain rfl := List.map_eq_nil_iff.mp h.symm
      rfl
    | cons f fs ih =>
      obtain ⟨g, gs, rfl, hg, hgs⟩ := List.map_eq_cons_iff.mp h.symm
      have hwriting := hg
      simp only [Fragment.writing, Prod.mk.injEq] at hwriting
      obtain ⟨-, -, hproperties, hraw⟩ := hwriting
      have hrest := ih hgs.symm
      unfold emittedOf at hrest ⊢
      rw [List.filter_cons, List.filter_cons, Fragment.isEmitted, Fragment.isEmitted, hproperties,
        hraw]
      split_ifs
      · rw [MediaGroup.ofFragments_cons, MediaGroup.ofFragments_cons, hrest,
          MediaGroup.add_congr hg.symm]
      · exact hrest
  rw [print, print, hgroups]

/-! ### Where two lists meet -/

/-- Fragments that share neither a media block nor a rule. -/
def Fragment.Apart (f g : Fragment) : Prop :=
  mediaQuery f.media ≠ mediaQuery g.media ∨
    mediaQuery f.media = [] ∧ mediaQuery g.media = [] ∧ f.key ≠ g.key

/-- How the groups of two lists make up those of both: one after the other, or the last of the
one and the first of the other together, outside media blocks. -/
inductive Seam : List MediaGroup → List MediaGroup → List MediaGroup → Prop
  | apart (groups more : List MediaGroup) : Seam groups more (groups ++ more)
  | within (groups more : List MediaGroup) {items : List Item} (hne : items ≠ [])
      (items' : List Item) : Seam (groups ++ [⟨[], items⟩]) (⟨[], items'⟩ :: more)
        (groups ++ ⟨[], items ++ items'⟩ :: more)

/-- A fragment pushed before items has nothing to do with those after the first. -/
theorem Item.push_append (f : Fragment) {items : List Item} (hne : items ≠ []) (more : List Item) :
    push f (items ++ more) = push f items ++ more := by
  cases items with
  | nil => exact absurd rfl hne
  | cons i items =>
    unfold push
    cases f.raw with
    | some r => rfl
    | none =>
      cases i with
      | raw r => rfl
      | rule selectors properties =>
        dsimp only [List.cons_append]
        split_ifs <;> rfl

theorem Item.push_ne_nil (f : Fragment) (items : List Item) : push f items ≠ [] := by
  unfold push
  split
  · exact List.cons_ne_nil _ _
  · split_ifs <;> exact List.cons_ne_nil _ _
  · exact List.cons_ne_nil _ _

/-- A fragment before groups that are there goes into the first of them, or before it. -/
theorem Seam.add {groups more all : List MediaGroup} (h : Seam groups more all)
    (hne : groups ≠ []) (f : Fragment) :
    Seam (MediaGroup.add f groups) more (MediaGroup.add f all) := by
  cases h with
  | apart =>
    cases groups with
    | nil => exact absurd rfl hne
    | cons g groups =>
      simp only [List.cons_append, MediaGroup.add]
      split_ifs
      · exact .apart (_ :: groups) more
      · exact .apart (_ :: g :: groups) more
  | @within groups more items hitems items' =>
    cases groups with
    | nil =>
      -- the fragment comes before the very group in which the lists meet
      simp only [List.nil_append, MediaGroup.add]
      split_ifs with hquery
      · rw [← hquery, Item.push_append f hitems]
        exact .within [] more (Item.push_ne_nil f items) items'
      · exact .within [_] more hitems items'
    | cons g groups =>
      simp only [List.cons_append, MediaGroup.add]
      split_ifs
      · exact .within (_ :: groups) more hitems items'
      · exact .within (_ :: g :: groups) more hitems items'

theorem MediaGroup.add_ne_nil (f : Fragment) (groups : List MediaGroup) : add f groups ≠ [] := by
  cases groups with
  | nil => exact List.cons_ne_nil _ _
  | cons g groups =>
    rw [add]
    split_ifs <;> exact List.cons_ne_nil _ _

/-- The first item of the groups of fragments is that of the first fragment. -/
theorem MediaGroup.exists_items (g : Fragment) (rest : List Fragment) :
    ∃ items more, ofFragments (g :: rest) = ⟨mediaQuery g.media, items⟩ :: more ∧
      ∀ i ∈ items.head?, ∀ selectors properties, i = .rule selectors properties →
        join [ch ','] selectors = g.key := by
  have hpush (items : List Item) : ∀ i ∈ (Item.push g items).head?, ∀ selectors properties,
      i = .rule selectors properties → join [ch ','] selectors = g.key := by
    unfold Item.push
    intro i hi selectors properties hrule
    subst hrule
    split at hi
    · cases hi
    · split_ifs at hi <;> cases hi <;> rfl
    · cases hi
      rfl
  rw [ofFragments_cons]
  cases ofFragments rest with
  | nil => exact ⟨_, _, rfl, hpush _⟩
  | cons h groups =>
    rw [add]
    split_ifs
    · exact ⟨_, _, rfl, hpush _⟩
    · exact ⟨_, _, rfl, hpush _⟩

/-- A fragment before fragments that it is apart from. -/
theorem Fragment.Apart.seam {f g : Fragment} (h : f.Apart g) (rest : List Fragment) :
    Seam (MediaGroup.ofFragments [f]) (MediaGroup.ofFragments (g :: rest))
      (MediaGroup.ofFragments (f :: g :: rest)) := by
  obtain ⟨items, more, hgroups, hfirst⟩ := MediaGroup.exists_items g rest
  rw [MediaGroup.ofFragments_cons f (g :: rest), hgroups, MediaGroup.add]
  rcases h with hquery | ⟨hf, hg, hkey⟩
  · rw [if_neg (Ne.symm hquery)]
    exact .apart [_] _
  · -- Both are outside media blocks, so in one group, but the first rule there is another.
    rw [hf, hg, if_pos rfl]
    -- so what is pushed makes an item of its own
    have hpush : Item.push f items = Item.push f [] ++ items := by
      unfold Item.push
      cases f.raw with
      | some r => rfl
      | none =>
        cases items with
        | nil => rfl
        | cons i items =>
          cases i with
          | raw r => rfl
          | rule selectors properties =>
            have hother : join [ch ','] selectors ≠ f.key := by
              rw [hfirst _ rfl selectors properties rfl]
              exact Ne.symm hkey
            dsimp only
            rw [if_neg hother]
            rfl
    rw [hpush]
    have hseam := Seam.within [] more (Item.push_ne_nil f []) items
    rw [MediaGroup.ofFragments_cons, MediaGroup.ofFragments, MediaGroup.add, hf]
    exact hseam

/-- Where the last fragment of one list is apart from the first of another, the groups of both
are made up of those of each. -/
theorem seam_ofFragments {fs gs : List Fragment}
    (h : ∀ f ∈ fs.getLast?, ∀ g ∈ gs.head?, f.Apart g) :
    Seam (MediaGroup.ofFragments fs) (MediaGroup.ofFragments gs)
      (MediaGroup.ofFragments (fs ++ gs)) := by
  -- the groups are made from the back, so the lists meet first where the first list ends
  induction fs with
  | nil => exact .apart [] _
  | cons f fs ih =>
    cases fs with
    | nil =>
      cases gs with
      | nil =>
        rw [List.append_nil]
        have hseam := Seam.apart (MediaGroup.ofFragments [f]) []
        rwa [List.append_nil] at hseam
      | cons g gs => exact (h f rfl g rfl).seam gs
    | cons f' fs =>
      have hrest := ih fun last hlast => h last (by rwa [List.getLast?_cons_cons])
      rw [List.cons_append, MediaGroup.ofFragments_cons, MediaGroup.ofFragments_cons]
      refine hrest.add ?_ f
      rw [MediaGroup.ofFragments_cons]
      exact MediaGroup.add_ne_nil _ _

namespace Style

variable (style : Style)

/-- Groups are written one after the other, also where two are one outside media blocks. -/
theorem print_seam {groups more all : List MediaGroup} (h : Seam groups more all) :
    all.flatMap style.group = groups.flatMap style.group ++ more.flatMap style.group := by
  cases h with
  | apart => exact List.flatMap_append
  | within => simp [group, List.flatMap_append]

theorem print_append {fs gs : List Fragment}
    (h : ∀ f ∈ (emittedOf fs).getLast?, ∀ g ∈ (emittedOf gs).head?, f.Apart g) :
    style.print (fs ++ gs) = style.print fs ++ style.print gs := by
  have hseam := style.print_seam (seam_ofFragments h)
  rw [print, emittedOf, List.filter_append]
  exact hseam

end Style

/-! ### Private characters -/

/-- A text that is empty or ends in an ASCII byte. -/
def EndsAscii (t : Text) : Prop := t = [] ∨ ∃ u c, t = u ++ [c] ∧ c < 0x80

namespace EndsAscii

variable {t u : Text}

theorem append (ht : EndsAscii t) (hu : EndsAscii u) : EndsAscii (t ++ u) := by
  rcases hu with rfl | ⟨v, c, rfl, hc⟩
  · rwa [List.append_nil]
  · exact .inr ⟨t ++ v, c, (List.append_assoc _ _ _).symm, hc⟩

theorem concat (t : Text) {c : UInt8} (hc : c < 0x80) : EndsAscii (t ++ [c]) := .inr ⟨t, c, rfl, hc⟩

theorem prepend (t : Text) (hu : EndsAscii u) (hne : u ≠ []) : EndsAscii (t ++ u) := by
  obtain ⟨v, c, rfl, hc⟩ := hu.resolve_left hne
  exact .inr ⟨t ++ v, c, (List.append_assoc _ _ _).symm, hc⟩

theorem flatMap {α : Type} {f : α → Text} {xs : List α} (h : ∀ x ∈ xs, EndsAscii (f x)) :
    EndsAscii (xs.flatMap f) := by
  induction xs with
  | nil => exact .inl rfl
  | cons x xs ih =>
    obtain ⟨hx, hxs⟩ := List.forall_mem_cons.mp h
    exact hx.append (ih hxs)

/-- After a text that ends in an ASCII byte private characters are made public on their own. -/
theorem restore_append (ht : EndsAscii t) (u : Text) :
    restore (t ++ u) = restore t ++ restore u := by
  rcases ht with rfl | ⟨v, c, rfl, hc⟩
  · rfl
  · rw [List.append_assoc, List.singleton_append, restore_append_ascii hc, restore_append_ascii hc]
    simp [restore]

end EndsAscii

namespace Style

variable (style : Style)

theorem endsAscii_line (level : Nat) (t : Text) {c : UInt8} (hc : c < 0x80) :
    EndsAscii (style.line level (t ++ [c])) := by
  unfold line
  split_ifs
  · exact .concat t hc
  · exact .concat _ (by decide)

theorem endsAscii_block (level : Nat) (header content : Text) :
    EndsAscii (style.block level header content) := by
  have hclose : EndsAscii (style.line level [ch '\x7d']) :=
    style.endsAscii_line level [] (by decide)
  refine hclose.prepend _ ?_
  unfold line
  split_ifs <;> simp

theorem endsAscii_item (level : Nat) (i : Item) : EndsAscii (style.item level i) := by
  cases i with
  | rule selectors properties =>
    rw [item]
    split_ifs
    · have hsemicolon : ch ';' < 0x80 := by decide
      exact .flatMap fun l _ => style.endsAscii_line level l hsemicolon
    · exact style.endsAscii_block _ _ _
  | raw r =>
    rw [item]
    split_ifs
    · exact .concat _ (by decide)
    · exact style.endsAscii_block _ _ _

theorem endsAscii_print (fs : List Fragment) : EndsAscii (style.print fs) := by
  refine .flatMap fun g _ => ?_
  unfold group
  split_ifs
  · exact .flatMap fun i _ => style.endsAscii_item 0 i
  · exact style.endsAscii_block _ _ _

/-- Fragments that are apart where two lists meet are written one after the other, private
characters and all. -/
theorem restore_print_append {fs gs : List Fragment}
    (h : ∀ f ∈ (emittedOf fs).getLast?, ∀ g ∈ (emittedOf gs).head?, f.Apart g) :
    restore (style.print (fs ++ gs)) = restore (style.print fs) ++ restore (style.print gs) := by
  rw [style.print_append h, (style.endsAscii_print fs).restore_append]

end Style

end Stylesheet
