import Mathlib.Data.List.Nodup
import Mathlib.Tactic.SplitIfs
import Stylesheet.Proofs.Compile.Replacement

/-!
# Parts

Extends are resolved on fragments grouped into parts by their selectors. This file says
what the parts have to do with the fragments at every moment, and that linking a request
keeps this so while selectors only become more.

## Main definitions

* `Parts.Sound` — every fragment is in the part of its selectors
* `Parts.Grows` — no fragment loses a selector
* `Parts.Within` — no fragment has a selector it may not have

## Main results

* `Parts.sound_ofFragments` — grouping gives sound parts
* `Parts.linkPart_fragments` — the selectors of every fragment after linking a part
* `Parts.Sound.link` — linking a request keeps parts sound and lets them grow
* `Parts.Sound.mem_of_link` — a request adds what it extends
* `Parts.Within.link` — it adds nothing else
-/

namespace Stylesheet

open Text

/-- A fold establishes what one of its steps does and the later ones keep. -/
theorem foldl_establishes {α β : Type} {op : β → α → β} {C : β → Prop} {as : List α} {a : α}
    (ha : a ∈ as) (hmake : ∀ b, C (op b a)) (hkeep : ∀ b a, C b → C (op b a)) (b : β) :
    C (as.foldl op b) := by
  obtain ⟨before, after, rfl⟩ := List.append_of_mem ha
  rw [List.foldl_append, List.foldl_cons]
  exact List.foldlRecOn after op (hmake _) fun b hb a _ => hkeep b a hb

theorem Fragment.subset_split_key {f : Fragment} (hcomma : ∀ s ∈ f.selectors, ch ',' ∉ s) :
    f.selectors ⊆ split (ch ',') f.key := by
  by_cases hne : f.selectors = []
  · rw [hne]
    exact List.nil_subset _
  · rw [Fragment.key, split_join hne hcomma]
    exact List.Subset.refl _

/-- The selectors of a fragment are those its key is made of, unless it has none. -/
theorem Fragment.split_key {f : Fragment} (hcomma : ∀ s ∈ f.selectors, ch ',' ∉ s) {s : Text}
    (hs : s ∈ split (ch ',') f.key) (hne : s ≠ []) : split (ch ',') f.key = f.selectors := by
  refine split_join (fun hnil => hne ?_) hcomma
  rw [Fragment.key, hnil] at hs
  exact List.mem_singleton.mp hs

namespace Parts

/-! ### Grouping -/

variable {key : Text} {ids : List Nat} {ps : List (Text × List Nat)}

theorem keys_insert (key : Text) (ids : List Nat) (ps : List (Text × List Nat)) :
    (insert key ids ps).map (·.1) =
      if key ∈ ps.map (·.1) then ps.map (·.1) else ps.map (·.1) ++ [key] := by
  induction ps with
  | nil => rfl
  | cons e rest ih =>
    rw [insert]
    split_ifs with hkey hmem hmem
    · rfl
    · exact absurd (List.mem_cons.mpr (.inl hkey.symm)) hmem
    · have hrest : key ∈ rest.map (·.1) := (List.mem_cons.mp hmem).resolve_left (Ne.symm hkey)
      rw [List.map_cons, ih, if_pos hrest]
      rfl
    · have hrest : key ∉ rest.map (·.1) := fun h => hmem (List.mem_cons_of_mem _ h)
      rw [List.map_cons, ih, if_neg hrest]
      rfl

theorem nodup_keys_insert (h : (ps.map (·.1)).Nodup) : ((insert key ids ps).map (·.1)).Nodup := by
  rw [keys_insert]
  split_ifs with hkey
  · exact h
  · exact List.nodup_append_comm.mp (List.nodup_cons.mpr ⟨hkey, h⟩)

/-- A part after an insertion was there before, or it is the one inserted into. -/
theorem of_mem_insert {e : Text × List Nat} (he : e ∈ insert key ids ps) :
    e ∈ ps ∨ e.1 = key ∧ ∀ i ∈ e.2, i ∈ ids ∨ ∃ members, (key, members) ∈ ps ∧ i ∈ members := by
  induction ps with
  | nil =>
    obtain rfl := List.mem_singleton.mp he
    exact .inr ⟨rfl, fun i hi => .inl hi⟩
  | cons e' rest ih =>
    rw [insert] at he
    split_ifs at he with hkey
    · rcases List.mem_cons.mp he with rfl | he
      · refine .inr ⟨hkey, fun i hi => (List.mem_append.mp hi).symm.imp_right fun hi => ?_⟩
        exact ⟨e'.2, hkey ▸ List.mem_cons_self, hi⟩
      · exact .inl (List.mem_cons_of_mem _ he)
    · rcases List.mem_cons.mp he with rfl | he
      · exact .inl List.mem_cons_self
      · refine (ih he).imp (List.mem_cons_of_mem _) fun ⟨hk, h⟩ => ⟨hk, fun i hi => ?_⟩
        exact (h i hi).imp_right fun ⟨members, hm, hi⟩ => ⟨members, List.mem_cons_of_mem _ hm, hi⟩

/-- The part inserted into has the new members. -/
theorem mem_insert_self (key : Text) (ids : List Nat) (ps : List (Text × List Nat)) :
    ∃ members, (key, members) ∈ insert key ids ps ∧ ids ⊆ members := by
  induction ps with
  | nil => exact ⟨ids, List.mem_cons_self, fun _ h => h⟩
  | cons e rest ih =>
    rw [insert]
    split_ifs with hkey
    · exact ⟨e.2 ++ ids, hkey ▸ List.mem_cons_self, List.subset_append_right _ _⟩
    · obtain ⟨members, hm, hids⟩ := ih
      exact ⟨members, List.mem_cons_of_mem _ hm, hids⟩

/-- Every part keeps its members. -/
theorem mem_insert_of_mem {k : Text} {members : List Nat} (h : (k, members) ∈ ps) :
    ∃ members', (k, members') ∈ insert key ids ps ∧ members ⊆ members' := by
  induction ps with
  | nil => exact absurd h List.not_mem_nil
  | cons e rest ih =>
    rw [insert]
    split_ifs with hkey
    · rcases List.mem_cons.mp h with rfl | h
      · exact ⟨members ++ ids, List.mem_cons_self, List.subset_append_left _ _⟩
      · exact ⟨members, List.mem_cons_of_mem _ h, fun _ h => h⟩
    · rcases List.mem_cons.mp h with rfl | h
      · exact ⟨members, List.mem_cons_self, fun _ h => h⟩
      · obtain ⟨members', hm, hsub⟩ := ih h
        exact ⟨members', List.mem_cons_of_mem _ hm, hsub⟩

/-! ### The list of keys -/

/-- The keys that are listed are those of the table, in the order of its parts. -/
def Listed (p : Parts) : Prop := p.keys = p.parts.map (·.1)

theorem lookup_isSome_iff : (ps.lookup key).isSome ↔ key ∈ ps.map (·.1) := by
  rw [List.lookup_isSome_iff]
  simp

/-- A key is listed when the table gets it, and not again when it has it. -/
theorem Listed.add {p : Parts} (h : p.Listed) (key : Text) (ids : List Nat) :
    (p.add key ids).Listed := by
  change (if (p.parts.lookup key).isSome then p.keys else p.keys ++ [key]) =
    (insert key ids p.parts).map (·.1)
  rw [keys_insert, h]
  exact if_congr lookup_isSome_iff rfl rfl

theorem Listed.erase {p : Parts} (h : p.Listed) (key : Text) : (p.erase key).Listed := by
  change p.keys.filter (· ≠ key) = (p.parts.filter (·.1 ≠ key)).map (·.1)
  rw [h, List.filter_map]
  rfl

/-- A part that moves leaves the list of keys, and is in it again under its new key. -/
theorem Listed.rename {p : Parts} (h : p.Listed) (key : Text) (ids : List Nat)
    (selectors : List Text) : (p.rename key ids selectors).Listed :=
  (h.erase key).add (join [ch ','] selectors) ids

/-- Grouping changes no fragment. -/
theorem fragments_ofFragments (fs : List Fragment) : (ofFragments fs).fragments = fs := by
  refine List.foldlRecOn (motive := fun p : Parts => p.fragments = fs) _ _ rfl
    fun p hp f _ => ?_
  exact hp

theorem mem_ofFragments {fs : List Fragment} {f : Fragment} :
    f ∈ (ofFragments fs).fragments ↔ f ∈ fs := by
  rw [fragments_ofFragments]

/-- Grouping inserts the fragments one by one. -/
theorem parts_ofFragments (fs : List Fragment) : (ofFragments fs).parts =
    (fs.filter (·.raw.isNone)).foldl (fun ps f => insert f.key [f.id] ps) [] := by
  unfold ofFragments
  generalize fs.filter (·.raw.isNone) = gs
  exact (List.foldl_hom (fun p : Parts => p.parts) fun _ _ => rfl).symm

theorem listed_ofFragments (fs : List Fragment) : (ofFragments fs).Listed :=
  List.foldlRecOn (motive := Listed) _ _ rfl fun _ hp f _ => hp.add f.key [f.id]

/-! ### Soundness -/

/-- What parts have to do with their fragments: the keys listed are those of the table, a part
has fragments with its selectors, every fragment is in one, and selectors can be told apart at
commas. -/
structure Sound (p : Parts) : Prop where
  ids : (p.fragments.map (·.id)).Nodup
  listed : p.Listed
  keys : (p.parts.map (·.1)).Nodup
  members : ∀ e ∈ p.parts, ∀ i ∈ e.2, ∃ f ∈ p.fragments, f.raw = none ∧ f.id = i ∧ f.key = e.1
  covers : ∀ f ∈ p.fragments, f.raw = none → ∃ ids, (f.key, ids) ∈ p.parts ∧ f.id ∈ ids
  comma : ∀ f ∈ p.fragments, ∀ s ∈ f.selectors, ch ',' ∉ s

/-- Fragments keep their selectors, and may get more. -/
def Grows (p q : Parts) : Prop :=
  ∀ f ∈ p.fragments, ∃ g ∈ q.fragments, g.id = f.id ∧ g.raw = f.raw ∧ f.selectors ⊆ g.selectors

theorem Grows.refl (p : Parts) : p.Grows p := fun f hf => ⟨f, hf, rfl, rfl, fun _ h => h⟩

theorem Grows.trans {p q r : Parts} (h : p.Grows q) (h' : q.Grows r) : p.Grows r := by
  intro f hf
  obtain ⟨g, hg, hid, hraw, hsub⟩ := h f hf
  obtain ⟨k, hk, hid', hraw', hsub'⟩ := h' g hg
  exact ⟨k, hk, hid'.trans hid, hraw'.trans hraw, List.Subset.trans hsub hsub'⟩

namespace Sound

variable {p : Parts}

theorem eq_of_id (h : p.Sound) {f g : Fragment} (hf : f ∈ p.fragments) (hg : g ∈ p.fragments)
    (hid : f.id = g.id) : f = g :=
  List.inj_on_of_nodup_map h.ids hf hg hid

theorem get?_eq (h : p.Sound) {f : Fragment} (hf : f ∈ p.fragments) : p.get? f.id = some f := by
  obtain ⟨g, hg⟩ : ∃ g, p.get? f.id = some g := by
    refine Option.isSome_iff_exists.mp (List.find?_isSome.mpr ⟨f, hf, ?_⟩)
    simp
  have hmem : g ∈ p.fragments := List.mem_of_find?_eq_some hg
  have hid : g.id = f.id := by simpa using List.find?_some hg
  rw [hg, h.eq_of_id hmem hf hid]

theorem eq_of_key (h : p.Sound) {key : Text} {ids ids' : List Nat} (hids : (key, ids) ∈ p.parts)
    (hids' : (key, ids') ∈ p.parts) : ids = ids' :=
  congrArg Prod.snd (List.inj_on_of_nodup_map h.keys hids hids' rfl)

/-- The fragments of a part are those with its selectors. -/
theorem mem_part_iff (h : p.Sound) {key : Text} {ids : List Nat} (hids : (key, ids) ∈ p.parts)
    {f : Fragment} (hf : f ∈ p.fragments) : f.id ∈ ids ↔ f.raw = none ∧ f.key = key := by
  constructor
  · intro hi
    obtain ⟨g, hg, hraw, hid, hkey⟩ := h.members _ hids _ hi
    obtain rfl := h.eq_of_id hg hf hid
    exact ⟨hraw, hkey⟩
  · rintro ⟨hraw, rfl⟩
    obtain ⟨ids', hids', hi⟩ := h.covers f hf hraw
    exact h.eq_of_key hids' hids ▸ hi

/-- Fragments that keep their numbers have numbers of their own. -/
theorem nodup_map (h : p.Sound) {u : Fragment → Fragment} (hu : ∀ f, (u f).id = f.id) :
    ((p.fragments.map u).map (·.id)).Nodup := by
  have hids : (p.fragments.map u).map (·.id) = p.fragments.map (·.id) := by
    rw [List.map_map]
    exact List.map_congr_left fun f _ => hu f
  exact hids ▸ h.ids

/-- A change that leaves numbers, kinds and selectors alone keeps parts sound. -/
theorem update (h : p.Sound) {change : Fragment → Fragment} (ids : List Nat)
    (hid : ∀ f, (change f).id = f.id) (hraw : ∀ f, (change f).raw = f.raw)
    (hselectors : ∀ f, (change f).selectors = f.selectors) :
    (p.update ids change).Sound := by
  let u (f : Fragment) : Fragment := if ids.contains f.id then change f else f
  have hu (f : Fragment) :
      (u f).id = f.id ∧ (u f).raw = f.raw ∧ (u f).selectors = f.selectors := by
    dsimp only [u]
    split_ifs
    · exact ⟨hid f, hraw f, hselectors f⟩
    · exact ⟨rfl, rfl, rfl⟩
  have hkey (f : Fragment) : (u f).key = f.key := by rw [Fragment.key, (hu f).2.2, ← Fragment.key]
  have hmem {f : Fragment} : f ∈ (p.update ids change).fragments ↔ ∃ g ∈ p.fragments, u g = f :=
    List.mem_map
  refine ⟨h.nodup_map fun f => (hu f).1, h.listed, h.keys, fun e he i hi => ?_,
    fun f hf hf' => ?_, fun f hf => ?_⟩
  · obtain ⟨f, hf, hnone, hfid, hfkey⟩ := h.members e he i hi
    exact ⟨u f, hmem.mpr ⟨f, hf, rfl⟩, (hu f).2.1.trans hnone, (hu f).1.trans hfid,
      (hkey f).trans hfkey⟩
  · obtain ⟨g, hg, rfl⟩ := hmem.mp hf
    rw [hkey g, (hu g).1]
    exact h.covers g hg ((hu g).2.1 ▸ hf')
  · obtain ⟨g, hg, rfl⟩ := hmem.mp hf
    rw [(hu g).2.2]
    exact h.comma g hg

/-- The members of another part than the one that moves. -/
theorem exists_of_mem_other (h : p.Sound) {key : Text} {ids : List Nat}
    (hids : (key, ids) ∈ p.parts) {e : Text × List Nat} (he : e ∈ p.parts.filter (·.1 ≠ key))
    {i : Nat} (hi : i ∈ e.2) :
    ∃ f ∈ p.fragments, f.raw = none ∧ f.id = i ∧ f.key = e.1 ∧ f.id ∉ ids := by
  obtain ⟨he, hkey⟩ := List.mem_filter.mp he
  obtain ⟨f, hf, hraw, hid, hfkey⟩ := h.members e he i hi
  refine ⟨f, hf, hraw, hid, hfkey, fun hf' => ?_⟩
  simp only [decide_eq_true_eq] at hkey
  exact hkey (hfkey.symm.trans ((h.mem_part_iff hids hf).mp hf').2)

/-- The part of a fragment that is in another than the one that moves. -/
theorem exists_other_part (h : p.Sound) {key : Text} {ids : List Nat}
    (hids : (key, ids) ∈ p.parts) {g : Fragment} (hg : g ∈ p.fragments) (hraw : g.raw = none)
    (hout : g.id ∉ ids) :
    ∃ members, (g.key, members) ∈ p.parts.filter (·.1 ≠ key) ∧ g.id ∈ members := by
  obtain ⟨members, hm, hgi⟩ := h.covers g hg hraw
  have hkey : g.key ≠ key := fun hkey => hout ((h.mem_part_iff hids hg).mpr ⟨hraw, hkey⟩)
  exact ⟨members, List.mem_filter.mpr ⟨hm, by simpa using hkey⟩, hgi⟩

/-- Moving a part to other selectors keeps parts sound. -/
theorem rename (h : p.Sound) {key : Text} {ids : List Nat} (hids : (key, ids) ∈ p.parts)
    {selectors : List Text} (hcomma : ∀ s ∈ selectors, ch ',' ∉ s) :
    (p.rename key ids selectors).Sound := by
  let u (f : Fragment) : Fragment := if ids.contains f.id then { f with selectors } else f
  have hin {f : Fragment} (hf : f.id ∈ ids) : u f = { f with selectors } :=
    if_pos (List.contains_iff_mem.mpr hf)
  have hout {f : Fragment} (hf : f.id ∉ ids) : u f = f := if_neg (by simpa using hf)
  have hu (f : Fragment) : (u f).id = f.id ∧ (u f).raw = f.raw := by
    by_cases hf : f.id ∈ ids
    · rw [hin hf]
      exact ⟨rfl, rfl⟩
    · rw [hout hf]
      exact ⟨rfl, rfl⟩
  have hmem {f : Fragment} :
      f ∈ (p.rename key ids selectors).fragments ↔ ∃ g ∈ p.fragments, u g = f := List.mem_map
  refine ⟨h.nodup_map fun f => (hu f).1, h.listed.rename key ids selectors, ?_,
    fun e he i hi => ?_, fun f hf hraw => ?_, fun f hf => ?_⟩
  · exact nodup_keys_insert (h.keys.sublist (List.filter_sublist.map _))
  · -- a member was in a part that stays, or in the part that moves, or in the one it moves to
    rcases of_mem_insert he with he | ⟨hkey, hmembers⟩
    · obtain ⟨f, hf, hraw, hid, hfkey, hfout⟩ := h.exists_of_mem_other hids he hi
      exact ⟨f, hmem.mpr ⟨f, hf, hout hfout⟩, hraw, hid, hfkey⟩
    · rcases hmembers i hi with hi | ⟨members, hm, hi⟩
      · obtain ⟨f, hf, hraw, hid, -⟩ := h.members _ hids i hi
        refine ⟨u f, hmem.mpr ⟨f, hf, rfl⟩, (hu f).2.trans hraw, (hu f).1.trans hid, ?_⟩
        rw [hin (hid ▸ hi), hkey]
        rfl
      · obtain ⟨f, hf, hraw, hid, hfkey, hfout⟩ := h.exists_of_mem_other hids hm hi
        exact ⟨f, hmem.mpr ⟨f, hf, hout hfout⟩, hraw, hid, hfkey.trans hkey.symm⟩
  · obtain ⟨g, hg, rfl⟩ := hmem.mp hf
    by_cases hi : g.id ∈ ids
    · obtain ⟨members, hm, hsub⟩ := mem_insert_self (join [ch ','] selectors) ids
        (p.parts.filter (·.1 ≠ key))
      exact ⟨members, by rw [hin hi]; exact hm, (hu g).1 ▸ hsub hi⟩
    · rw [hout hi] at hraw ⊢
      obtain ⟨members, hm, hgi⟩ := h.exists_other_part hids hg hraw hi
      obtain ⟨members', hm', hsub⟩ := mem_insert_of_mem hm
      exact ⟨members', hm', hsub hgi⟩
  · obtain ⟨g, hg, rfl⟩ := hmem.mp hf
    by_cases hi : g.id ∈ ids
    · rw [hin hi]
      exact hcomma
    · rw [hout hi]
      exact h.comma g hg

end Sound

/-- Grouping fragments gives sound parts. -/
theorem sound_ofFragments {fs : List Fragment} (hids : (fs.map (·.id)).Nodup)
    (hcomma : ∀ f ∈ fs, ∀ s ∈ f.selectors, ch ',' ∉ s) : (ofFragments fs).Sound := by
  have hmem {f : Fragment} (hf : f ∈ fs.filter (·.raw.isNone)) : f ∈ fs ∧ f.raw = none := by
    simpa using hf
  let add (ps : List (Text × List Nat)) (f : Fragment) : List (Text × List Nat) :=
    insert f.key [f.id] ps
  have hfragments := fragments_ofFragments fs
  have hparts := parts_ofFragments fs
  refine ⟨by rwa [hfragments], listed_ofFragments fs, ?_, ?_, ?_, by rwa [hfragments]⟩
  · rw [hparts]
    refine List.foldlRecOn (motive := fun ps => (ps.map Prod.fst).Nodup) _ add ?_
      fun ps hps f _ => nodup_keys_insert hps
    exact List.nodup_nil
  · let Members (ps : List (Text × List Nat)) : Prop :=
      ∀ e ∈ ps, ∀ i ∈ e.2, ∃ f ∈ fs, f.raw = none ∧ f.id = i ∧ f.key = e.1
    rw [hfragments, hparts]
    refine List.foldlRecOn (motive := Members) _ add (fun e he => absurd he List.not_mem_nil)
      fun ps hps f hf e he i hi => ?_
    rcases of_mem_insert he with he | ⟨hkey, hmembers⟩
    · exact hps e he i hi
    · rcases hmembers i hi with hi | ⟨members, hm, hi⟩
      · exact ⟨f, (hmem hf).1, (hmem hf).2, (List.mem_singleton.mp hi).symm, hkey.symm⟩
      · obtain ⟨g, hg, hraw, hid, hgkey⟩ := hps _ hm i hi
        exact ⟨g, hg, hraw, hid, hgkey.trans hkey.symm⟩
  · rw [hfragments, hparts]
    intro f hf hraw
    refine @foldl_establishes _ _ add (fun ps => ∃ ids, (f.key, ids) ∈ ps ∧ f.id ∈ ids) _ f
      (by simpa using ⟨hf, hraw⟩) (fun ps => ?_) (fun ps g ⟨ids, hids, hi⟩ => ?_) []
    · obtain ⟨ids, hids, hsub⟩ := mem_insert_self f.key [f.id] ps
      exact ⟨ids, hids, hsub List.mem_cons_self⟩
    · obtain ⟨ids', hids', hsub⟩ := mem_insert_of_mem hids
      exact ⟨ids', hids', hsub hi⟩

/-! ### Linking one part -/

theorem mem_addedSelectors {parent : Text} {children selectors : List Text} {d : Text} :
    d ∈ addedSelectors parent children selectors ↔
      ∃ s ∈ selectors, has s parent = true ∧
        ∃ c ∈ children, extendSelector? parent s c = some d := by
  simp [addedSelectors, and_assoc]

/-- Recording who extends a fragment leaves its selectors alone. -/
theorem foldl_addDep (ns : List Nat) (f : Fragment) :
    (ns.foldl Fragment.addDep f).id = f.id ∧ (ns.foldl Fragment.addDep f).raw = f.raw ∧
      (ns.foldl Fragment.addDep f).selectors = f.selectors :=
  List.foldlRecOn (motive := fun g : Fragment =>
      g.id = f.id ∧ g.raw = f.raw ∧ g.selectors = f.selectors) ns _ ⟨rfl, rfl, rfl⟩
    fun _ hg _ _ => hg

theorem Sound.recordDeps {p : Parts} (h : p.Sound) (ids members : List Nat) :
    (p.recordDeps ids members).Sound :=
  h.update ids (fun f => (foldl_addDep _ f).1) (fun f => (foldl_addDep _ f).2.1)
    fun f => (foldl_addDep _ f).2.2

section Linking

variable {parent : Text} {children : List Text} {members : List Nat} {l : Linked} {key : Text}

/-- The selectors of a part together with those to add. -/
def linkedSelectors (parent : Text) (children : List Text) (key : Text) : List Text :=
  sortUnique (split (ch ',') key ++ addedSelectors parent children (split (ch ',') key))

theorem comma_linkedSelectors (hchildren : ∀ c ∈ children, ch ',' ∉ c) {s : Text}
    (hs : s ∈ linkedSelectors parent children key) : ch ',' ∉ s := by
  intro hcomma
  rcases List.mem_append.mp (mem_sortUnique.mp hs) with hs | hs
  · exact not_mem_of_mem_split hs hcomma
  · obtain ⟨u, hu, -, c, hc, hext⟩ := mem_addedSelectors.mp hs
    rcases (of_extendSelector? hext).2.1 _ hcomma with hcomma | hcomma
    · exact hchildren c hc hcomma
    · exact not_mem_of_mem_split hu hcomma

/-- What linking a part does: nothing, unless there are selectors to add; then the part
moves to more selectors, if these are not among its own already. -/
theorem linkPart_cases (parent : Text) (children : List Text) (members : List Nat) (l : Linked)
    (key : Text) :
    (linkPart parent children members l key = l ∧
      (key ∈ l.parts.parts.map (·.1) → addedSelectors parent children (split (ch ',') key) = [])) ∨
    ∃ ids, (key, ids) ∈ l.parts.parts ∧
      addedSelectors parent children (split (ch ',') key) ≠ [] ∧
      (join [ch ','] (linkedSelectors parent children key) = key ∧
          linkPart parent children members l key =
            { l with parts := l.parts.recordDeps ids members, found := true } ∨
        linkPart parent children members l key =
          { parts := (l.parts.rename key ids (linkedSelectors parent children key)).recordDeps
              ids members
            found := true, renamed := true }) := by
  rw [linkPart]
  split
  · next hlookup =>
    refine .inl ⟨rfl, fun hkey => ?_⟩
    obtain ⟨e, he, rfl⟩ := List.mem_map.mp hkey
    -- a key that is not found is none of a part
    have hne := List.lookup_eq_none_iff.mp hlookup e he
    simp at hne
  · next ids hlookup =>
    obtain ⟨before, after, hparts, -⟩ := List.lookup_eq_some_iff.mp hlookup
    have hids : (key, ids) ∈ l.parts.parts := by simp [hparts]
    dsimp only
    split_ifs with hadded hkey
    · exact .inl ⟨rfl, fun _ => List.isEmpty_iff.mp hadded⟩
    · exact .inr ⟨ids, hids, mt List.isEmpty_iff.mpr hadded, .inl ⟨hkey, rfl⟩⟩
    · exact .inr ⟨ids, hids, mt List.isEmpty_iff.mpr hadded, .inr rfl⟩

theorem Listed.linkPart (h : l.parts.Listed) :
    (linkPart parent children members l key).parts.Listed := by
  rcases linkPart_cases parent children members l key with
    ⟨heq, -⟩ | ⟨ids, -, -, ⟨-, heq⟩ | heq⟩
  · rw [heq]
    exact h
  · rw [heq]
    exact h
  · rw [heq]
    exact h.rename key ids _

/-- Linking a part keeps parts sound. -/
theorem Sound.linkPart (h : l.parts.Sound) (hchildren : ∀ c ∈ children, ch ',' ∉ c) :
    (linkPart parent children members l key).parts.Sound := by
  rcases linkPart_cases parent children members l key with
    ⟨heq, -⟩ | ⟨ids, hids, -, ⟨-, heq⟩ | heq⟩
  · rw [heq]
    exact h
  · rw [heq]
    exact h.recordDeps ids members
  · rw [heq]
    exact (h.rename hids fun s hs => comma_linkedSelectors hchildren hs).recordDeps ids members

/-- A part with selectors to add has the selectors of its fragments. -/
theorem split_key_of_added {f : Fragment} (hcomma : ∀ s ∈ f.selectors, ch ',' ∉ s)
    (hadded : addedSelectors parent children (split (ch ',') f.key) ≠ []) :
    split (ch ',') f.key = f.selectors := by
  obtain ⟨d, hd⟩ := List.exists_mem_of_ne_nil _ hadded
  obtain ⟨s, hs, -, c, -, hext⟩ := mem_addedSelectors.mp hd
  refine f.split_key hcomma hs ?_
  rintro rfl
  rw [extendSelector?_nil] at hext
  exact Option.some_ne_none d hext.symm

/-- The selectors a fragment has after linking a part. -/
def linkedTo (parent : Text) (children : List Text) (key : Text) (f : Fragment) : List Text :=
  if f.raw = none ∧ f.key = key ∧ addedSelectors parent children (split (ch ',') key) ≠ [] then
    linkedSelectors parent children key
  else f.selectors

/-- Recording who extends fragments changes their ranks only. -/
theorem recordDeps_fragments (p : Parts) (ids members : List Nat) :
    ∃ u : Fragment → Fragment, (p.recordDeps ids members).fragments = p.fragments.map u ∧
      ∀ f, (u f).id = f.id ∧ (u f).raw = f.raw ∧ (u f).selectors = f.selectors := by
  refine ⟨_, rfl, fun f => ?_⟩
  dsimp only
  split_ifs
  · exact foldl_addDep _ f
  · exact ⟨rfl, rfl, rfl⟩

/-- Linking a part gives its fragments the selectors to add, and no others any. -/
theorem linkPart_fragments (h : l.parts.Sound) (hchildren : ∀ c ∈ children, ch ',' ∉ c) :
    ∃ u : Fragment → Fragment,
      (linkPart parent children members l key).parts.fragments = l.parts.fragments.map u ∧
      ∀ f ∈ l.parts.fragments, (u f).id = f.id ∧ (u f).raw = f.raw ∧
        (u f).selectors = linkedTo parent children key f := by
  rcases linkPart_cases parent children members l key with
    ⟨heq, hnone⟩ | ⟨ids, hids, hadded, ⟨hjoin, heq⟩ | heq⟩
  · refine ⟨id, by rw [heq, List.map_id], fun f hf => ⟨rfl, rfl, ?_⟩⟩
    refine (if_neg fun ⟨hraw, hkey, hadded⟩ => hadded (hnone ?_)).symm
    obtain ⟨ids, hids, -⟩ := h.covers f hf hraw
    exact List.mem_map.mpr ⟨_, hids, hkey⟩
  · obtain ⟨u, hu, hsame⟩ := recordDeps_fragments l.parts ids members
    refine ⟨u, by rw [heq]; exact hu, fun f hf => ⟨(hsame f).1, (hsame f).2.1, ?_⟩⟩
    rw [(hsame f).2.2, linkedTo]
    split_ifs with hpart
    · obtain ⟨-, rfl, -⟩ := hpart
      -- The part is where it would move to, so its selectors are the linked ones.
      have hlinked : linkedSelectors parent children f.key ≠ [] := by
        obtain ⟨d, hd⟩ := List.exists_mem_of_ne_nil _ hadded
        exact List.ne_nil_of_mem (mem_sortUnique.mpr (List.mem_append_right _ hd))
      have hsplit := split_join hlinked fun s hs => comma_linkedSelectors hchildren hs
      rw [hjoin] at hsplit
      exact (split_key_of_added (h.comma f hf) hadded).symm.trans hsplit
    · rfl
  · obtain ⟨u, hu, hsame⟩ := recordDeps_fragments
      (l.parts.rename key ids (linkedSelectors parent children key)) ids members
    -- the part moves first, and its dependencies are recorded then
    let move (f : Fragment) : Fragment :=
      if ids.contains f.id then { f with selectors := linkedSelectors parent children key } else f
    refine ⟨u ∘ move, by rw [heq, ← List.map_map]; exact hu, fun f hf => ?_⟩
    obtain ⟨hid, hraw, hselectors⟩ := hsame (move f)
    rw [Function.comp_apply, hid, hraw, hselectors, linkedTo]
    by_cases hpart : f.id ∈ ids
    · have hmove : move f = { f with selectors := linkedSelectors parent children key } :=
        if_pos (List.contains_iff_mem.mpr hpart)
      obtain ⟨hfraw, hkey⟩ := (h.mem_part_iff hids hf).mp hpart
      rw [hmove, if_pos ⟨hfraw, hkey, hadded⟩]
      exact ⟨rfl, rfl, rfl⟩
    · have hmove : move f = f := if_neg (by simpa using hpart)
      rw [hmove, if_neg fun h' => hpart ((h.mem_part_iff hids hf).mpr ⟨h'.1, h'.2.1⟩)]
      exact ⟨rfl, rfl, rfl⟩

theorem subset_linkedTo {f : Fragment} (hcomma : ∀ s ∈ f.selectors, ch ',' ∉ s) :
    f.selectors ⊆ linkedTo parent children key f := by
  rw [linkedTo]
  split_ifs with hpart
  · obtain ⟨-, rfl, -⟩ := hpart
    exact fun s hs => mem_sortUnique.mpr (List.mem_append_left _ (f.subset_split_key hcomma hs))
  · exact fun s hs => hs

/-- A linked fragment has a selector to add, or one it had. -/
theorem of_mem_linkedTo {f : Fragment} (hcomma : ∀ s ∈ f.selectors, ch ',' ∉ s) {d : Text}
    (hd : d ∈ linkedTo parent children key f) :
    d ∈ f.selectors ∨ d ∈ addedSelectors parent children f.selectors := by
  rw [linkedTo] at hd
  split_ifs at hd with hpart
  · obtain ⟨-, rfl, hadded⟩ := hpart
    have hsplit := split_key_of_added hcomma hadded
    rw [linkedSelectors, hsplit] at hd
    exact List.mem_append.mp (mem_sortUnique.mp hd)
  · exact .inl hd

theorem grows_linkPart (h : l.parts.Sound) (hchildren : ∀ c ∈ children, ch ',' ∉ c) :
    l.parts.Grows (linkPart parent children members l key).parts := by
  obtain ⟨u, hu, hfrag⟩ := @linkPart_fragments parent children members l key h hchildren
  intro f hf
  obtain ⟨hid, hraw, hselectors⟩ := hfrag f hf
  refine ⟨u f, hu ▸ List.mem_map_of_mem hf, hid, hraw, ?_⟩
  rw [hselectors]
  exact subset_linkedTo (h.comma f hf)

theorem found_linkPart (hfound : l.found = true) :
    (linkPart parent children members l key).found = true := by
  rcases linkPart_cases parent children members l key with
    ⟨heq, -⟩ | ⟨ids, -, -, ⟨-, heq⟩ | heq⟩
  · rw [heq]
    exact hfound
  · rw [heq]
  · rw [heq]

/-- A part with selectors to add is found, and its fragments get them. -/
theorem mem_of_linkPart (h : l.parts.Sound) (hchildren : ∀ c ∈ children, ch ',' ∉ c)
    {f : Fragment} (hf : f ∈ l.parts.fragments) (hraw : f.raw = none) {d : Text}
    (hd : d ∈ addedSelectors parent children (split (ch ',') f.key)) :
    (linkPart parent children members l f.key).found = true ∧
      ∃ g ∈ (linkPart parent children members l f.key).parts.fragments,
        g.id = f.id ∧ d ∈ g.selectors := by
  have hadded := List.ne_nil_of_mem hd
  constructor
  · obtain ⟨ids, hids, -⟩ := h.covers f hf hraw
    rcases linkPart_cases parent children members l f.key with
      ⟨-, hnone⟩ | ⟨ids, -, -, ⟨-, heq⟩ | heq⟩
    · exact absurd (hnone (List.mem_map.mpr ⟨_, hids, rfl⟩)) hadded
    · rw [heq]
    · rw [heq]
  · obtain ⟨u, hu, hfrag⟩ := @linkPart_fragments parent children members l f.key h hchildren
    obtain ⟨hid, -, hselectors⟩ := hfrag f hf
    refine ⟨u f, hu ▸ List.mem_map_of_mem hf, hid, ?_⟩
    rw [hselectors, linkedTo, if_pos ⟨hraw, rfl, hadded⟩]
    exact mem_sortUnique.mpr (List.mem_append_right _ hd)

/-- Fragments of other parts are left alone. -/
theorem linkPart_of_key_ne (h : l.parts.Sound) (hchildren : ∀ c ∈ children, ch ',' ∉ c)
    {f : Fragment} (hf : f ∈ l.parts.fragments) (hkey : f.key ≠ key) :
    ∃ g ∈ (linkPart parent children members l key).parts.fragments,
      g.id = f.id ∧ g.raw = f.raw ∧ g.selectors = f.selectors := by
  obtain ⟨u, hu, hfrag⟩ := @linkPart_fragments parent children members l key h hchildren
  obtain ⟨hid, hraw, hselectors⟩ := hfrag f hf
  refine ⟨u f, hu ▸ List.mem_map_of_mem hf, hid, hraw, ?_⟩
  rw [hselectors, linkedTo, if_neg fun h' => hkey h'.2.1]

/-! ### Linking several parts -/

theorem foldl_linkPart (h : l.parts.Sound) (hchildren : ∀ c ∈ children, ch ',' ∉ c)
    (keys : List Text) :
    (keys.foldl (linkPart parent children members) l).parts.Sound ∧
      l.parts.Grows (keys.foldl (linkPart parent children members) l).parts ∧
      (l.found = true → (keys.foldl (linkPart parent children members) l).found = true) :=
  List.foldlRecOn (motive := fun l' : Linked =>
      l'.parts.Sound ∧ l.parts.Grows l'.parts ∧ (l.found = true → l'.found = true)) keys _
    ⟨h, .refl _, fun hfound => hfound⟩ fun _ ⟨hsound, hgrows, hfound⟩ _ _ =>
      ⟨hsound.linkPart hchildren, hgrows.trans (grows_linkPart hsound hchildren),
        fun h => found_linkPart (hfound h)⟩

/-- A fragment gets what its part has to add. Until its part is linked its selectors stay;
afterwards they only become more. -/
theorem mem_of_foldl_linkPart (h : l.parts.Sound) (hchildren : ∀ c ∈ children, ch ',' ∉ c)
    {keys : List Text} {f : Fragment} (hf : f ∈ l.parts.fragments) (hraw : f.raw = none)
    (hkey : f.key ∈ keys) {d : Text}
    (hd : d ∈ addedSelectors parent children (split (ch ',') f.key)) :
    (keys.foldl (linkPart parent children members) l).found = true ∧
      ∃ g ∈ (keys.foldl (linkPart parent children members) l).parts.fragments,
        g.id = f.id ∧ d ∈ g.selectors := by
  induction keys generalizing l f with
  | nil => exact absurd hkey List.not_mem_nil
  | cons key keys ih =>
    rw [List.foldl_cons]
    have hsound : (linkPart parent children members l key).parts.Sound := h.linkPart hchildren
    by_cases heq : f.key = key
    · subst heq
      obtain ⟨hfound, g, hg, hid, hdg⟩ := @mem_of_linkPart _ _ members _ h hchildren f hf hraw d hd
      obtain ⟨-, hgrows, hkeep⟩ := @foldl_linkPart parent _ members _ hsound hchildren keys
      obtain ⟨g', hg', hid', -, hsub⟩ := hgrows g hg
      exact ⟨hkeep hfound, g', hg', hid'.trans hid, hsub hdg⟩
    · obtain ⟨g, hg, hid, hgraw, hsame⟩ :=
        @linkPart_of_key_ne parent _ members _ _ h hchildren f hf heq
      have hgkey : g.key = f.key := by rw [Fragment.key, hsame, ← Fragment.key]
      have hkey' : g.key ∈ keys := hgkey ▸ (List.mem_cons.mp hkey).resolve_left heq
      obtain ⟨hfound, g', hg', hid', hdg⟩ :=
        ih hsound hg (hgraw.trans hraw) hkey' (by rw [hgkey]; exact hd)
      exact ⟨hfound, g', hg', hid'.trans hid, hdg⟩

end Linking

/-! ### Linking a request -/

/-- The selectors of the first fragment of a request. -/
def children (p : Parts) (r : Request) : List Text :=
  ((r.members.head?.bind p.get?).map (·.selectors)).getD []

theorem mem_children {p : Parts} {r : Request} {c : Text} (hc : c ∈ p.children r) :
    ∃ g ∈ p.fragments, r.members.head? = some g.id ∧ c ∈ g.selectors := by
  rw [children] at hc
  cases hhead : r.members.head?.bind p.get? with
  | none => simp [hhead] at hc
  | some g =>
    obtain ⟨i, hi, hg⟩ := Option.bind_eq_some_iff.mp hhead
    have hid : g.id = i := by simpa using List.find?_some hg
    exact ⟨g, List.mem_of_find?_eq_some hg, hid ▸ hi, by simpa [hhead] using hc⟩

theorem Sound.mem_children {p : Parts} (h : p.Sound) {r : Request} {g : Fragment}
    (hg : g ∈ p.fragments) (hhead : r.members.head? = some g.id) {c : Text}
    (hc : c ∈ g.selectors) : c ∈ p.children r := by
  simpa [children, hhead, h.get?_eq hg] using hc

theorem Sound.comma_children {p : Parts} (h : p.Sound) (r : Request) :
    ∀ c ∈ p.children r, ch ',' ∉ c := by
  intro c hc
  obtain ⟨g, hg, -, hcg⟩ := Parts.mem_children hc
  exact h.comma g hg c hcg

theorem Listed.link {p : Parts} (h : p.Listed) (r : Request) : (p.link r).parts.Listed :=
  List.foldlRecOn (motive := fun l : Linked => l.parts.Listed) p.keys
    (Parts.linkPart r.parent (p.children r) r.members) h fun _ hl _ _ => hl.linkPart

/-- Linking a request keeps parts sound and lets them grow. -/
theorem Sound.link {p : Parts} (h : p.Sound) (r : Request) :
    (p.link r).parts.Sound ∧ p.Grows (p.link r).parts := by
  obtain ⟨hsound, hgrows, -⟩ := @foldl_linkPart r.parent _ r.members { parts := p } h
    (h.comma_children r) p.keys
  exact ⟨hsound, hgrows⟩

/-- A selector that the request extends is found, and what it becomes is added. -/
theorem Sound.mem_of_link {p : Parts} (h : p.Sound) {r : Request} {f : Fragment}
    (hf : f ∈ p.fragments) (hraw : f.raw = none) {s : Text} (hs : s ∈ f.selectors)
    (hparent : has s r.parent = true) {c : Text} (hc : c ∈ p.children r) {d : Text}
    (hd : extendSelector? r.parent s c = some d) :
    (p.link r).found = true ∧
      ∃ g ∈ (p.link r).parts.fragments, g.id = f.id ∧ d ∈ g.selectors := by
  obtain ⟨ids, hids, -⟩ := h.covers f hf hraw
  have hkey : f.key ∈ p.keys := h.listed ▸ List.mem_map.mpr ⟨_, hids, rfl⟩
  refine mem_of_foldl_linkPart h (h.comma_children r) hf hraw hkey ?_
  exact mem_addedSelectors.mpr ⟨s, f.subset_split_key (h.comma f hf) hs, hparent, c, hc, hd⟩

/-! ### Bounds -/

/-- Fragments have only selectors they may have. -/
def Within (may : Nat → Text → Prop) (p : Parts) : Prop :=
  ∀ f ∈ p.fragments, ∀ s ∈ f.selectors, may f.id s

/-- Linking a request stays within what is closed under its extends. -/
theorem Within.link {may : Nat → Text → Prop} {p : Parts} {r : Request} (hw : p.Within may)
    (h : p.Sound) (hclosed : ∀ i s c d, may i s → has s r.parent = true → c ∈ p.children r →
      extendSelector? r.parent s c = some d → may i d) : (p.link r).parts.Within may := by
  have hchildren := h.comma_children r
  refine (List.foldlRecOn (motive := fun l : Linked => l.parts.Sound ∧ l.parts.Within may)
    p.keys (linkPart r.parent (p.children r) r.members) ⟨h, hw⟩
    fun l ⟨hsound, hwithin⟩ key _ => ⟨hsound.linkPart hchildren, fun g hg d hd => ?_⟩).2
  obtain ⟨u, hu, hfrag⟩ :=
    @linkPart_fragments r.parent (p.children r) r.members l key hsound hchildren
  obtain ⟨f, hf, rfl⟩ := List.mem_map.mp (hu ▸ hg)
  obtain ⟨hid, -, hselectors⟩ := hfrag f hf
  rw [hselectors] at hd
  rw [hid]
  rcases of_mem_linkedTo (hsound.comma f hf) hd with hd | hd
  · exact hwithin f hf d hd
  · obtain ⟨s, hs, hparent, c, hc, hext⟩ := mem_addedSelectors.mp hd
    exact hclosed f.id s c d (hwithin f hf s hs) hparent hc hext

end Parts

end Stylesheet
