import Stylesheet.Proofs.Compile.Extension

/-!
# Linking

Extends are resolved by linking one request after another. This file says what one such step
does to a fragment, and from that what holds after any number of them: the parts partition
the fragments by their selectors, and a fragment changes only in its selectors and in the
ranks it must not come after, both of which only become more.

Parts can become one while requests are linked, since two sets of selectors can grow into
the same. Members of a part stay together from then on, and so do fragments that had the
same selectors at the start.

## Main definitions

* `Parts.linkFragment` — what linking a part makes of a fragment
* `Reached` — parts that come up while extends are resolved
* `Fragment.Grown` — how a fragment may change
* `Parts.Tracks` — what parts have to do with the fragments at the start
* `Parts.Partition`, `Framed` — what every step keeps

## Main results

* `Parts.linkPart_fragments_eq` — the fragments after linking a part
* `Parts.Tracks.linkPart` — linking a part keeps track
* `Reached.tracks` — so does any number of requests
* `partition_framed_of_reached` — the parts and fragments at every step of resolving
-/

namespace Stylesheet

open Text

/-! ### Ranks -/

theorem mem_insertNat {m n : Nat} {ns : List Nat} : m ∈ insertNat n ns ↔ m = n ∨ m ∈ ns := by
  induction ns with
  | nil => simp [insertNat]
  | cons k ns ih =>
    rw [insertNat]
    split_ifs with hlt heq
    · simp
    · simp [heq]
    · rw [List.mem_cons, ih, List.mem_cons]
      tauto

/-- Ranks added to those of a fragment. -/
def insertNats (ns ranks : List Nat) : List Nat := ns.foldl (fun ranks n => insertNat n ranks) ranks

theorem mem_insertNats {m : Nat} {ns ranks : List Nat} :
    m ∈ insertNats ns ranks ↔ m ∈ ns ∨ m ∈ ranks := by
  induction ns generalizing ranks with
  | nil => simp [insertNats]
  | cons n ns ih =>
    rw [insertNats, List.foldl_cons, ← insertNats, ih, mem_insertNat, List.mem_cons]
    tauto

theorem foldl_addDep_eq (ns : List Nat) (f : Fragment) :
    ns.foldl Fragment.addDep f = { f with deps := insertNats ns f.deps } := by
  induction ns generalizing f with
  | nil => rfl
  | cons n ns ih =>
    rw [List.foldl_cons, ih]
    rfl

namespace Parts

/-! ### One part -/

/-- What a fragment becomes when a part is linked: it gets the selectors to add and records
who extends it, if it is in the part and there are such selectors. -/
def linkFragment (parent : Text) (children : List Text) (members : List Nat) (p : Parts)
    (key : Text) (f : Fragment) : Fragment :=
  if f.raw = none ∧ f.key = key ∧ addedSelectors parent children (split (ch ',') key) ≠ [] then
    { f with
      selectors := linkedSelectors parent children key
      deps := insertNats (p.positionsExcept members f.id) f.deps }
  else f

variable {parent : Text} {children : List Text} {members : List Nat} {l : Linked} {key : Text}
variable {p : Parts}

theorem mem_positionsExcept {ids : List Nat} {i n : Nat} (hn : n ∈ p.positionsExcept ids i) :
    ∃ g ∈ p.fragments, g.id ∈ ids ∧ g.id ≠ i ∧ g.position = n := by
  obtain ⟨c, hc, hn⟩ := List.mem_filterMap.mp hn
  obtain ⟨hids, hne⟩ := List.mem_filter.mp hc
  obtain ⟨g, hg, hposition⟩ := Option.map_eq_some_iff.mp hn
  have hid : g.id = c := by simpa using List.find?_some hg
  refine ⟨g, List.mem_of_find?_eq_some hg, hid ▸ hids, ?_, hposition⟩
  rw [hid]
  simpa using hne

/-- Moving a part leaves the positions of fragments alone. -/
theorem positionsExcept_rename (p : Parts) (key : Text) (ids : List Nat) (selectors : List Text)
    (members : List Nat) (i : Nat) :
    (p.rename key ids selectors).positionsExcept members i = p.positionsExcept members i := by
  have hposition (c : Nat) :
      ((p.rename key ids selectors).get? c).map (·.position) = (p.get? c).map (·.position) := by
    -- A renamed part gives its fragments other selectors and leaves them in their places.
    let move (f : Fragment) : Fragment := if ids.contains f.id then { f with selectors } else f
    have hget : (p.rename key ids selectors).get? c = (p.get? c).map move := by
      change (p.fragments.map move).find? (fun f => decide (f.id = c)) =
        (p.fragments.find? fun f => decide (f.id = c)).map move
      rw [List.find?_map]
      congr 2
      funext f
      dsimp only [Function.comp_apply, move]
      split_ifs <;> rfl
    rw [hget, Option.map_map]
    congr 1
    funext f
    dsimp only [Function.comp_apply, move]
    split_ifs <;> rfl
  unfold positionsExcept
  simp only [hposition]

/-- A part that stays where it is has the linked selectors already. -/
theorem linkedSelectors_eq_of_join (h : p.Sound) (hchildren : ∀ c ∈ children, ch ',' ∉ c)
    {f : Fragment} (hf : f ∈ p.fragments)
    (hadded : addedSelectors parent children (split (ch ',') f.key) ≠ [])
    (hjoin : join [ch ','] (linkedSelectors parent children f.key) = f.key) :
    linkedSelectors parent children f.key = f.selectors := by
  have hlinked : linkedSelectors parent children f.key ≠ [] := by
    obtain ⟨d, hd⟩ := List.exists_mem_of_ne_nil _ hadded
    exact List.ne_nil_of_mem (mem_sortUnique.mpr (List.mem_append_right _ hd))
  have hsplit := split_join hlinked fun s hs => comma_linkedSelectors hchildren hs
  rw [hjoin] at hsplit
  exact hsplit.symm.trans (split_key_of_added (h.comma f hf) hadded)

/-- The fragments after linking a part: each is linked on its own. -/
theorem linkPart_fragments_eq (h : l.parts.Sound) (hchildren : ∀ c ∈ children, ch ',' ∉ c) :
    (linkPart parent children members l key).parts.fragments =
      l.parts.fragments.map (linkFragment parent children members l.parts key) := by
  rcases linkPart_cases parent children members l key with
    ⟨heq, hnone⟩ | ⟨ids, hids, hadded, ⟨hjoin, heq⟩ | heq⟩
  · -- No fragment is in a part that adds something.
    have hsame : ∀ f ∈ l.parts.fragments,
        linkFragment parent children members l.parts key f = f := by
      intro f hf
      refine if_neg fun ⟨hraw, hkey, hadded⟩ => hadded (hnone ?_)
      obtain ⟨ids, hids, -⟩ := h.covers f hf hraw
      exact List.mem_map.mpr ⟨_, hids, hkey⟩
    rw [heq, List.map_congr_left hsame, List.map_id']
  · rw [heq]
    refine List.map_congr_left fun f hf => ?_
    by_cases hpart : f.id ∈ ids
    · obtain ⟨hraw, rfl⟩ := (h.mem_part_iff hids hf).mp hpart
      rw [if_pos (List.contains_iff_mem.mpr hpart)]
      dsimp only
      rw [foldl_addDep_eq, linkFragment, if_pos ⟨hraw, rfl, hadded⟩,
        linkedSelectors_eq_of_join h hchildren hf hadded hjoin]
    · rw [if_neg (by simpa using hpart), linkFragment, if_neg]
      exact fun hlinked => hpart ((h.mem_part_iff hids hf).mpr ⟨hlinked.1, hlinked.2.1⟩)
  · rw [heq]
    change List.map _ (l.parts.fragments.map _) = _
    rw [List.map_map]
    refine List.map_congr_left fun f hf => ?_
    rw [Function.comp_apply]
    -- a part that is joined with no other takes its fragments along under the new key
    by_cases hpart : f.id ∈ ids
    · obtain ⟨hraw, rfl⟩ := (h.mem_part_iff hids hf).mp hpart
      rw [if_pos (List.contains_iff_mem.mpr hpart)]
      dsimp only
      rw [if_pos (List.contains_iff_mem.mpr hpart), foldl_addDep_eq, positionsExcept_rename,
        linkFragment, if_pos ⟨hraw, rfl, hadded⟩]
    · have hout : ids.contains f.id ≠ true := by simpa using hpart
      rw [if_neg hout, if_neg hout, linkFragment, if_neg]
      exact fun hlinked => hpart ((h.mem_part_iff hids hf).mpr ⟨hlinked.1, hlinked.2.1⟩)

/-! ### Members of parts -/

/-- No part has a member twice. -/
def Once (ps : List (Text × List Nat)) : Prop := ∀ e ∈ ps, e.2.Nodup

theorem once_insert {ids : List Nat} {ps : List (Text × List Nat)} (hps : Once ps)
    (hids : ids.Nodup) (hapart : ∀ e ∈ ps, ∀ i ∈ e.2, i ∉ ids) : Once (insert key ids ps) := by
  induction ps with
  | nil =>
    intro e he
    obtain rfl := List.mem_singleton.mp he
    exact hids
  | cons e rest ih =>
    obtain ⟨hfirst, hrest⟩ := List.forall_mem_cons.mp hps
    obtain ⟨hapart, hapart'⟩ := List.forall_mem_cons.mp hapart
    rw [insert]
    split_ifs with hkey
    · refine List.forall_mem_cons.mpr ⟨List.nodup_append.mpr ⟨hfirst, hids, ?_⟩, hrest⟩
      rintro i hi j hj rfl
      exact hapart i hi hj
    · exact List.forall_mem_cons.mpr ⟨hfirst, ih hrest hapart'⟩

/-- Fragments with different numbers are grouped each once. -/
theorem once_ofFragments {fs : List Fragment} (hids : (fs.map (·.id)).Nodup) :
    Once (ofFragments fs).parts := by
  rw [parts_ofFragments]
  -- The members so far are none of the fragments still to come.
  suffices h : ∀ (gs : List Fragment) (ps : List (Text × List Nat)), (gs.map (·.id)).Nodup →
      Once ps → (∀ e ∈ ps, ∀ i ∈ e.2, i ∉ gs.map (·.id)) →
      Once (gs.foldl (fun ps f => insert f.key [f.id] ps) ps) by
    refine h _ [] (hids.sublist (List.filter_sublist.map _)) ?_ ?_
    · exact fun e he => absurd he List.not_mem_nil
    · exact fun e he => absurd he List.not_mem_nil
  intro gs
  induction gs with
  | nil => exact fun ps _ hps _ => hps
  | cons f gs ih =>
    intro ps hgs hps hapart
    rw [List.map_cons, List.nodup_cons] at hgs
    rw [List.foldl_cons]
    refine ih _ hgs.2 (once_insert hps (List.nodup_singleton _) ?_) ?_
    · intro e he i hi hfi
      obtain rfl := List.mem_singleton.mp hfi
      exact hapart e he _ hi List.mem_cons_self
    · intro e he i hi hi'
      rcases of_mem_insert he with he | ⟨-, hmembers⟩
      · exact hapart e he i hi (List.mem_cons_of_mem _ hi')
      rcases hmembers i hi with hi | ⟨ids, hids, hi⟩
      · obtain rfl := List.mem_singleton.mp hi
        exact hgs.1 hi'
      · exact hapart _ hids i hi (List.mem_cons_of_mem _ hi')

theorem once_linkPart (h : l.parts.Sound) (honce : Once l.parts.parts) :
    Once (linkPart parent children members l key).parts.parts := by
  rcases linkPart_cases parent children members l key with
    ⟨heq, -⟩ | ⟨ids, hids, -, ⟨-, heq⟩ | heq⟩
  · rw [heq]
    exact honce
  · rw [heq]
    exact honce
  · rw [heq]
    refine once_insert (fun e he => honce e (List.mem_of_mem_filter he)) (honce _ hids) ?_
    -- A member of another part has another key.
    intro e he i hi hi'
    obtain ⟨he, hkey⟩ := List.mem_filter.mp he
    obtain ⟨f, hf, -, rfl, hfkey⟩ := h.members e he i hi
    have hfkey' := ((h.mem_part_iff hids hf).mp hi').2
    exact absurd (hfkey.symm.trans hfkey') (by simpa using hkey)

end Parts

/-! ### All parts -/

/-- How a fragment `f` may change into `g` while the extends of `fs` are resolved: its
selectors stay in order and become more, so do the ranks it must not come after, which are
those of other fragments that extend something, and all else is kept. Nothing at all happens
to a raw at-rule and to a fragment that names no parent. -/
structure Fragment.Grown (fs : List Fragment) (f g : Fragment) : Prop where
  rest : { g with selectors := f.selectors, deps := f.deps } = f
  ordered : Ordered f.selectors → Ordered g.selectors
  selectors : f.selectors ⊆ g.selectors
  deps : f.deps ⊆ g.deps
  extending : ∀ n ∈ g.deps, n ∈ f.deps ∨
    ∃ e ∈ fs, e.raw = none ∧ e.parents ≠ [] ∧ e.id ≠ f.id ∧ e.position = n
  raw : f.raw ≠ none → g = f
  untouched : (∀ r ∈ requests fs, ∀ s ∈ f.selectors, has s r.parent = false) → g = f

namespace Fragment.Grown

variable {fs : List Fragment} {f g : Fragment}

theorem refl (fs : List Fragment) (f : Fragment) : f.Grown fs f :=
  ⟨rfl, fun h => h, fun _ h => h, fun _ h => h, fun _ hn => .inl hn, fun _ => rfl, fun _ => rfl⟩

theorem id_eq (h : f.Grown fs g) : g.id = f.id := by
  have hid := congrArg Fragment.id h.rest
  exact hid

theorem raw_eq (h : f.Grown fs g) : g.raw = f.raw := by
  have hraw := congrArg Fragment.raw h.rest
  exact hraw

theorem position_eq (h : f.Grown fs g) : g.position = f.position := by
  have hposition := congrArg Fragment.position h.rest
  exact hposition

end Fragment.Grown

namespace Parts

/-- What parts have to do with the fragments they started from. Fragments with the same
selectors have stayed together. -/
structure Tracks (fs : List Fragment) (p : Parts) : Prop where
  sound : p.Sound
  once : Once p.parts
  fragments : ∃ u : Fragment → Fragment, p.fragments = fs.map u ∧
    (∀ f ∈ fs, f.Grown fs (u f)) ∧
    ∀ f ∈ fs, ∀ g ∈ fs, f.raw = none → g.raw = none →
      (f.key = g.key → (u f).key = (u g).key) ∧
      (f.selectors = g.selectors → (u f).selectors = (u g).selectors)

theorem tracks_ofFragments {fs : List Fragment} (hfs : Arena fs) :
    (ofFragments fs).Tracks fs where
  sound := sound_ofFragments hfs.ids hfs.comma
  once := once_ofFragments hfs.ids
  fragments := ⟨id, (fragments_ofFragments fs).trans (List.map_id fs).symm, fun f _ => .refl fs f,
    fun _ _ _ _ _ _ => ⟨fun h => h, fun h => h⟩⟩

section Step

variable {fs : List Fragment} {r : Request} {children : List Text} {l : Linked} {key : Text}

/-- Fragments under one key are linked alike. -/
theorem linkFragment_iff {parent : Text} {f g : Fragment} (hf : f.raw = none) (hg : g.raw = none)
    (hkey : f.key = g.key) :
    (f.raw = none ∧ f.key = key ∧ addedSelectors parent children (split (ch ',') key) ≠ []) ↔
      (g.raw = none ∧ g.key = key ∧ addedSelectors parent children (split (ch ',') key) ≠ []) := by
  rw [hf, hg, hkey]

theorem key_linkFragment {parent : Text} {members : List Nat} {p : Parts} {f g : Fragment}
    (hf : f.raw = none) (hg : g.raw = none) (hkey : f.key = g.key) :
    (linkFragment parent children members p key f).key =
      (linkFragment parent children members p key g).key := by
  have hsame := @linkFragment_iff children key parent f g hf hg hkey
  unfold linkFragment
  split_ifs with hlinked hlinked' hlinked'
  · rfl
  · exact absurd (hsame.mp hlinked) hlinked'
  · exact absurd (hsame.mpr hlinked') hlinked
  · exact hkey

theorem selectors_linkFragment {parent : Text} {members : List Nat} {p : Parts}
    {f g : Fragment} (hf : f.raw = none) (hg : g.raw = none)
    (hselectors : f.selectors = g.selectors) :
    (linkFragment parent children members p key f).selectors =
      (linkFragment parent children members p key g).selectors := by
  have hkey : f.key = g.key := by rw [Fragment.key, hselectors, ← Fragment.key]
  have hsame := @linkFragment_iff children key parent f g hf hg hkey
  unfold linkFragment
  split_ifs with hlinked hlinked' hlinked'
  · rfl
  · exact absurd (hsame.mp hlinked) hlinked'
  · exact absurd (hsame.mpr hlinked') hlinked
  · exact hselectors

/-- A fragment that names no parent is not linked. -/
theorem linkFragment_eq_self {parent : Text} {members : List Nat} {p : Parts} {f : Fragment}
    (hcomma : ∀ s ∈ f.selectors, ch ',' ∉ s) (hnames : ∀ s ∈ f.selectors, has s parent = false) :
    linkFragment parent children members p key f = f := by
  refine if_neg ?_
  rintro ⟨-, rfl, hadded⟩
  obtain ⟨d, hd⟩ := List.exists_mem_of_ne_nil _ hadded
  obtain ⟨s, hs, hparent, -⟩ := mem_addedSelectors.mp hd
  rw [split_key_of_added hcomma hadded] at hs
  rw [hnames s hs] at hparent
  exact absurd hparent Bool.false_ne_true

/-- Linking a part lets a fragment grow on. -/
theorem grown_linkFragment (htracks : l.parts.Tracks fs) (hr : r ∈ requests fs) {f g : Fragment}
    (hg : g ∈ l.parts.fragments) (hgrown : f.Grown fs g)
    (hcomma : ∀ s ∈ f.selectors, ch ',' ∉ s) :
    f.Grown fs (linkFragment r.parent children r.members l.parts key g) := by
  by_cases hlinked :
      g.raw = none ∧ g.key = key ∧ addedSelectors r.parent children (split (ch ',') key) ≠ []
  · obtain ⟨hraw, rfl, hadded⟩ := hlinked
    have heq : linkFragment r.parent children r.members l.parts g.key g =
        { g with
          selectors := linkedSelectors r.parent children g.key
          deps := insertNats (l.parts.positionsExcept r.members g.id) g.deps } :=
      if_pos ⟨hraw, rfl, hadded⟩
    have hsubset : g.selectors ⊆ linkedSelectors r.parent children g.key := fun s hs =>
      mem_sortUnique.mpr (List.mem_append_left _
        (g.subset_split_key (htracks.sound.comma g hg) hs))
    rw [heq]
    refine ⟨hgrown.rest, fun _ => ordered_sortUnique _, ?_, ?_, fun n hn => ?_, ?_, ?_⟩
    · exact List.Subset.trans hgrown.selectors hsubset
    · exact fun n hn => mem_insertNats.mpr (.inr (hgrown.deps hn))
    · rcases mem_insertNats.mp hn with hn | hn
      · -- The rank is that of a member of the request, which extends something.
        obtain ⟨e', he', hmember, hne, rfl⟩ := mem_positionsExcept hn
        obtain ⟨e, he, heraw, hid, parent, hparent, -⟩ :=
          (from_of_mem_requests hr).members _ hmember
        obtain ⟨u, hu, hgrows, -⟩ := htracks.fragments
        have hue : u e ∈ l.parts.fragments := hu ▸ List.mem_map_of_mem he
        have hsame : u e = e' := htracks.sound.eq_of_id hue he' ((hgrows e he).id_eq.trans hid)
        refine .inr ⟨e, he, heraw, List.ne_nil_of_mem hparent, ?_, ?_⟩
        · rw [hid, ← hgrown.id_eq]
          exact hne
        · rw [← hsame, (hgrows e he).position_eq]
      · exact hgrown.extending n hn
    · intro hfraw
      exact absurd (hgrown.raw_eq.symm.trans hraw) hfraw
    · intro hnames
      -- a fragment that no request names is as it was
      have hgf := hgrown.untouched hnames
      rw [← heq, hgf]
      exact linkFragment_eq_self hcomma (hnames r hr)
  · rw [linkFragment, if_neg hlinked]
    exact hgrown

/-- Linking a part keeps track of the fragments. -/
theorem Tracks.linkPart (hfs : Arena fs) (htracks : l.parts.Tracks fs) (hr : r ∈ requests fs)
    (hchildren : ∀ c ∈ children, ch ',' ∉ c) :
    (linkPart r.parent children r.members l key).parts.Tracks fs where
  sound := htracks.sound.linkPart hchildren
  once := once_linkPart htracks.sound htracks.once
  fragments := by
    obtain ⟨u, hu, hgrown, halike⟩ := htracks.fragments
    refine ⟨linkFragment r.parent children r.members l.parts key ∘ u, ?_, fun f hf => ?_,
      fun f hf g hg hfraw hgraw => ?_⟩
    · rw [linkPart_fragments_eq htracks.sound hchildren, hu, List.map_map]
    · exact grown_linkFragment htracks hr (hu ▸ List.mem_map_of_mem hf) (hgrown f hf)
        (hfs.comma f hf)
    · have hfraw' := (hgrown f hf).raw_eq.trans hfraw
      have hgraw' := (hgrown g hg).raw_eq.trans hgraw
      obtain ⟨hkey, hselectors⟩ := halike f hf g hg hfraw hgraw
      exact ⟨fun h => key_linkFragment hfraw' hgraw' (hkey h),
        fun h => selectors_linkFragment hfraw' hgraw' (hselectors h)⟩

/-- Linking a request keeps track of the fragments. -/
theorem Tracks.link (hfs : Arena fs) {p : Parts} (htracks : p.Tracks fs) (hr : r ∈ requests fs) :
    (p.link r).parts.Tracks fs := by
  have hchildren := htracks.sound.comma_children r
  exact List.foldlRecOn (motive := fun l : Linked => l.parts.Tracks fs) p.keys
    (Parts.linkPart r.parent (p.children r) r.members) (b := { parts := p }) htracks
    fun _ hl _ _ => hl.linkPart hfs hr hchildren

end Step

end Parts

/-! ### All steps -/

/-- Parts that come up while the extends of fragments are resolved: those at the start, and
what they become as requests are linked one after another. -/
inductive Reached (fs : List Fragment) : Parts → Prop
  | start : Reached fs (Parts.ofFragments fs)
  | link {p : Parts} {r : Request} (hp : Reached fs p) (hr : r ∈ requests fs) :
      Reached fs (p.link r).parts

namespace Reached

variable {fs : List Fragment} {p : Parts}

theorem linkAll (hp : Reached fs p) {rs : List Request} (hrs : rs ⊆ requests fs) :
    Reached fs (linkAll p rs).1 := by
  induction rs generalizing p with
  | nil => exact hp
  | cons r rs ih =>
    obtain ⟨hr, hrs⟩ := List.cons_subset.mp hrs
    exact ih (hp.link hr) hrs

theorem settle (hp : Reached fs p) (n : Nat) : Reached fs (settle (requests fs) n p).1 := by
  induction n generalizing p with
  | zero => exact hp
  | succ n ih =>
    have hround := hp.linkAll (List.Subset.refl (requests fs))
    rw [settle_succ]
    split_ifs
    · exact ih hround
    · exact hround

/-- Every step of resolving keeps track of the fragments. -/
theorem tracks (hfs : Arena fs) (hp : Reached fs p) : p.Tracks fs := by
  induction hp with
  | start => exact Parts.tracks_ofFragments hfs
  | link _ hr ih => exact ih.link hfs hr

end Reached

/-! ### What every step keeps -/

/-- The keys that are listed are those of the table in its order: they are different, and the
ones that something is found under. Every fragment but a raw at-rule is in exactly one part and
there once, and the key of that part is its own. -/
structure Parts.Partition (p : Parts) : Prop where
  listed : p.Listed
  keys : p.keys.Nodup
  domain : ∀ key, key ∈ p.keys ↔ (p.parts.lookup key).isSome
  members : ∀ e ∈ p.parts, ∀ i ∈ e.2, ∃ f ∈ p.fragments, f.raw = none ∧ f.id = i
  part : ∀ f ∈ p.fragments, f.raw = none → ∃ e ∈ p.parts, e.1 = f.key ∧ e.2.count f.id = 1 ∧
    ∀ e' ∈ p.parts, f.id ∈ e'.2 → e' = e

theorem Parts.Tracks.partition {fs : List Fragment} {p : Parts} (h : p.Tracks fs) :
    p.Partition where
  listed := h.sound.listed
  keys := h.sound.listed ▸ h.sound.keys
  domain key := by
    rw [h.sound.listed]
    exact lookup_isSome_iff.symm
  members e he i hi := by
    obtain ⟨f, hf, hraw, hid, -⟩ := h.sound.members e he i hi
    exact ⟨f, hf, hraw, hid⟩
  part f hf hraw := by
    obtain ⟨ids, hids, hi⟩ := h.sound.covers f hf hraw
    refine ⟨_, hids, rfl, List.count_eq_one_of_mem (h.once _ hids) hi, ?_⟩
    -- Both parts have the key of the fragment.
    intro ⟨key, members⟩ he hie
    have hkey := ((h.sound.mem_part_iff he hf).mp hie).2
    exact List.inj_on_of_nodup_map h.sound.keys he hids hkey.symm

/-- Fragments as expansion lays them out: each has a position of its own, and selectors in
order. -/
structure Laid (fs : List Fragment) : Prop extends Arena fs where
  positions : (fs.map (·.position)).Nodup
  ordered : ∀ f ∈ fs, Ordered f.selectors

/-- How all fragments may change while their extends are resolved. No fragment comes to
precede itself, and those with the same selectors keep having the same; raw at-rules have
none. -/
structure Framed (fs : List Fragment) (u : Fragment → Fragment) : Prop where
  grown : ∀ f ∈ fs, f.Grown fs (u f)
  ordered : ∀ f ∈ fs, Ordered (u f).selectors
  irreflexive : ∀ f ∈ fs, f.position ∉ f.deps → f.position ∉ (u f).deps
  alike : ∀ f ∈ fs, ∀ g ∈ fs, (f.raw ≠ none → f.selectors = []) →
    (g.raw ≠ none → g.selectors = []) → f.selectors = g.selectors →
    (u f).selectors = (u g).selectors

/-- A fragment without selectors has nothing to extend. -/
theorem Fragment.Grown.eq_self_of_nil {fs : List Fragment} {f g : Fragment} (h : f.Grown fs g)
    (hnil : f.selectors = []) : g = f := by
  refine h.untouched fun r _ s hs => ?_
  rw [hnil] at hs
  exact absurd hs List.not_mem_nil

theorem Parts.Tracks.framed {fs : List Fragment} {p : Parts} (hfs : Laid fs) (h : p.Tracks fs) :
    ∃ u : Fragment → Fragment, p.fragments = fs.map u ∧ Framed fs u := by
  obtain ⟨u, hu, hgrown, halike⟩ := h.fragments
  refine ⟨u, hu, hgrown, fun f hf => (hgrown f hf).ordered (hfs.ordered f hf), ?_, ?_⟩
  · intro f hf hself hdep
    rcases (hgrown f hf).extending _ hdep with hdep | ⟨e, he, -, -, hne, hposition⟩
    · exact hself hdep
    · -- Two fragments at one position are one.
      have hef : e = f := List.inj_on_of_nodup_map hfs.positions he hf hposition
      exact hne (congrArg Fragment.id hef)
  · intro f hf g hg hfraw hgraw hsame
    by_cases hnil : f.selectors = []
    · rw [(hgrown f hf).eq_self_of_nil hnil, (hgrown g hg).eq_self_of_nil (hsame ▸ hnil), hsame]
    · have hfnone : f.raw = none := by_contra fun hraw => hnil (hfraw hraw)
      have hgnone : g.raw = none := by_contra fun hraw => hnil (hsame.trans (hgraw hraw))
      exact (halike f hf g hg hfnone hgnone).2 hsame

/-- At every step of resolving extends the parts partition the fragments by their selectors,
and the fragments are those of the start, grown in selectors and ranks only. -/
theorem partition_framed_of_reached {fs : List Fragment} (hfs : Laid fs) :
    (∀ p, Reached fs p → p.Partition ∧ ∃ u, p.fragments = fs.map u ∧ Framed fs u) ∧
      ∃ p, Reached fs p ∧ p.fragments = (resolveExtends fs).1 := by
  constructor
  · intro p hp
    have htracks := hp.tracks hfs.toArena
    exact ⟨htracks.partition, htracks.framed hfs⟩
  · exact ⟨_, Reached.start.settle maxRounds, rfl⟩

/-- Two rules that extend each other, and a third that extends one of them. -/
def crossRules : List Fragment :=
  [{ id := 0, selectors := [of ".a"], parents := [of ".b"] },
    { id := 1, selectors := [of ".b"], parents := [of ".a"], position := 1, order := 1 },
    { id := 2, selectors := [of ".c"], parents := [of ".a"], position := 2, order := 2 }]

theorem crossRules_partition_framed :
    Laid crossRules ∧ ∃ p, Reached crossRules p ∧ p.fragments = (resolveExtends crossRules).1 ∧
      p.Partition ∧ ∃ u, p.fragments = crossRules.map u ∧ Framed crossRules u := by
  have hlaid : Laid crossRules := by
    refine ⟨⟨by decide, by decide⟩, by decide, fun f hf => ⟨?_, ?_⟩⟩
    · revert f
      decide
    · revert f
      decide
  obtain ⟨hsteps, p, hp, hend⟩ := partition_framed_of_reached hlaid
  exact ⟨hlaid, p, hp, hend, hsteps p hp⟩

end Stylesheet
