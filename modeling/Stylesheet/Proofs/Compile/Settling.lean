import Mathlib
import Stylesheet.Proofs.Compile.Linking

/-!
# Settling

Extends are resolved in rounds until a round moves no part. Such a round visits every part
with every request, and finds what it would add there already. So what resolving ends with,
unless it gives up, is closed under all requests.

A request is made of fragments that read the same, which need not ask for the same: it
speaks for the selectors and the parent of its first. Every fragment is spoken for, unless
one of its extends is mistaken for another.

## Main definitions

* `Parts.Same` — the same parts, and fragments with the same selectors
* `Parts.ClosedUnder` — nothing is left to add for a request
* `Answers` — a fragment has what its selectors become when another extends a parent

## Main results

* `Parts.closedUnder_of_linkAll` — a round that moves nothing has nothing to add
* `closedUnder_of_settle` — neither have settled parts
* `answers_of_settled` — settled fragments answer all extends that are not mistaken
-/

namespace Stylesheet

open Text

namespace Parts

/-- The same parts, and fragments with the same selectors. -/
structure Same (p q : Parts) : Prop where
  parts : q.parts = p.parts
  fragments : ∃ u : Fragment → Fragment, q.fragments = p.fragments.map u ∧
    ∀ f, (u f).id = f.id ∧ (u f).raw = f.raw ∧ (u f).selectors = f.selectors

variable {p q : Parts}

theorem Same.refl (p : Parts) : p.Same p :=
  ⟨rfl, id, (List.map_id _).symm, fun _ => ⟨rfl, rfl, rfl⟩⟩

theorem Same.trans {q' : Parts} (h : p.Same q) (h' : q.Same q') : p.Same q' := by
  obtain ⟨u, hu, hsame⟩ := h.fragments
  obtain ⟨v, hv, hsame'⟩ := h'.fragments
  refine ⟨h'.parts.trans h.parts, v ∘ u, by rw [hv, hu, List.map_map], fun f => ?_⟩
  obtain ⟨hid, hraw, hselectors⟩ := hsame' (u f)
  exact ⟨hid.trans (hsame f).1, hraw.trans (hsame f).2.1, hselectors.trans (hsame f).2.2⟩

/-- A request reads the same selectors. -/
theorem Same.children_eq (h : p.Same q) (r : Request) : q.children r = p.children r := by
  obtain ⟨u, hu, hsame⟩ := h.fragments
  have hget (i : Nat) : q.get? i = (p.get? i).map u := by
    rw [get?, hu, List.find?_map, get?]
    congr 2
    funext f
    rw [Function.comp_apply, (hsame f).1]
  unfold children
  cases r.members.head? with
  | none => rfl
  | some i =>
    rw [Option.bind_some, Option.bind_some, hget, Option.map_map]
    congr 2
    funext f
    exact (hsame f).2.2

/-- Every set of selectors has all that the request adds to it. -/
def ClosedUnder (r : Request) (p : Parts) : Prop :=
  ∀ key ∈ p.parts.map (·.1),
    addedSelectors r.parent (p.children r) (split (ch ',') key) ⊆ split (ch ',') key

theorem Same.closedUnder_iff (h : p.Same q) {r : Request} :
    q.ClosedUnder r ↔ p.ClosedUnder r := by
  rw [ClosedUnder, ClosedUnder, h.children_eq, h.parts]

/-! ### A round that moves nothing -/

section Linking

variable {parent : Text} {children : List Text} {members : List Nat} {l : Linked} {key : Text}

/-- A part that does not move has all that it would get. -/
theorem same_of_linkPart (hchildren : ∀ c ∈ children, ch ',' ∉ c)
    (hstill : (linkPart parent children members l key).renamed = false) :
    l.renamed = false ∧ l.parts.Same (linkPart parent children members l key).parts ∧
      (key ∈ l.parts.parts.map (·.1) →
        addedSelectors parent children (split (ch ',') key) ⊆ split (ch ',') key) := by
  rcases linkPart_cases parent children members l key with
    ⟨heq, hnone⟩ | ⟨ids, hids, hadded, ⟨hjoin, heq⟩ | heq⟩
  · rw [heq] at hstill ⊢
    refine ⟨hstill, .refl _, fun hkey => ?_⟩
    rw [hnone hkey]
    exact List.nil_subset _
  · rw [heq] at hstill ⊢
    refine ⟨hstill, ⟨rfl, recordDeps_fragments l.parts ids members⟩, fun _ d hd => ?_⟩
    -- The key is what the linked selectors are joined to, so they are its parts.
    have hmem : d ∈ linkedSelectors parent children key :=
      mem_sortUnique.mpr (List.mem_append_right _ hd)
    have hsplit := split_join (List.ne_nil_of_mem hmem) fun s hs =>
      comma_linkedSelectors hchildren hs
    rw [hjoin] at hsplit
    rwa [hsplit]
  · rw [heq] at hstill
    exact absurd hstill (by simp)

theorem same_of_foldl_linkPart (hchildren : ∀ c ∈ children, ch ',' ∉ c) {keys : List Text}
    (hstill : (keys.foldl (linkPart parent children members) l).renamed = false) :
    l.renamed = false ∧ l.parts.Same (keys.foldl (linkPart parent children members) l).parts ∧
      ∀ key ∈ keys, key ∈ l.parts.parts.map (·.1) →
        addedSelectors parent children (split (ch ',') key) ⊆ split (ch ',') key := by
  induction keys generalizing l with
  | nil => exact ⟨hstill, .refl _, fun key hkey => absurd hkey List.not_mem_nil⟩
  | cons k keys ih =>
    rw [List.foldl_cons] at hstill ⊢
    obtain ⟨hfirst, hsame, hrest⟩ := ih hstill
    obtain ⟨hrenamed, hsame', hadds⟩ := same_of_linkPart hchildren hfirst
    refine ⟨hrenamed, hsame'.trans hsame, fun key hkey hmem => ?_⟩
    rcases List.mem_cons.mp hkey with rfl | hkey
    · exact hadds hmem
    · exact hrest key hkey (hsame'.parts.symm ▸ hmem)

end Linking

/-- A request that moves no part has nothing to add. -/
theorem closedUnder_of_link (h : p.Sound) {r : Request} (hstill : (p.link r).renamed = false) :
    p.Same (p.link r).parts ∧ p.ClosedUnder r := by
  obtain ⟨-, hsame, hadds⟩ := same_of_foldl_linkPart (h.comma_children r) hstill
  exact ⟨hsame, fun key hkey => hadds key (h.listed ▸ hkey) hkey⟩

/-- In a round that moves no part all requests see the same parts. -/
theorem closedUnder_of_linkAll (h : p.Sound) {rs : List Request}
    (hstill : (linkAll p rs).2.1 = false) :
    p.Same (linkAll p rs).1 ∧ ∀ r ∈ rs, p.ClosedUnder r := by
  induction rs generalizing p with
  | nil => exact ⟨.refl p, fun r hr => absurd hr List.not_mem_nil⟩
  | cons r rs ih =>
    rw [linkAll_cons] at hstill ⊢
    obtain ⟨hlink, hrest⟩ := Bool.or_eq_false_iff.mp hstill
    obtain ⟨hsame, hclosed⟩ := closedUnder_of_link h hlink
    obtain ⟨hsame', hclosed'⟩ := ih (h.link r).1 hrest
    refine ⟨hsame.trans hsame', fun r' hr' => ?_⟩
    rcases List.mem_cons.mp hr' with rfl | hr'
    · exact hclosed
    · exact hsame.closedUnder_iff.mp (hclosed' r' hr')

end Parts

/-! ### Settled parts -/

/-- Settled parts have nothing to add for any request. -/
theorem closedUnder_of_settle {p : Parts} (h : p.Sound) {rs : List Request} {n : Nat}
    (hsettled : (settle rs n p).2 = true) : ∀ r ∈ rs, (settle rs n p).1.ClosedUnder r := by
  induction n generalizing p with
  | zero => exact absurd hsettled Bool.false_ne_true
  | succ n ih =>
    rw [settle_succ] at hsettled ⊢
    by_cases hchanged : (linkAll p rs).2.1 = true
    · rw [if_pos hchanged] at hsettled ⊢
      exact ih (h.linkAll rs).1 hsettled
    · rw [if_neg hchanged]
      obtain ⟨hsame, hclosed⟩ := Parts.closedUnder_of_linkAll h (Bool.eq_false_iff.mpr hchanged)
      exact fun r hr => hsame.closedUnder_iff.mpr (hclosed r hr)

/-- What the selectors of a fragment become when `c` extends `parent` is among them, where
anything is left of the two without what they share. -/
def Answers (f : Fragment) (parent c : Text) : Prop :=
  ∀ s ∈ f.selectors, has s parent = true → (trimCommon c parent).1 ≠ [] →
    (trimCommon c parent).2 ≠ [] →
    replaceWhole s (trimCommon c parent).2 (trimCommon c parent).1 ∈ f.selectors

instance (f : Fragment) (parent c : Text) : Decidable (Answers f parent c) :=
  inferInstanceAs (Decidable (∀ s ∈ f.selectors, _ → _))

/-- Fragments answer a request for which their parts have nothing to add. -/
theorem Parts.ClosedUnder.answers {p : Parts} {r : Request} (hclosed : p.ClosedUnder r)
    (h : p.Sound) {f : Fragment} (hf : f ∈ p.fragments) (hraw : f.raw = none) {c : Text}
    (hc : c ∈ p.children r) : Answers f r.parent c := by
  intro s hs hparent hchild hrest
  by_cases hsame : replaceWhole s (trimCommon c r.parent).2 (trimCommon c r.parent).1 = s
  · rwa [hsame]
  · have hext : extendSelector? r.parent s c =
        some (replaceWhole s (trimCommon c r.parent).2 (trimCommon c r.parent).1) := by
      simp [extendSelector?, hchild, hrest, hsame]
    have hadded := mem_addedSelectors.mpr
      ⟨s, f.subset_split_key (h.comma f hf) hs, hparent, c, hc, hext⟩
    obtain ⟨ids, hids, -⟩ := h.covers f hf hraw
    have hmem := hclosed f.key (List.mem_map.mpr ⟨_, hids, rfl⟩) hadded
    rwa [split_key_of_added (h.comma f hf) (List.ne_nil_of_mem hadded)] at hmem

/-! ### Requests -/

/-- What a fragment extends is asked for together with fragments that read the same. -/
theorem exists_request_of_mem_parents {fs : List Fragment} {f : Fragment} {parent : Text}
    (hf : f ∈ fs) (hraw : f.raw = none) (hparent : parent ∈ f.parents) :
    ∃ r ∈ requests fs, r.label = f.label parent ∧ f.id ∈ r.members := by
  -- Requests are gathered by two nested folds: one step of the inner one brings the request about,
  -- and no later step takes it away.
  let Asked (rs : List Request) : Prop := ∃ r ∈ rs, r.label = f.label parent ∧ f.id ∈ r.members
  have hkeep (rs : List Request) (g : Fragment) (q : Text) (h : Asked rs) :
      Asked (addRequest g rs q) := by
    obtain ⟨r, hr, hlabel, hmember⟩ := h
    rw [addRequest]
    split_ifs with hany
    · refine ⟨_, List.mem_map_of_mem hr, ?_⟩
      split_ifs
      · exact ⟨hlabel, List.mem_append_left _ hmember⟩
      · exact ⟨hlabel, hmember⟩
    · exact ⟨r, List.mem_append_left _ hr, hlabel, hmember⟩
  have hmake (rs : List Request) : Asked (addRequest f rs parent) := by
    rw [addRequest, ← Fragment.label]
    split_ifs with hany
    · obtain ⟨r, hr, hlabel⟩ := List.any_eq_true.mp hany
      rw [decide_eq_true_eq] at hlabel
      refine ⟨_, List.mem_map_of_mem hr, ?_⟩
      rw [if_pos hlabel]
      exact ⟨hlabel, List.mem_append_right _ List.mem_cons_self⟩
    · exact ⟨_, List.mem_append_right _ List.mem_cons_self, rfl, List.mem_cons_self⟩
  refine @foldl_establishes _ _ _ Asked _ f (by simpa using ⟨hf, hraw⟩) (fun rs => ?_)
    (fun rs g h => ?_) []
  · exact foldl_establishes hparent hmake (fun rs q => hkeep rs f q) rs
  · exact List.foldlRecOn (motive := Asked) g.parents _ h fun rs h q _ => hkeep rs g q h

/-! ### Settled fragments -/

section Settled

variable {fs : List Fragment}

theorem settled_of_not_warned (h : unsettledWarning ∉ (resolveExtends fs).2) :
    (settle (requests fs) maxRounds (Parts.ofFragments fs)).2 = true := by
  by_contra hsettled
  refine h ?_
  rw [resolveExtends_eq, if_neg hsettled]
  exact List.mem_append_right _ List.mem_cons_self

/-- The selectors of a fragment of a request that has the key of the first are those the
request reads. They had the same key at the start, and still have. -/
theorem mem_children_of_label (hfs : Arena fs) {p : Parts} (hp : Reached fs p) {r : Request}
    (hr : r ∈ requests fs) {g g' : Fragment} (hg : g ∈ fs) (hraw : g.raw = none)
    (hlabel : r.label = g.label r.parent) (hg' : g' ∈ p.fragments) (hid : g'.id = g.id) {c : Text}
    (hc : c ∈ g'.selectors) (hne : c ≠ []) : c ∈ p.children r := by
  have htracks := hp.tracks hfs
  obtain ⟨e, he, heraw, hhead, -, helabel⟩ := (from_of_mem_requests hr).leader
  have hkey : e.key = g.key :=
    List.append_cancel_right (List.append_cancel_right (helabel.symm.trans hlabel))
  obtain ⟨u, hu, hgrown, halike⟩ := htracks.fragments
  have hmem {f : Fragment} (hf : f ∈ fs) : u f ∈ p.fragments := hu ▸ List.mem_map_of_mem hf
  have hgu : u g = g' := htracks.sound.eq_of_id (hmem hg) hg' ((hgrown g hg).id_eq.trans hid.symm)
  have hkey' : (u e).key = g'.key := hgu ▸ (halike e he g hg heraw hraw).1 hkey
  refine htracks.sound.mem_children (hmem he) ((hgrown e he).id_eq ▸ hhead) ?_
  have hsplit := hkey' ▸ g'.subset_split_key (htracks.sound.comma g' hg') hc
  rwa [(u e).split_key (htracks.sound.comma _ (hmem he)) hsplit hne] at hsplit

/-- Unless resolving gives up, every fragment in the end answers all extends of a fragment
that are not mistaken for those of another parent. -/
theorem answers_of_settled (hfs : Arena fs) (hsettled : unsettledWarning ∉ (resolveExtends fs).2)
    {g g' f : Fragment} (hg : g ∈ fs) (hraw : g.raw = none) (hg' : g' ∈ (resolveExtends fs).1)
    (hid : g'.id = g.id) (hf : f ∈ (resolveExtends fs).1) (hfraw : f.raw = none) :
    (∀ r ∈ requests fs, r.label = g.label r.parent → ∀ c ∈ g'.selectors, Answers f r.parent c) ∧
      (Unmistaken fs g →
        (∀ parent ∈ g.parents, ∃ r ∈ requests fs, g.id ∈ r.members ∧ r.parent = parent) ∧
          ∀ r ∈ requests fs, g.id ∈ r.members → ∀ c ∈ g'.selectors, Answers f r.parent c) := by
  rw [resolveExtends_eq] at hg' hf
  have hreached : Reached fs (settle (requests fs) maxRounds (Parts.ofFragments fs)).1 :=
    Reached.start.settle maxRounds
  have hclosed := closedUnder_of_settle (Parts.sound_ofFragments hfs.ids hfs.comma)
    (settled_of_not_warned hsettled)
  have hanswers : ∀ r ∈ requests fs, r.label = g.label r.parent →
      ∀ c ∈ g'.selectors, Answers f r.parent c := by
    intro r hr hlabel c hc s hs hparent hchild hrest
    have hne : c ≠ [] := by
      rintro rfl
      exact hchild (by simp [trimCommon])
    have hread := mem_children_of_label hfs hreached hr hg hraw hlabel hg' hid hc hne
    exact (hclosed r hr).answers (hreached.tracks hfs).sound hf hfraw hread s hs hparent hchild
      hrest
  refine ⟨hanswers, fun hclear => ⟨fun parent hparent => ?_, fun r hr hmember => ?_⟩⟩
  · obtain ⟨r, hr, hlabel, hmember⟩ := exists_request_of_mem_parents hg hraw hparent
    exact ⟨r, hr, hmember, (leader_of_label hfs hg hclear hparent hr hlabel).1⟩
  · -- A request the fragment is a member of was made for one of its own parents, with its label.
    obtain ⟨e, he, -, heid, parent, hparent, hlabel⟩ := (from_of_mem_requests hr).members _ hmember
    obtain rfl := List.inj_on_of_nodup_map hfs.ids he hg heid
    have hrparent := (leader_of_label hfs hg hclear hparent hr hlabel).1
    exact hanswers r hr (hrparent ▸ hlabel)

end Settled

/-- The rules that extend each other have come to have the same selectors, so the third one is
answered by both. -/
theorem crossRules_answer :
    Arena crossRules ∧ unsettledWarning ∉ (resolveExtends crossRules).2 ∧
      ∃ g ∈ (resolveExtends crossRules).1, g.id = 2 ∧ of ".a" ∈ g.parents ∧
        of ".c" ∈ g.selectors ∧ ∀ f ∈ (resolveExtends crossRules).1,
          Answers f (of ".a") (of ".c") := by
  have harena : Arena crossRules := ⟨by decide, by decide⟩
  have hresolved : resolveExtends crossRules =
      ([{ id := 0, selectors := [of ".a", of ".b", of ".c"], parents := [of ".b"],
          deps := [1, 2] },
        { id := 1, selectors := [of ".a", of ".b", of ".c"], parents := [of ".a"],
          position := 1, order := 1, deps := [0, 2] },
        { id := 2, selectors := [of ".c"], parents := [of ".a"], position := 2,
          order := 2 }],
        [⟨.warning, of "circular extend: .a -> .b -> .a", [], -1⟩]) := by
    cbv
  have hsettled : unsettledWarning ∉ (resolveExtends crossRules).2 := by
    rw [hresolved]
    decide
  have hrequest : ∃ r ∈ requests crossRules, r.parent = of ".a" ∧
      r.label = Fragment.label { id := 2, selectors := [of ".c"] } r.parent := by
    decide
  obtain ⟨r, hr, hparent, hlabel⟩ := hrequest
  refine ⟨harena, hsettled, crossRules.getLast (by decide), by rw [hresolved]; decide,
    by decide, by decide, by decide, fun f hf => ?_⟩
  have hraw : f.raw = none := by
    rw [hresolved] at hf
    revert f
    decide
  -- The third rule asks for `.a`, so its selector answers `.a` wherever that one stands.
  rw [← hparent]
  exact (answers_of_settled harena hsettled (List.getLast_mem (by decide)) rfl
    (by rw [hresolved]; decide) rfl hf hraw).1 r hr hlabel _ (by decide)

/-- A rule whose parent reads like an extend, and one whose selectors do. -/
def mistakenRules : List Fragment :=
  [{ id := 0, selectors := [of ".x"], parents := [of ".y extends .z"] },
    { id := 1, selectors := [of ".x extends .y"], parents := [of ".z"], position := 1, order := 1 },
    { id := 2, selectors := [of ".y extends .z"], position := 2, order := 2 }]

/-- The two are taken for one request, and the third rule answers the second of them neither
for its own parent nor for that of the request. -/
theorem mistakenRules_unanswered :
    unsettledWarning ∉ (resolveExtends mistakenRules).2 ∧
      ∃ g ∈ (resolveExtends mistakenRules).1, of ".z" ∈ g.parents ∧
        ∃ c ∈ g.selectors, ∃ f ∈ (resolveExtends mistakenRules).1, f.raw = none ∧
          ¬ Answers f (of ".z") c ∧
          ∃ r ∈ requests mistakenRules, g.id ∈ r.members ∧ ¬ Answers f r.parent c := by
  have hresolved : resolveExtends mistakenRules =
      ([{ id := 0, selectors := [of ".x"], parents := [of ".y extends .z"] },
        { id := 1, selectors := [of ".x extends .y"], parents := [of ".z"], position := 1,
          order := 1 },
        { id := 2, selectors := [of ".x", of ".y extends .z"], position := 2, order := 2,
          deps := [0, 1] }], []) := by
    cbv
  rw [hresolved]
  decide

end Stylesheet
