import Stylesheet.Proofs.Compile.Parts

/-!
# Extension

When a fragment extends a parent, every fragment that has the parent among its selectors is
to get the selectors of the extending one. Whether it does depends on the two selectors
alone: the parent has to become the extending selector when what both share is trimmed and
the rest is replaced.

## Main definitions

* `Arena` — fragments as they come from expansion
* `Derives` — the selectors that extends can give
* `Unmistaken` — no extend of the fragment reads like one of another parent
* `TakesEffect` — a selector reaches an extended fragment, and no parent is missed

## Main results

* `derives_of_mem_resolveExtends` — resolving gives no selector but these
* `takesEffect_of_extendSelector?` — what a parent becomes reaches every fragment that has it
* `takesEffect_iff` — an extend takes effect everywhere exactly if the parent becomes the
  extending selector
-/

namespace Stylesheet

open Text

/-! ### Requests -/

/-- What tells an extend of a fragment apart from others. -/
def Fragment.label (f : Fragment) (parent : Text) : Text := f.key ++ of " extends " ++ parent

/-- A request comes from fragments: the first asks for its parent, and all of them for
something that reads the same. -/
structure Request.From (fs : List Fragment) (r : Request) : Prop where
  leader : ∃ g ∈ fs, g.raw = none ∧ r.members.head? = some g.id ∧ r.parent ∈ g.parents ∧
    r.label = g.label r.parent
  members : ∀ i ∈ r.members, ∃ g ∈ fs, g.raw = none ∧ g.id = i ∧
    ∃ parent ∈ g.parents, r.label = g.label parent

section Requests

variable {fs : List Fragment} {rs : List Request} {f : Fragment} {parent : Text}

theorem from_addRequest (hrs : ∀ r ∈ rs, r.From fs) (hf : f ∈ fs) (hraw : f.raw = none)
    (hparent : parent ∈ f.parents) : ∀ r ∈ addRequest f rs parent, r.From fs := by
  intro r hr
  rw [addRequest] at hr
  split_ifs at hr with hany
  · obtain ⟨r', hr', rfl⟩ := List.mem_map.mp hr
    have hfrom := hrs r' hr'
    split_ifs with hlabel
    · obtain ⟨g, hg, hgraw, hhead, hgparent, hglabel⟩ := hfrom.leader
      refine ⟨⟨g, hg, hgraw, ?_, hgparent, hglabel⟩, fun i hi => ?_⟩
      · rw [List.head?_append, hhead, Option.some_or]
      · rcases List.mem_append.mp hi with hi | hi
        · exact hfrom.members i hi
        · exact ⟨f, hf, hraw, (List.mem_singleton.mp hi).symm, parent, hparent, hlabel⟩
    · exact hfrom
  · rcases List.mem_append.mp hr with hr | hr
    · exact hrs r hr
    · obtain rfl := List.mem_singleton.mp hr
      refine ⟨⟨f, hf, hraw, rfl, hparent, rfl⟩, fun i hi => ?_⟩
      exact ⟨f, hf, hraw, (List.mem_singleton.mp hi).symm, parent, hparent, rfl⟩

theorem labels_addRequest (f : Fragment) (rs : List Request) (parent : Text) :
    (addRequest f rs parent).map (·.label) =
      if f.label parent ∈ rs.map (·.label) then rs.map (·.label)
      else rs.map (·.label) ++ [f.label parent] := by
  have hany : rs.any (·.label = f.label parent) = true ↔ f.label parent ∈ rs.map (·.label) := by
    simp
  rw [addRequest, ← Fragment.label]
  split_ifs with h h' h'
  · rw [List.map_map]
    refine List.map_congr_left fun r _ => ?_
    rw [Function.comp_apply]
    split_ifs <;> rfl
  · exact absurd (hany.mp h) h'
  · exact absurd (hany.mpr h') h
  · rw [List.map_append]
    rfl

theorem from_of_mem_requests {r : Request} (hr : r ∈ requests fs) : r.From fs := by
  rw [requests] at hr
  refine List.foldlRecOn (motive := fun rs : List Request => ∀ r ∈ rs, r.From fs) _ _
    (fun r hr => absurd hr List.not_mem_nil) (fun rs hrs f hf => ?_) r hr
  obtain ⟨hf, hraw⟩ : f ∈ fs ∧ f.raw = none := by simpa using hf
  exact List.foldlRecOn (motive := fun rs : List Request => ∀ r ∈ rs, r.From fs) f.parents
    (addRequest f) hrs fun _ hrs parent hparent => from_addRequest hrs hf hraw hparent

/-- Everything a fragment extends is asked for. -/
theorem exists_mem_requests (hf : f ∈ fs) (hraw : f.raw = none) (hparent : parent ∈ f.parents) :
    ∃ r ∈ requests fs, r.label = f.label parent := by
  let Asked (rs : List Request) : Prop := f.label parent ∈ rs.map (·.label)
  have hkeep (rs : List Request) (g : Fragment) (p : Text) (h : Asked rs) :
      Asked (addRequest g rs p) := by
    dsimp only [Asked]
    rw [labels_addRequest]
    split_ifs
    · exact h
    · exact List.mem_append_left _ h
  have hmake (rs : List Request) : Asked (addRequest f rs parent) := by
    dsimp only [Asked]
    rw [labels_addRequest]
    split_ifs with h
    · exact h
    · exact List.mem_append_right _ List.mem_cons_self
  have hasked : Asked (requests fs) := by
    refine @foldl_establishes _ _ _ Asked _ f (by simpa using ⟨hf, hraw⟩) (fun rs => ?_)
      (fun rs g h => ?_) []
    · exact foldl_establishes hparent hmake (fun rs p => hkeep rs f p) rs
    · exact List.foldlRecOn (motive := Asked) g.parents _ h fun rs h p _ => hkeep rs g p h
  obtain ⟨r, hr, hlabel⟩ := List.mem_map.mp hasked
  exact ⟨r, hr, hlabel⟩

end Requests

/-! ### Rounds -/

section Rounds

variable {p : Parts} {r : Request} {rs : List Request}

theorem linkAll_cons (p : Parts) (r : Request) (rs : List Request) :
    linkAll p (r :: rs) = ((linkAll (p.link r).parts rs).1,
      (p.link r).renamed || (linkAll (p.link r).parts rs).2.1,
      if (p.link r).found then (linkAll (p.link r).parts rs).2.2
      else r :: (linkAll (p.link r).parts rs).2.2) := rfl

theorem settle_succ (rs : List Request) (n : Nat) (p : Parts) :
    settle rs (n + 1) p =
      if (linkAll p rs).2.1 then settle rs n (linkAll p rs).1 else ((linkAll p rs).1, true) := rfl

theorem missing_subset (p : Parts) (rs : List Request) : (linkAll p rs).2.2 ⊆ rs := by
  induction rs generalizing p with
  | nil => exact List.Subset.refl _
  | cons r rs ih =>
    rw [linkAll_cons]
    dsimp only
    split_ifs
    · exact List.subset_cons_of_subset _ (ih _)
    · exact List.cons_subset_cons _ (ih _)

/-- A round keeps parts sound and lets them grow. -/
theorem Parts.Sound.linkAll (h : p.Sound) (rs : List Request) :
    (linkAll p rs).1.Sound ∧ p.Grows (linkAll p rs).1 := by
  induction rs generalizing p with
  | nil => exact ⟨h, .refl p⟩
  | cons r rs ih =>
    obtain ⟨hlink, hgrows⟩ := h.link r
    obtain ⟨hsound, hgrows'⟩ := ih hlink
    exact ⟨hsound, hgrows.trans hgrows'⟩

theorem Parts.Sound.settle (h : p.Sound) (rs : List Request) (n : Nat) :
    (settle rs n p).1.Sound ∧ p.Grows (settle rs n p).1 := by
  induction n generalizing p with
  | zero => exact ⟨h, .refl p⟩
  | succ n ih =>
    obtain ⟨hround, hgrows⟩ := h.linkAll rs
    rw [settle_succ]
    split_ifs
    · obtain ⟨hsound, hgrows'⟩ := ih hround
      exact ⟨hsound, hgrows.trans hgrows'⟩
    · exact ⟨hround, hgrows⟩

/-- The first of several rounds already gives what it gives. -/
theorem Parts.Sound.grows_settle (h : p.Sound) (rs : List Request) (n : Nat) :
    (Stylesheet.linkAll p rs).1.Grows (Stylesheet.settle rs (n + 1) p).1 := by
  rw [settle_succ]
  split_ifs
  · exact ((h.linkAll rs).1.settle rs n).2
  · exact .refl _

/-- In one round every request adds what it extends, and is not missed then. -/
theorem Parts.Sound.mem_of_linkAll (h : p.Sound) (hr : r ∈ rs) {f g : Fragment}
    (hf : f ∈ p.fragments) (hraw : f.raw = none) {s : Text} (hs : s ∈ f.selectors)
    (hparent : has s r.parent = true) (hg : g ∈ p.fragments)
    (hhead : r.members.head? = some g.id) {c : Text} (hc : c ∈ g.selectors) {d : Text}
    (hd : extendSelector? r.parent s c = some d) :
    r ∉ (Stylesheet.linkAll p rs).2.2 ∧
      ∃ f' ∈ (Stylesheet.linkAll p rs).1.fragments, f'.id = f.id ∧ d ∈ f'.selectors := by
  induction rs generalizing p f g with
  | nil => exact absurd hr List.not_mem_nil
  | cons r' rs ih =>
    obtain ⟨hlink, hgrows⟩ := h.link r'
    -- The selectors that the request reads are there at its turn.
    obtain ⟨f₁, hf₁, hid₁, hraw₁, hsub₁⟩ := hgrows f hf
    obtain ⟨g₁, hg₁, hgid₁, -, hgsub₁⟩ := hgrows g hg
    have hlater (hr : r ∈ rs) := ih hlink hr hf₁ (hraw₁.trans hraw) (hsub₁ hs) hg₁
      (hgid₁ ▸ hhead) (hgsub₁ hc)
    rw [linkAll_cons]
    dsimp only
    by_cases heq : r' = r
    · subst heq
      obtain ⟨hfound, f₂, hf₂, hid₂, hd₂⟩ :=
        h.mem_of_link hf hraw hs hparent (h.mem_children hg hhead hc) hd
      obtain ⟨f₃, hf₃, hid₃, -, hsub₃⟩ := (hlink.linkAll rs).2 f₂ hf₂
      rw [if_pos hfound]
      -- what was found is not given back as missing, and what was added stays
      refine ⟨fun hr => (hlater (missing_subset _ rs hr)).1 hr, f₃, hf₃, hid₃.trans hid₂, hsub₃ hd₂⟩
    · have hr' : r ∈ rs := (List.mem_cons.mp hr).resolve_left (Ne.symm heq)
      obtain ⟨hnot, f₂, hf₂, hid₂, hd₂⟩ := hlater hr'
      refine ⟨fun hr => ?_, f₂, hf₂, hid₂.trans hid₁, hd₂⟩
      split_ifs at hr with hfound
      · exact hnot hr
      · exact hnot ((List.mem_cons.mp hr).resolve_left (Ne.symm heq))

end Rounds

/-! ### What resolving gives -/

/-- Fragments as expansion gives them: each has its own number, and no selector has a
comma. -/
structure Arena (fs : List Fragment) : Prop where
  ids : (fs.map (·.id)).Nodup
  comma : ∀ f ∈ fs, ∀ s ∈ f.selectors, ch ',' ∉ s

/-- The requests whose parent is reported as not found. -/
def missingRequests (fs : List Fragment) : List Request :=
  (linkAll (Parts.ofFragments fs) (requests fs)).2.2

theorem resolveExtends_eq (fs : List Fragment) :
    resolveExtends fs = ((settle (requests fs) maxRounds (Parts.ofFragments fs)).1.fragments,
      cycleWarning fs ++ (missingRequests fs).map (missingWarning fs) ++
        if (settle (requests fs) maxRounds (Parts.ofFragments fs)).2 then []
        else [unsettledWarning]) := rfl

/-- The selectors a fragment may get: its own, and what they become when the selectors of
the first fragment of a request extend them. -/
inductive Derives (fs : List Fragment) : Nat → Text → Prop
  | own {f : Fragment} {s : Text} (hf : f ∈ fs) (hs : s ∈ f.selectors) : Derives fs f.id s
  | extended {i j : Nat} {r : Request} {s c d : Text} (hs : Derives fs i s) (hr : r ∈ requests fs)
      (hhead : r.members.head? = some j) (hc : Derives fs j c) (hparent : has s r.parent = true)
      (hd : extendSelector? r.parent s c = some d) : Derives fs i d

section Derives

variable {fs : List Fragment} {p : Parts}

theorem within_linkAll {rs : List Request} (hrs : rs ⊆ requests fs) (h : p.Sound)
    (hw : p.Within (Derives fs)) : (linkAll p rs).1.Within (Derives fs) := by
  induction rs generalizing p with
  | nil => exact hw
  | cons r rs ih =>
    obtain ⟨hr, hrs⟩ := List.cons_subset.mp hrs
    refine ih hrs (h.link r).1 (hw.link h fun i s c d hs hparent hc hd => ?_)
    obtain ⟨g, hg, hhead, hcg⟩ := Parts.mem_children hc
    exact hs.extended hr hhead (hw g hg c hcg) hparent hd

theorem within_settle (h : p.Sound) (hw : p.Within (Derives fs)) (n : Nat) :
    (settle (requests fs) n p).1.Within (Derives fs) := by
  induction n generalizing p with
  | zero => exact hw
  | succ n ih =>
    have hround := within_linkAll (List.Subset.refl _) h hw
    rw [settle_succ]
    split_ifs
    · exact ih (h.linkAll _).1 hround
    · exact hround

/-- Resolving gives a fragment no selector that extends do not give. -/
theorem derives_of_mem_resolveExtends (harena : Arena fs) {f : Fragment}
    (hf : f ∈ (resolveExtends fs).1) {s : Text} (hs : s ∈ f.selectors) : Derives fs f.id s := by
  rw [resolveExtends_eq] at hf
  exact within_settle (Parts.sound_ofFragments harena.ids harena.comma)
    (fun _ hg _ ht => .own (Parts.mem_ofFragments.mp hg) ht) maxRounds f hf s hs

end Derives

/-! ### Extends that take effect -/

/-- No extend of the fragment reads like one that has another parent. -/
def Unmistaken (fs : List Fragment) (f : Fragment) : Prop :=
  ∀ g ∈ fs, g.raw = none → ∀ q ∈ g.parents, ∀ parent ∈ f.parents,
    g.label q = f.label parent → q = parent

/-- A selector reaches a fragment by resolving, and the parent it comes from is not reported
as not found for the extending fragment. -/
def TakesEffect (fs : List Fragment) (extending extended : Fragment) (parent s : Text) : Prop :=
  (∃ f ∈ (resolveExtends fs).1, f.id = extended.id ∧ s ∈ f.selectors) ∧
    ∀ r ∈ missingRequests fs, extending.id ∈ r.members → r.parent ≠ parent

section Effect

variable {fs : List Fragment} {f b : Fragment} {parent : Text}

/-- The request for what a fragment extends has the parent, and first a fragment with the
same selectors. -/
theorem leader_of_label (harena : Arena fs) (hf : f ∈ fs) (hclear : Unmistaken fs f)
    (hparent : parent ∈ f.parents) {r : Request} (hr : r ∈ requests fs)
    (hlabel : r.label = f.label parent) :
    r.parent = parent ∧ ∃ g ∈ fs, r.members.head? = some g.id ∧
      ∀ c ∈ f.selectors, c ≠ [] → c ∈ g.selectors := by
  obtain ⟨g, hg, hraw, hhead, hq, hglabel⟩ := (from_of_mem_requests hr).leader
  have hsame := hglabel.symm.trans hlabel
  have hrparent := hclear g hg hraw r.parent hq parent hparent hsame
  refine ⟨hrparent, g, hg, hhead, fun c hc hne => ?_⟩
  rw [hrparent] at hsame
  have hkey : g.key = f.key := List.append_cancel_right (List.append_cancel_right hsame)
  have hsplit := hkey ▸ f.subset_split_key (harena.comma f hf) hc
  rwa [g.split_key (harena.comma g hg) hsplit hne] at hsplit

/-- What the parent becomes reaches every fragment that has the parent. -/
theorem takesEffect_of_extendSelector? (harena : Arena fs) (hf : f ∈ fs) (hraw : f.raw = none)
    (hclear : Unmistaken fs f) (hparent : parent ∈ f.parents) (hb : b ∈ fs) (hbraw : b.raw = none)
    (hbparent : parent ∈ b.selectors) {c d : Text} (hc : c ∈ f.selectors)
    (hd : extendSelector? parent parent c = some d) : TakesEffect fs f b parent d := by
  have hsound := Parts.sound_ofFragments harena.ids harena.comma
  have hne : c ≠ [] := by
    rintro rfl
    rw [extendSelector?_nil_child] at hd
    exact Option.some_ne_none d hd.symm
  -- Every request that reads like this extend does its work in the first round.
  have hround {r : Request} (hr : r ∈ requests fs) (hlabel : r.label = f.label parent) :
      r ∉ missingRequests fs ∧
        ∃ f' ∈ (linkAll (Parts.ofFragments fs) (requests fs)).1.fragments,
          f'.id = b.id ∧ d ∈ f'.selectors := by
    obtain ⟨hrparent, g, hg, hhead, hsub⟩ := leader_of_label harena hf hclear hparent hr hlabel
    exact hsound.mem_of_linkAll hr (Parts.mem_ofFragments.mpr hb) hbraw hbparent
      (hrparent ▸ has_self _) (Parts.mem_ofFragments.mpr hg) hhead (hsub c hc hne) (hrparent ▸ hd)
  constructor
  · obtain ⟨r, hr, hlabel⟩ := exists_mem_requests hf hraw hparent
    obtain ⟨-, f₁, hf₁, hid₁, hd₁⟩ := hround hr hlabel
    -- the later rounds only add selectors
    obtain ⟨f₂, hf₂, hid₂, -, hsub₂⟩ := hsound.grows_settle (requests fs) 9 f₁ hf₁
    exact ⟨f₂, hf₂, hid₂.trans hid₁, hsub₂ hd₁⟩
  · intro r hmissing hmember hrparent
    -- the request that is missing would be one that the fragment makes
    have hr := missing_subset _ _ hmissing
    obtain ⟨g, hg, -, hid, q, hq, hlabel⟩ := (from_of_mem_requests hr).members _ hmember
    obtain rfl := List.inj_on_of_nodup_map harena.ids hg hf hid
    obtain ⟨hqparent, -⟩ := leader_of_label harena hf hclear hq hr hlabel
    rw [← hqparent, hrparent] at hlabel
    exact (hround hr hlabel).1 hmissing

end Effect

/-! ### One rule that extends another -/

/-- A rule with one selector. -/
def baseRule (parent : Text) : Fragment := { id := 0, selectors := [parent] }

/-- A rule after it with one selector that extends the first. -/
def heirRule (parent c : Text) : Fragment :=
  { id := 1, selectors := [c], parents := [parent], position := 1, order := 1 }

/-- Two rules, the second of which extends the selector of the first. -/
def lonePair (parent c : Text) : List Fragment := [baseRule parent, heirRule parent c]

section LonePair

variable {parent c : Text}

theorem mem_lonePair {f : Fragment} :
    f ∈ lonePair parent c ↔ f = baseRule parent ∨ f = heirRule parent c := by
  simp [lonePair]

theorem arena_lonePair (hparent : ch ',' ∉ parent) (hc : ch ',' ∉ c) :
    Arena (lonePair parent c) := by
  refine ⟨by simp [lonePair, baseRule, heirRule], fun f hf s hs => ?_⟩
  rcases mem_lonePair.mp hf with rfl | rfl
  · exact List.mem_singleton.mp hs ▸ hparent
  · exact List.mem_singleton.mp hs ▸ hc

theorem unmistaken_lonePair (parent c : Text) :
    Unmistaken (lonePair parent c) (heirRule parent c) := by
  intro g hg _ q hq parent' hparent' _
  rcases mem_lonePair.mp hg with rfl | rfl
  · exact absurd hq List.not_mem_nil
  · exact (List.mem_singleton.mp hq).trans (List.mem_singleton.mp hparent').symm

theorem requests_lonePair (parent c : Text) :
    ∃ label, requests (lonePair parent c) = [⟨label, [1], parent⟩] := ⟨_, rfl⟩

/-- What the first rule gets is what its selector becomes; anything after that is longer
than the extending selector. -/
theorem of_derives_lonePair (hc : has c parent = false) {i : Nat} {s : Text}
    (hs : Derives (lonePair parent c) i s) :
    i = 1 ∧ s = c ∨ i = 0 ∧ (s = parent ∨ extendSelector? parent parent c = some s ∨
      parent.length < c.length ∧ c.length < s.length) := by
  -- by how the selector is derived: each step after the first makes it longer
  induction hs with
  | own hf hs =>
    rcases mem_lonePair.mp hf with rfl | rfl
    · exact .inr ⟨rfl, .inl (List.mem_singleton.mp hs)⟩
    · exact .inl ⟨rfl, List.mem_singleton.mp hs⟩
  | @extended i j r s c' d hs hr hhead hc' hnames hd ih ihc =>
    obtain ⟨label, hreq⟩ := requests_lonePair parent c
    rw [hreq, List.mem_singleton] at hr
    subst hr
    obtain rfl := Option.some.inj hhead
    obtain rfl : c' = c := by simpa using ihc
    replace hnames : has s parent = true := hnames
    replace hd : extendSelector? parent s c' = some d := hd
    rcases ih with ⟨-, rfl⟩ | ⟨rfl, ih⟩
    · exact absurd hnames (by simp [hc])
    refine .inr ⟨rfl, ?_⟩
    rcases ih with rfl | hfirst | ⟨hlt, hlonger⟩
    · exact .inr (.inl hd)
    · -- The selector names the parent but is not the parent, so it is longer.
      have hpart := has_iff.mp hnames
      have hne : parent.length ≠ s.length := fun heq =>
        (of_extendSelector? hfirst).1 (hpart.eq_of_length heq).symm
      have hlt := length_lt_of_extendSelector? hfirst (Nat.lt_of_le_of_ne hpart.length_le hne)
      have hstart := le_length_of_extendSelector? hfirst hlt
      have hnext := le_length_of_extendSelector? hd hlt
      exact .inr (.inr ⟨hlt, by omega⟩)
    · have hnext := le_length_of_extendSelector? hd hlt
      exact .inr (.inr ⟨hlt, by omega⟩)

/-- In a stylesheet of two rules an extend takes effect only if the parent becomes the
extending selector. -/
theorem replaces_of_takesEffect (hparent : ch ',' ∉ parent) (hc : ch ',' ∉ c)
    (hnot : has c parent = false)
    (h : TakesEffect (lonePair parent c) (heirRule parent c) (baseRule parent) parent c) :
    extendSelector? parent parent c = some c := by
  obtain ⟨⟨f, hf, hid, hcf⟩, -⟩ := h
  have hderives := derives_of_mem_resolveExtends (arena_lonePair hparent hc) hf hcf
  rw [hid] at hderives
  rcases of_derives_lonePair hnot hderives with ⟨h, -⟩ | ⟨-, h | h | ⟨-, h⟩⟩
  · exact absurd h Nat.zero_ne_one
  · subst h
    rw [has_self] at hnot
    exact absurd hnot (by decide)
  · exact h
  · exact absurd h (Nat.lt_irrefl _)

end LonePair

/-- An extend takes effect in every stylesheet, that is, the extending selector reaches every
fragment with the parent and the parent is not missed, if and only if the parent itself
becomes the extending selector. -/
theorem takesEffect_iff {parent c : Text} (hparent : ch ',' ∉ parent) (hc : ch ',' ∉ c)
    (hnot : has c parent = false) :
    (∀ (fs : List Fragment) (f b : Fragment), Arena fs → f ∈ fs → f.raw = none →
      Unmistaken fs f → parent ∈ f.parents → c ∈ f.selectors → b ∈ fs → b.raw = none →
      parent ∈ b.selectors → TakesEffect fs f b parent c) ↔
    extendSelector? parent parent c = some c := by
  constructor
  · intro h
    refine replaces_of_takesEffect hparent hc hnot ?_
    exact h _ _ _ (arena_lonePair hparent hc) (mem_lonePair.mpr (.inr rfl)) rfl
      (unmistaken_lonePair parent c) List.mem_cons_self List.mem_cons_self
      (mem_lonePair.mpr (.inl rfl)) rfl List.mem_cons_self
  · intro hreplaces fs f b harena hf hraw hclear hp hcf hb hbraw hbp
    exact takesEffect_of_extendSelector? harena hf hraw hclear hp hb hbraw hbp hcf hreplaces

/-- A rule with two selectors. -/
def navRule : Fragment :=
  { id := 2, selectors := [of ".nav .a", of "p"], position := 2, order := 2 }

theorem navRule_takesEffect :
    has (of ".nav .b") (of ".nav .a") = false ∧
      TakesEffect [heirRule (of ".nav .a") (of ".nav .b"), navRule]
        (heirRule (of ".nav .a") (of ".nav .b")) navRule (of ".nav .a") (of ".nav .b") := by
  refine ⟨by decide, (takesEffect_iff (by decide) (by decide)
    (by decide)).mpr (by decide) _ _ _ ⟨by decide, by decide⟩
    (by decide) rfl ?_ (by decide) (by decide) (by decide) rfl (by decide)⟩
  unfold Unmistaken
  decide

/-- A pseudo-element that extends another one of the same element takes no effect: what
remains after trimming does not stand whole in the parent. -/
theorem after_not_takesEffect :
    ¬ TakesEffect (lonePair (of "a::before") (of "a::after"))
      (heirRule (of "a::before") (of "a::after")) (baseRule (of "a::before"))
      (of "a::before") (of "a::after") := by
  intro h
  have hreplaces := replaces_of_takesEffect (by decide) (by decide)
    (by decide) h
  exact absurd hreplaces (by decide)

end Stylesheet
