import Mathlib
import Stylesheet.Compile
import Stylesheet.Proofs.Compile.Coupling
import Stylesheet.Proofs.Compile.Linking

/-!
# Parents that are not found

A request whose parent is nowhere is reported. Whether it is somewhere depends on the parts at
the turn of the request: one of their selectors has to name the parent, and to become another
one when a selector of the request extends it. Since requests are linked one after another, a
parent may come up after the turn of the request that asks for it, and be found in the next
round.

The report is made in the first round. So it is made for every request that is never matched,
but also for those that are matched in a later round only. What those extend is then among the
selectors in the end all the same.

## Main definitions

* `Parts.Matches` — linking a request adds or confirms a selector
* `Round` — the rounds that are made, and the parts that each starts with
* `MatchedIn`, `Matched` — a request adds or confirms a selector in a round, or in any

## Main results

* `Parts.found_link` — linking finds a parent exactly if the request matches
* `mem_missing_iff` — a round misses the requests that do not match at their turn
* `exists_last_round` — resolving gives what the last round ends with
* `MatchedIn.later` — a request that is matched stays so
* `exists_extended_of_matched` — then it takes effect
* `reported_iff_not_matched_first` — which parents are reported
-/

namespace Stylesheet

open Text

/-! ### Finding a parent -/

namespace Parts

variable {p : Parts} {r : Request}

/-- Linking the request adds or confirms a selector: there is one that names the parent and
becomes another when a selector of the request extends it. -/
def Matches (p : Parts) (r : Request) : Prop :=
  ∃ key ∈ p.parts.map (·.1), ∃ s ∈ split (ch ',') key, has s r.parent = true ∧
    ∃ c ∈ p.children r, ∃ d, extendSelector? r.parent s c = some d

theorem matches_iff_added :
    p.Matches r ↔ ∃ key ∈ p.parts.map (·.1),
      addedSelectors r.parent (p.children r) (split (ch ',') key) ≠ [] := by
  refine exists_congr fun key => and_congr_right fun _ => ?_
  constructor
  · rintro ⟨s, hs, hparent, c, hc, d, hd⟩
    exact List.ne_nil_of_mem (mem_addedSelectors.mpr ⟨s, hs, hparent, c, hc, hd⟩)
  · intro hadded
    obtain ⟨d, hd⟩ := List.exists_mem_of_ne_nil _ hadded
    obtain ⟨s, hs, hparent, c, hc, hd⟩ := mem_addedSelectors.mp hd
    exact ⟨s, hs, hparent, c, hc, d, hd⟩

section Linking

variable {parent : Text} {children : List Text} {members : List Nat} {l : Linked} {key : Text}

/-- The first part with selectors to add is found. Until then nothing changes. -/
theorem found_foldl_linkPart {keys : List Text}
    (hkeys : l.found = false → keys ⊆ l.parts.parts.map (·.1)) :
    (keys.foldl (linkPart parent children members) l).found = true ↔
      l.found = true ∨ ∃ key ∈ keys, addedSelectors parent children (split (ch ',') key) ≠ [] := by
  induction keys generalizing l with
  | nil => simp
  | cons key keys ih =>
    rw [List.foldl_cons]
    -- Once something is found it stays found; before that the key is still one of the parts.
    by_cases hfound : l.found = true
    · have hkept : (linkPart parent children members l key).found = true := found_linkPart hfound
      rw [ih fun hnot => absurd hkept (hnot ▸ Bool.false_ne_true)]
      exact iff_of_true (.inl hkept) (.inl hfound)
    · obtain ⟨hkey, hkeys⟩ := List.cons_subset.mp (hkeys (Bool.eq_false_iff.mpr hfound))
      rcases linkPart_cases parent children members l key with
        ⟨heq, hnone⟩ | ⟨ids, -, hadded, ⟨-, heq⟩ | heq⟩
      · rw [heq, ih fun _ => hkeys]
        simp [hnone hkey]
      · rw [heq, ih (by simp)]
        exact iff_of_true (.inl rfl) (.inr ⟨key, List.mem_cons_self, hadded⟩)
      · rw [heq, ih (by simp)]
        exact iff_of_true (.inl rfl) (.inr ⟨key, List.mem_cons_self, hadded⟩)

end Linking

/-- Linking finds the parent exactly if the request matches. -/
theorem found_link (h : p.Listed) : (p.link r).found = true ↔ p.Matches r := by
  -- the keys of the table are the ones that are gone through
  have hkeys : p.parts.map (·.1) = p.keys := h.symm
  rw [matches_iff_added, hkeys]
  refine (found_foldl_linkPart fun _ => hkeys ▸ List.Subset.refl _).trans ?_
  simp [children]

end Parts

/-- A round misses the requests that do not match at their turn, when those before them have
been linked. -/
theorem mem_missing_iff {p : Parts} {r : Request} {rs : List Request} (h : p.Listed) :
    r ∈ (linkAll p rs).2.2 ↔
      ∃ before after, rs = before ++ r :: after ∧ ¬(linkAll p before).1.Matches r := by
  induction rs generalizing p with
  | nil => simp [linkAll]
  | cons r' rs ih =>
    -- The first request is missing when it does not match now; the others are linked after it.
    have hmem : r ∈ (linkAll p (r' :: rs)).2.2 ↔
        r = r' ∧ ¬p.Matches r' ∨ r ∈ (linkAll (p.link r').parts rs).2.2 := by
      rw [linkAll_cons, ← Parts.found_link h]
      dsimp only
      split_ifs with hfound
      · simp [hfound]
      · simp [hfound]
    rw [hmem, ih (h.link r')]
    constructor
    · rintro (⟨rfl, hnot⟩ | ⟨before, after, rfl, hnot⟩)
      · exact ⟨[], rs, rfl, hnot⟩
      · exact ⟨r' :: before, after, rfl, hnot⟩
    · rintro ⟨before, after, hsplit, hnot⟩
      cases before with
      | nil =>
        obtain ⟨rfl, -⟩ := List.cons.inj hsplit
        exact .inl ⟨rfl, hnot⟩
      | cons r'' before =>
        obtain ⟨rfl, rfl⟩ := List.cons.inj hsplit
        exact .inr ⟨before, after, rfl, hnot⟩

theorem Parts.Listed.linkAll {p : Parts} (h : p.Listed) (rs : List Request) :
    (linkAll p rs).1.Listed := by
  induction rs generalizing p with
  | nil => exact h
  | cons r rs ih => exact ih (h.link r)

theorem linkAll_append (p : Parts) (rs rs' : List Request) :
    (linkAll p (rs ++ rs')).1 = (linkAll (linkAll p rs).1 rs').1 := by
  induction rs generalizing p with
  | nil => rfl
  | cons r rs ih => exact ih _

theorem missing_sublist (p : Parts) (rs : List Request) : (linkAll p rs).2.2.Sublist rs := by
  induction rs generalizing p with
  | nil => exact List.Sublist.refl _
  | cons r rs ih =>
    rw [linkAll_cons]
    dsimp only
    split_ifs
    · exact (ih _).cons r
    · exact (ih _).cons_cons r

/-- What fragments ask for is asked for once. -/
theorem nodup_requests (fs : List Fragment) : (requests fs).Nodup := by
  have hadd (f : Fragment) (rs : List Request) (parent : Text) (h : (rs.map (·.label)).Nodup) :
      ((addRequest f rs parent).map (·.label)).Nodup := by
    rw [labels_addRequest]
    split_ifs with hlabel
    · exact h
    · exact List.nodup_append_comm.mp (List.nodup_cons.mpr ⟨hlabel, h⟩)
  have hlabels : ((requests fs).map (·.label)).Nodup := by
    let Labelled (rs : List Request) : Prop := (rs.map (·.label)).Nodup
    refine List.foldlRecOn (motive := Labelled) _ _ List.nodup_nil fun rs hrs f _ => ?_
    exact List.foldlRecOn (motive := Labelled) f.parents (addRequest f) hrs
      fun rs hrs parent _ => hadd f rs parent hrs
  exact hlabels.of_map _

/-! ### Rounds -/

/-- The round with this number is made, and starts with these parts. -/
inductive Round (fs : List Fragment) : Nat → Parts → Prop
  | first : Round fs 1 (Parts.ofFragments fs)
  | next {k : Nat} {p : Parts} (hp : Round fs k p)
      (hchanged : (linkAll p (requests fs)).2.1 = true) (hbound : k < maxRounds) :
      Round fs (k + 1) (linkAll p (requests fs)).1

/-- At its turn in a round the request adds or confirms a selector. -/
def MatchedIn (fs : List Fragment) (k : Nat) (r : Request) : Prop :=
  ∃ p before after, Round fs k p ∧ requests fs = before ++ r :: after ∧
    (linkAll p before).1.Matches r

/-- At its turn in some round the request adds or confirms a selector. -/
def Matched (fs : List Fragment) (r : Request) : Prop := ∃ k, MatchedIn fs k r

section Rounds

variable {fs : List Fragment} {k k' n : Nat} {p q : Parts} {r : Request}

theorem Round.pos (h : Round fs k p) : 0 < k := by
  cases h with
  | first => exact Nat.one_pos
  | next => exact Nat.succ_pos _

theorem Round.eq (h : Round fs k p) (h' : Round fs k q) : p = q := by
  induction h generalizing q with
  | first =>
    cases h' with
    | first => rfl
    | next hp => exact absurd hp.pos (Nat.lt_irrefl 0)
  | next hp _ _ ih =>
    cases h' with
    | first => exact absurd hp.pos (Nat.lt_irrefl 0)
    | next hp' => rw [ih hp']

theorem Round.listed (h : Round fs k p) : p.Listed := by
  induction h with
  | first => exact Parts.listed_ofFragments fs
  | next _ _ _ ih => exact ih.linkAll (requests fs)

/-- Settling from a round on ends with one that changes nothing, or with the last one. -/
theorem exists_round_settle (h : Round fs k p) (hk : k + n = maxRounds) :
    ∃ k' q, Round fs k' q ∧ ((linkAll q (requests fs)).2.1 = true → k' = maxRounds) ∧
      settle (requests fs) (n + 1) p =
        ((linkAll q (requests fs)).1, !(linkAll q (requests fs)).2.1) := by
  induction n generalizing k p with
  | zero =>
    refine ⟨k, p, h, fun _ => hk, ?_⟩
    rw [settle_succ]
    split_ifs with hchanged
    · rw [hchanged]
      rfl
    · rw [Bool.eq_false_iff.mpr hchanged]
      rfl
  | succ n ih =>
    rw [settle_succ]
    split_ifs with hchanged
    · -- A round that changed something is followed by the next one.
      exact ih (h.next hchanged (by omega)) (by omega)
    · refine ⟨k, p, h, fun hchanged' => absurd hchanged' hchanged, ?_⟩
      rw [Bool.eq_false_iff.mpr hchanged]
      rfl

/-- No round comes after one that changes nothing, or after the last one. -/
theorem Round.le_of_last (h : Round fs k p) (h' : Round fs k' q)
    (hlast : (linkAll q (requests fs)).2.1 = true → k' = maxRounds) : k ≤ k' := by
  induction h with
  | first => exact h'.pos
  | @next k p hp hchanged hbound ih =>
    refine Nat.lt_of_le_of_ne ih ?_
    rintro rfl
    obtain rfl := hp.eq h'
    exact absurd (hlast hchanged) (Nat.ne_of_lt hbound)

/-- There is a last round, and resolving gives what it ends with. -/
theorem exists_last_round (fs : List Fragment) :
    ∃ k q, Round fs k q ∧ (∀ k' p, Round fs k' p → k' ≤ k) ∧
      (resolveExtends fs).1 = (linkAll q (requests fs)).1.fragments := by
  have hfirst : Round fs 1 (Parts.ofFragments fs) := .first
  obtain ⟨k, q, hq, hlast, hsettle⟩ := exists_round_settle (n := 9) hfirst rfl
  refine ⟨k, q, hq, fun k' p hp => hp.le_of_last hq hlast, ?_⟩
  rw [resolveExtends_eq, maxRounds, hsettle]

/-- A request has one turn in a round. -/
theorem matchedIn_iff (h : Round fs k p) (hr : r ∈ requests fs) :
    MatchedIn fs k r ↔ r ∉ (linkAll p (requests fs)).2.2 := by
  rw [mem_missing_iff h.listed]
  constructor
  · -- Requests are different, so both turns are after the same ones.
    rintro ⟨p', before, after, hp', hsplit, hmatches⟩ ⟨before', after', hsplit', hnot⟩
    obtain rfl := h.eq hp'
    have hnodup := List.nodup_middle.mp (hsplit ▸ nodup_requests fs)
    obtain ⟨hbefore, hafter⟩ : r ∉ before ∧ r ∉ after := by
      simpa using (List.nodup_cons.mp hnodup).1
    obtain ⟨rfl, -, -⟩ :=
      (List.append_cons_inj_of_notMem hbefore hafter).mp (hsplit.symm.trans hsplit')
    exact hnot hmatches
  · intro hnot
    obtain ⟨before, after, hsplit⟩ := List.append_of_mem hr
    refine ⟨p, before, after, h, hsplit, ?_⟩
    by_contra hmatches
    exact hnot ⟨before, after, hsplit, hmatches⟩

/-- The requests that are not found are those not matched in the first round. -/
theorem mem_missingRequests_iff :
    r ∈ missingRequests fs ↔ r ∈ requests fs ∧ ¬MatchedIn fs 1 r := by
  constructor
  · intro hmissing
    have hr := missing_subset _ _ hmissing
    exact ⟨hr, fun hmatched => (matchedIn_iff .first hr).mp hmatched hmissing⟩
  · rintro ⟨hr, hnot⟩
    rw [matchedIn_iff .first hr, not_not] at hnot
    exact hnot

end Rounds

/-! ### Parts with members -/

namespace Parts

variable {key : Text} {ids : List Nat} {ps : List (Text × List Nat)}

/-- Every part has a member. -/
def Filled (ps : List (Text × List Nat)) : Prop := ∀ e ∈ ps, e.2 ≠ []

theorem filled_insert (hps : Filled ps) (hids : ids ≠ []) : Filled (insert key ids ps) := by
  induction ps with
  | nil =>
    intro e he
    obtain rfl := List.mem_singleton.mp he
    exact hids
  | cons e rest ih =>
    obtain ⟨hfirst, hrest⟩ := List.forall_mem_cons.mp hps
    rw [insert]
    split_ifs
    · exact List.forall_mem_cons.mpr ⟨List.append_ne_nil_of_left_ne_nil hfirst ids, hrest⟩
    · exact List.forall_mem_cons.mpr ⟨hfirst, ih hrest⟩

theorem filled_ofFragments (fs : List Fragment) : Filled (ofFragments fs).parts := by
  rw [parts_ofFragments]
  refine List.foldlRecOn (motive := Filled) _ _ (fun e he => absurd he List.not_mem_nil) ?_
  exact fun ps hps f _ => filled_insert hps (List.cons_ne_nil _ _)

theorem filled_linkPart {parent : Text} {children : List Text} {members : List Nat} {l : Linked}
    (h : Filled l.parts.parts) : Filled (linkPart parent children members l key).parts.parts := by
  rcases linkPart_cases parent children members l key with
    ⟨heq, -⟩ | ⟨ids, hids, -, ⟨-, heq⟩ | heq⟩
  · rw [heq]
    exact h
  · rw [heq]
    exact h
  · rw [heq]
    exact filled_insert (fun e he => h e (List.mem_of_mem_filter he)) (h _ hids)

end Parts

section Arena

variable {fs : List Fragment} {k k' : Nat} {p q : Parts} {r : Request}

theorem Reached.filled (hp : Reached fs p) : Parts.Filled p.parts := by
  induction hp with
  | start => exact Parts.filled_ofFragments fs
  | @link p r _ _ ih =>
    have hstart : Parts.Filled ({ parts := p } : Linked).parts.parts := ih
    exact List.foldlRecOn (motive := fun l : Linked => Parts.Filled l.parts.parts)
      p.keys (Parts.linkPart r.parent (p.children r) r.members) hstart
      fun _ hl _ _ => Parts.filled_linkPart hl

/-- A request matches exactly if it extends a selector of a fragment. -/
theorem Reached.matches_iff (hfs : Arena fs) (hp : Reached fs p) :
    p.Matches r ↔ ∃ f ∈ p.fragments, f.raw = none ∧ ∃ s ∈ f.selectors, has s r.parent = true ∧
      ∃ c ∈ p.children r, ∃ d, extendSelector? r.parent s c = some d := by
  have hsound := (hp.tracks hfs).sound
  constructor
  · rintro ⟨key, hkey, s, hs, hparent, c, hc, d, hd⟩
    -- A part has a member, and the member has the selectors that the part is under.
    obtain ⟨⟨key, ids⟩, he, rfl⟩ := List.mem_map.mp hkey
    obtain ⟨i, hi⟩ := List.exists_mem_of_ne_nil _ (hp.filled _ he)
    obtain ⟨f, hf, hraw, -, rfl⟩ := hsound.members _ he i hi
    have hadded := List.ne_nil_of_mem (Parts.mem_addedSelectors.mpr ⟨s, hs, hparent, c, hc, hd⟩)
    rw [Parts.split_key_of_added (hsound.comma f hf) hadded] at hs
    exact ⟨f, hf, hraw, s, hs, hparent, c, hc, d, hd⟩
  · rintro ⟨f, hf, hraw, s, hs, hmatches⟩
    obtain ⟨ids, hids, -⟩ := hsound.covers f hf hraw
    exact ⟨f.key, List.mem_map.mpr ⟨_, hids, rfl⟩, s, f.subset_split_key (hsound.comma f hf) hs,
      hmatches⟩

/-- A request that matches still does when selectors have become more. -/
theorem Reached.matches_of_grows (hfs : Arena fs) (hp : Reached fs p) (hq : Reached fs q)
    (hgrows : p.Grows q) (hmatches : p.Matches r) : q.Matches r := by
  rw [hp.matches_iff hfs] at hmatches
  rw [hq.matches_iff hfs]
  obtain ⟨f, hf, hraw, s, hs, hparent, c, hc, hd⟩ := hmatches
  obtain ⟨f', hf', -, hraw', hsub⟩ := hgrows f hf
  obtain ⟨g, hg, hhead, hcg⟩ := Parts.mem_children hc
  obtain ⟨g', hg', hgid, -, hgsub⟩ := hgrows g hg
  have hc' := (hq.tracks hfs).sound.mem_children hg' (hgid ▸ hhead) (hgsub hcg)
  exact ⟨f', hf', hraw'.trans hraw, s, hsub hs, hparent, c, hc', hd⟩

theorem Round.reached (h : Round fs k p) : Reached fs p := by
  induction h with
  | first => exact .start
  | next _ _ _ ih => exact ih.linkAll (List.Subset.refl _)

/-- What one round ends with grows until a later one. -/
theorem Round.grows (hfs : Arena fs) (h : Round fs k p) (h' : Round fs k' q) (hlt : k < k') :
    (linkAll p (requests fs)).1.Grows q := by
  induction h' with
  | first => exact absurd h.pos (Nat.not_lt.mpr (Nat.le_of_lt_succ hlt))
  | @next k' q hq _ _ ih =>
    rcases Nat.lt_or_eq_of_le (Nat.le_of_lt_succ hlt) with hlt | rfl
    · exact (ih hlt).trans ((hq.reached.tracks hfs).sound.linkAll _).2
    · obtain rfl := h.eq hq
      exact .refl _

/-- At its turn and at the end of the round a request reads parts that only grow. -/
theorem Round.grows_turn (hfs : Arena fs) (h : Round fs k p) {before after : List Request}
    (hsplit : requests fs = before ++ after) :
    Reached fs (linkAll p before).1 ∧ p.Grows (linkAll p before).1 ∧
      (linkAll p before).1.Grows (linkAll p (requests fs)).1 := by
  have hbefore : before ⊆ requests fs := hsplit ▸ List.subset_append_left before after
  have hreached := h.reached.linkAll hbefore
  refine ⟨hreached, ((h.reached.tracks hfs).sound.linkAll before).2, ?_⟩
  rw [hsplit, linkAll_append]
  exact ((hreached.tracks hfs).sound.linkAll after).2

/-- A request that is matched in a round is matched in every later one. -/
theorem MatchedIn.later (hfs : Arena fs) (h : MatchedIn fs k r) (hle : k ≤ k')
    (h' : Round fs k' q) : MatchedIn fs k' r := by
  obtain ⟨p, before, after, hp, hsplit, hmatches⟩ := h
  obtain ⟨hreached, -, hend⟩ := hp.grows_turn hfs hsplit
  obtain ⟨hreached', hturn, -⟩ := h'.grows_turn hfs hsplit
  refine ⟨q, before, after, h', hsplit, ?_⟩
  rcases Nat.lt_or_eq_of_le hle with hlt | rfl
  · exact hreached.matches_of_grows hfs hreached' (hend.trans ((hp.grows hfs h' hlt).trans hturn))
      hmatches
  · exact hp.eq h' ▸ hmatches

/-- A request that is matched takes effect: in the end there is a selector that names the
parent, and with it what it becomes. -/
theorem exists_extended_of_matched (hfs : Arena fs) (h : Matched fs r) :
    ∃ f ∈ (resolveExtends fs).1, f.raw = none ∧ ∃ s ∈ f.selectors, has s r.parent = true ∧
      ∃ g ∈ (resolveExtends fs).1, r.members.head? = some g.id ∧ ∃ c ∈ g.selectors,
        ∃ d ∈ f.selectors, extendSelector? r.parent s c = some d := by
  obtain ⟨last, q, hq, hlast, hend⟩ := exists_last_round fs
  obtain ⟨k, p, before, after, hp, hsplit, hmatches⟩ := h
  obtain ⟨hreached, -, -⟩ := hp.grows_turn hfs hsplit
  have hsound := (hreached.tracks hfs).sound
  -- From the turn of the request on selectors only become more.
  have hgrows : ((linkAll p before).1.link r).parts.Grows (linkAll q (requests fs)).1 := by
    have hsplit' : requests fs = (before ++ [r]) ++ after := by rw [hsplit, List.append_assoc]; rfl
    have hround := (hp.grows_turn hfs hsplit').2.2
    rw [linkAll_append] at hround
    rcases Nat.lt_or_eq_of_le (hlast k p hp) with hlt | rfl
    · exact hround.trans ((hp.grows hfs hq hlt).trans ((hq.reached.tracks hfs).sound.linkAll _).2)
    · exact hp.eq hq ▸ hround
  obtain ⟨f, hf, hraw, s, hs, hparent, c, hc, d, hd⟩ := (hreached.matches_iff hfs).mp hmatches
  obtain ⟨g, hg, hhead, hcg⟩ := Parts.mem_children hc
  obtain ⟨-, f', hf', hid', hdf'⟩ := hsound.mem_of_link hf hraw hs hparent hc hd
  have hall := (hsound.link r).2.trans hgrows
  obtain ⟨f₁, hf₁, hid₁, hraw₁, hsub₁⟩ := hall f hf
  obtain ⟨f₂, hf₂, hid₂, -, hsub₂⟩ := hgrows f' hf'
  obtain ⟨g₁, hg₁, hgid₁, -, hgsub₁⟩ := hall g hg
  -- The fragment that gets the selector is the one that names the parent.
  have hfinal := ((hq.reached.linkAll (List.Subset.refl _)).tracks hfs).sound
  obtain rfl := hfinal.eq_of_id hf₁ hf₂ (hid₁.trans (hid'.symm.trans hid₂.symm))
  rw [hend]
  exact ⟨f₁, hf₁, hraw₁.trans hraw, s, hsub₁ hs, hparent, g₁, hg₁, hgid₁ ▸ hhead, c, hgsub₁ hcg, d,
    hsub₂ hdf', hd⟩

end Arena

/-! ### Reports -/

/-- How a report of a missing parent begins. -/
def missingPrefix : Text := of "parent rule not found: "

theorem starts_append (t rest : Text) : starts (t ++ rest) t = true :=
  List.isPrefixOf_iff_prefix.mpr (List.prefix_append t rest)

/-- The reports of missing parents are those for the missing requests, in their order. -/
theorem filter_reports (fs : List Fragment) :
    (resolveExtends fs).2.filter (starts ·.message missingPrefix) =
      (missingRequests fs).map (missingWarning fs) := by
  have hcycle : (cycleWarning fs).filter (starts ·.message missingPrefix) = [] := by
    unfold cycleWarning
    split
    · rw [List.filter_singleton]
      rfl
    · rfl
  have hmissing : ∀ d ∈ (missingRequests fs).map (missingWarning fs),
      starts d.message missingPrefix = true := by
    intro d hd
    obtain ⟨r, -, rfl⟩ := List.mem_map.mp hd
    exact starts_append missingPrefix r.parent
  have hunsettled (settled : Bool) : (if settled then [] else [unsettledWarning]).filter
      (starts ·.message missingPrefix) = [] := by
    cases settled with
    | true => rfl
    | false => decide
  -- Of the three kinds of reports the prefix keeps the second one, and all of it.
  rw [resolveExtends_eq, List.filter_append, List.filter_append, hcycle,
    List.filter_eq_self.mpr hmissing, hunsettled, List.nil_append, List.append_nil]

theorem missingWarning_mem {fs : List Fragment} {r : Request} (h : r ∈ missingRequests fs) :
    missingWarning fs r ∈ (resolveExtends fs).2 := by
  have hreport := List.mem_map_of_mem (f := missingWarning fs) h
  rw [← filter_reports] at hreport
  exact List.mem_of_mem_filter hreport

/-- A parent is reported as not found once for each request that adds or confirms no selector
in the first round. So all requests that never do are reported. The others are reported too,
although they take effect, unless they do in the first round already. -/
theorem reported_iff_not_matched_first (fs : List Fragment) :
    (resolveExtends fs).2.filter (starts ·.message missingPrefix) =
        (missingRequests fs).map (missingWarning fs) ∧
      (missingRequests fs).Sublist (requests fs) ∧ (requests fs).Nodup ∧
      ∀ r ∈ requests fs, (r ∈ missingRequests fs ↔ ¬MatchedIn fs 1 r) ∧
        ((r ∈ missingRequests fs ↔ ¬Matched fs r) ↔ (Matched fs r → MatchedIn fs 1 r)) ∧
        (Arena fs → Matched fs r →
          ∃ f ∈ (resolveExtends fs).1, f.raw = none ∧ ∃ s ∈ f.selectors, has s r.parent = true ∧
            ∃ g ∈ (resolveExtends fs).1, r.members.head? = some g.id ∧ ∃ c ∈ g.selectors,
              ∃ d ∈ f.selectors, extendSelector? r.parent s c = some d) := by
  refine ⟨filter_reports fs, missing_sublist _ _, nodup_requests fs, fun r hr => ?_⟩
  have hreported : r ∈ missingRequests fs ↔ ¬MatchedIn fs 1 r := by
    rw [mem_missingRequests_iff]
    exact and_iff_right hr
  refine ⟨hreported, ?_, fun hfs h => exists_extended_of_matched hfs h⟩
  have hfirst : MatchedIn fs 1 r → Matched fs r := fun h => ⟨1, h⟩
  rw [hreported, not_iff_not]
  exact ⟨fun h => h.mpr, fun h => ⟨hfirst, h⟩⟩

/-! ### A parent that comes up late -/

/-- A rule that extends what the second rule makes of the third. -/
def lateSheet : Text :=
  of ".c { @extend .b:hover; x: c; } .b { @extend .a; x: b; } .a:hover { x: a; }"

/-- Its fragments before their extends are resolved. -/
def lateFragments : List Fragment :=
  [{ id := 0, selectors := [[]] },
    { id := 1, selectors := [of ".c"], parents := [of ".b:hover"],
      properties := [⟨of "x", some (of "c")⟩], position := 1, order := 1 },
    { id := 2, selectors := [of ".b"], parents := [of ".a"],
      properties := [⟨of "x", some (of "b")⟩], position := 2, order := 2 },
    { id := 3, selectors := [of ".a:hover"], properties := [⟨of "x", some (of "a")⟩],
      position := 3, order := 3 }]

/-- What the first rule asks for. -/
def lateRequest : Request := ⟨of ".c extends .b:hover", [1], of ".b:hover"⟩

theorem requests_lateFragments :
    requests lateFragments = [lateRequest, ⟨of ".b extends .a", [2], of ".a"⟩] := by
  cbv

/-- The parts after the first round, in which the third rule has got what the second makes of
it. -/
def lateParts : Parts where
  fragments := lateFragments.map fun f =>
    if f.id = 3 then { f with selectors := [of ".a:hover", of ".b:hover"], deps := [2] } else f
  keys := [[], of ".c", of ".b", of ".a:hover,.b:hover"]
  parts := [([], [0]), (of ".c", [1]), (of ".b", [2]), (of ".a:hover,.b:hover", [3])]

theorem linkAll_lateFragments :
    linkAll (Parts.ofFragments lateFragments) (requests lateFragments) =
      (lateParts, true, [lateRequest]) := by
  cbv

/-- The first rule has its turn before the second has changed the third, and finds its parent
in the second round. -/
theorem lateRequest_matched : Matched lateFragments lateRequest := by
  have hround : Round lateFragments 2 lateParts := by
    have hfirst : Round lateFragments 1 (Parts.ofFragments lateFragments) := .first
    have hnext := hfirst.next (by rw [linkAll_lateFragments]) (by decide)
    rwa [linkAll_lateFragments] at hnext
  refine ⟨2, lateParts, [], _, hround, requests_lateFragments, of ".a:hover,.b:hover", by decide,
    of ".b:hover", by decide, by decide, of ".c", by decide, of ".c", by decide⟩

theorem lateRequest_missing : lateRequest ∈ missingRequests lateFragments := by
  rw [missingRequests, linkAll_lateFragments]
  exact List.mem_cons_self

/-- The third rule gets the selector of the first, and yet its parent is reported. -/
theorem lateRequest_reported :
    Arena lateFragments ∧ lateRequest ∈ requests lateFragments ∧
      Matched lateFragments lateRequest ∧ ¬MatchedIn lateFragments 1 lateRequest ∧
      (∃ f ∈ (resolveExtends lateFragments).1, ∃ s ∈ f.selectors, ∃ c d,
        d ∈ f.selectors ∧ extendSelector? (of ".b:hover") s c = some d) ∧
      ∃ d ∈ (resolveExtends lateFragments).2, d.message = of "parent rule not found: .b:hover" := by
  have harena : Arena lateFragments := ⟨by decide, by decide⟩
  have hmem : lateRequest ∈ requests lateFragments :=
    requests_lateFragments ▸ List.mem_cons_self
  obtain ⟨-, -, -, hrequests⟩ := reported_iff_not_matched_first lateFragments
  obtain ⟨hmissing, -, htakes⟩ := hrequests lateRequest hmem
  obtain ⟨f, hf, -, s, hs, -, -, -, -, c, -, d, hd, hextend⟩ := htakes harena lateRequest_matched
  exact ⟨harena, hmem, lateRequest_matched, hmissing.mp lateRequest_missing,
    ⟨f, hf, s, hs, c, d, hd, hextend⟩, _, missingWarning_mem lateRequest_missing, by decide⟩

set_option maxRecDepth 4000 in
/-- The stylesheet has a request that is matched in some round, and its parent is reported as
not found. -/
theorem lateSheet_matched_and_reported :
    ∃ fragments s,
      outcome (expandSource 8 {} lateSheet) (Options.session {}) = (.ok fragments, s) ∧
        ∃ r ∈ requests (fragments.mergeSort fun f g => f.id ≤ g.id),
          ¬((∃ d ∈ (resolveExtends (fragments.mergeSort fun f g => f.id ≤ g.id)).2,
              d.message = missingPrefix ++ r.parent) ↔
            ¬Matched (fragments.mergeSort fun f g => f.id ≤ g.id) r) := by
  have hexpand : (outcome (expandSource 8 {} lateSheet) (Options.session {})).1.toOption =
      some lateFragments := by decide +kernel
  have hsorted : lateFragments.mergeSort (fun f g => f.id ≤ g.id) = lateFragments :=
    List.mergeSort_of_pairwise (by decide)
  rcases hout : outcome (expandSource 8 {} lateSheet) (Options.session {}) with ⟨r, s⟩
  rw [hout] at hexpand
  cases r with
  | error e => cases hexpand
  | ok fragments =>
    obtain rfl : fragments = lateFragments := Option.some.inj hexpand
    refine ⟨_, s, rfl, ?_⟩
    rw [hsorted]
    refine ⟨lateRequest, requests_lateFragments ▸ List.mem_cons_self, fun hiff => ?_⟩
    exact hiff.mp ⟨_, missingWarning_mem lateRequest_missing, rfl⟩ lateRequest_matched

end Stylesheet
