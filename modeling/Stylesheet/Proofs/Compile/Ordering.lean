import Mathlib
import Stylesheet.Proofs.Compile.Linking
import Stylesheet.Proofs.Compile.Preorder

/-!
# The order of extended rules

A fragment that is extended remembers the positions of those that extend it, and is ranked
by the least of them, so that it can be written ahead of them. Fragments of one rank are
written as they were encountered. This file says what comes of it: which of two fragments is
written first, and when an extended one does stand ahead of one that extends it.

It does unless the other is drawn forward as well, by a fragment that extends it in turn.
The second of two rules that extend one another in a chain can be drawn as far as the first.
Nothing is ever drawn back: what is not extended stays behind all that came before it.

## Main definitions

* `Fragment.front` — where a fragment is ranked
* `Fragment.Ahead` — the order of the output
* `sequence` — the fragments in that order
* `Overtakes` — drawn to where an extended fragment is, or before it

## Main results

* `pairwise_mergeSort` — a stable sort goes by the key, and then by the order before
* `map_resolveExtends` — extends touch selectors and remembered positions only
* `pairwise_orderFragments` — the output is in that order
* `sublist_orderFragments_iff` — which of two fragments is first in the output
* `orderFragments_moves_upward` — the output has each fragment once, and none is behind one
  that came later and is not extended
* `extended_ahead_iff` — when an extended fragment is ahead of one that extends it
-/

namespace Stylesheet

open Text

/-! ### Pairs in lists -/

section Pairs

variable {α : Type} {a b : α} {xs : List α}

/-- Of two members of a list one is before the other. -/
theorem sublist_or_sublist (ha : a ∈ xs) (hb : b ∈ xs) (hne : a ≠ b) :
    [a, b].Sublist xs ∨ [b, a].Sublist xs := by
  induction xs with
  | nil => cases ha
  | cons x xs ih =>
    rcases List.mem_cons.mp ha with rfl | ha
    · have hb := (List.mem_cons.mp hb).resolve_left hne.symm
      exact .inl (.cons_cons _ (List.singleton_sublist.mpr hb))
    rcases List.mem_cons.mp hb with hbx | hb
    · exact .inr (hbx ▸ .cons_cons _ (List.singleton_sublist.mpr ha))
    · exact (ih ha hb).imp (·.cons _) (·.cons _)

/-- Where nothing comes twice, not both are. -/
theorem not_sublist_swap (hxs : xs.Nodup) (hab : [a, b].Sublist xs) : ¬[b, a].Sublist xs := by
  induction xs with
  | nil => cases hab
  | cons x xs ih =>
    obtain ⟨hx, hxs⟩ := List.nodup_cons.mp hxs
    intro hba
    cases hab with
    | cons _ hab =>
      cases hba with
      | cons _ hba => exact ih hxs hab hba
      | cons_cons _ _ => exact hx (hab.subset (by simp))
    | cons_cons _ hb =>
      cases hba with
      | cons _ hba => exact hx (hba.subset (by simp))
      | cons_cons _ _ => exact hx (List.singleton_sublist.mp hb)

/-- In a list in the order of `R`, which of two members is first is what `R` says. -/
theorem sublist_iff_of_pairwise {R : α → α → Prop} (hxs : xs.Pairwise R)
    (hasymm : ∀ x y, R x y → ¬R y x) (ha : a ∈ xs) (hb : b ∈ xs) :
    [a, b].Sublist xs ↔ R a b := by
  constructor
  · intro hab
    exact List.pairwise_iff_forall_sublist.mp hxs hab
  · intro hab
    have hne : a ≠ b := by
      rintro rfl
      exact hasymm a a hab hab
    refine (sublist_or_sublist ha hb hne).resolve_right fun hba => ?_
    exact hasymm a b hab (List.pairwise_iff_forall_sublist.mp hxs hba)

theorem le_key_trans (key : α → Nat) (x y z : α) (hxy : decide (key x ≤ key y) = true)
    (hyz : decide (key y ≤ key z) = true) : decide (key x ≤ key z) = true := by
  simp only [decide_eq_true_eq] at hxy hyz ⊢
  exact Nat.le_trans hxy hyz

theorem le_key_total (key : α → Nat) (x y : α) :
    (decide (key x ≤ key y) || decide (key y ≤ key x)) = true := by
  simpa using Nat.le_total (key x) (key y)

/-- A sort by a key puts a list in the order of the key. -/
theorem pairwise_le_mergeSort (key : α → Nat) (xs : List α) :
    (xs.mergeSort fun x y => key x ≤ key y).Pairwise fun x y => key x ≤ key y :=
  (List.pairwise_mergeSort (le_key_trans key) (le_key_total key) xs).imp fun h =>
    of_decide_eq_true h

/-- A stable sort by a key puts a list in the order of the key, and what has one key in the
order it was in. -/
theorem pairwise_mergeSort {key order : α → Nat} (hxs : xs.Pairwise fun x y => order x < order y) :
    (xs.mergeSort fun x y => key x ≤ key y).Pairwise
      fun x y => key x < key y ∨ key x = key y ∧ order x < order y := by
  have hperm := List.mergeSort_perm xs fun x y => key x ≤ key y
  have hnodup : xs.Nodup := hxs.imp fun {x y} hlt => by
    rintro rfl
    exact Nat.lt_irrefl (order x) hlt
  refine List.pairwise_iff_forall_sublist.mpr fun {x y} hxy => ?_
  have hle : key x ≤ key y :=
    List.pairwise_iff_forall_sublist.mp (pairwise_le_mergeSort key xs) hxy
  rcases Nat.lt_or_eq_of_le hle with hlt | heq
  · exact .inl hlt
  -- Were they the other way round before, the sort would have left them so.
  have hsorted := hperm.nodup_iff.mpr hnodup
  have hne : x ≠ y := by
    rintro rfl
    exact not_sublist_swap hsorted hxy hxy
  have hmem : ∀ z ∈ [x, y], z ∈ xs := fun z hz => hperm.mem_iff.mp (hxy.subset hz)
  refine .inr ⟨heq, List.pairwise_iff_forall_sublist.mp hxs ?_⟩
  refine (sublist_or_sublist (hmem x (by simp)) (hmem y (by simp)) hne).resolve_right fun hyx => ?_
  have hle' : decide (key y ≤ key x) = true := decide_eq_true (Nat.le_of_eq heq.symm)
  have hkept := List.pair_sublist_mergeSort (le_key_trans key) (le_key_total key) hle' hyx
  exact not_sublist_swap hsorted hxy hkept

end Pairs

/-! ### What extends leave alone -/

section Kept

variable {α : Type} {key : Fragment → α}

/-- What is no matter of the selectors and the remembered positions. -/
structure Unlinked (key : Fragment → α) : Prop where
  selectors : ∀ f selectors, key { f with selectors } = key f
  deps : ∀ f deps, key { f with deps } = key f

theorem Unlinked.foldl_addDep (hkey : Unlinked key) (ns : List Nat) (f : Fragment) :
    key (ns.foldl Fragment.addDep f) = key f := by
  rw [foldl_addDep_eq]
  exact hkey.deps f _

theorem map_update {change : Fragment → Fragment} (hchange : ∀ f, key (change f) = key f)
    (p : Parts) (ids : List Nat) :
    (p.update ids change).fragments.map key = p.fragments.map key := by
  rw [Parts.update, List.map_map]
  refine List.map_congr_left fun f _ => ?_
  dsimp only [Function.comp_apply]
  split_ifs
  · exact hchange f
  · rfl

theorem map_recordDeps (hkey : Unlinked key) (p : Parts) (ids members : List Nat) :
    (p.recordDeps ids members).fragments.map key = p.fragments.map key :=
  map_update (fun f => hkey.foldl_addDep _ f) p ids

theorem map_linkPart (hkey : Unlinked key) (parent : Text) (children : List Text)
    (members : List Nat) (l : Linked) (k : Text) :
    (Parts.linkPart parent children members l k).parts.fragments.map key =
      l.parts.fragments.map key := by
  rcases Parts.linkPart_cases parent children members l k with
    ⟨heq, -⟩ | ⟨ids, -, -, ⟨-, heq⟩ | heq⟩
  · rw [heq]
  · rw [heq]
    exact map_recordDeps hkey _ _ _
  · rw [heq]
    exact (map_recordDeps hkey _ _ _).trans (map_update (fun f => hkey.selectors f _) l.parts ids)

theorem map_linkAll (hkey : Unlinked key) (p : Parts) (rs : List Request) :
    (linkAll p rs).1.fragments.map key = p.fragments.map key := by
  induction rs generalizing p with
  | nil => rfl
  | cons r rs ih =>
    have hlink : (p.link r).parts.fragments.map key = p.fragments.map key := by
      unfold Parts.link
      refine List.foldlRecOn (motive := fun l : Linked =>
        l.parts.fragments.map key = p.fragments.map key) _ _ rfl fun l hl k _ => ?_
      exact (map_linkPart hkey _ _ _ l k).trans hl
    exact (ih _).trans hlink

theorem map_settle (hkey : Unlinked key) (rs : List Request) (n : Nat) (p : Parts) :
    (settle rs n p).1.fragments.map key = p.fragments.map key := by
  induction n generalizing p with
  | zero => rfl
  | succ n ih =>
    rw [settle_succ]
    split_ifs
    · exact (ih _).trans (map_linkAll hkey p rs)
    · exact map_linkAll hkey p rs

/-- Resolving extends changes nothing but selectors and remembered positions. -/
theorem map_resolveExtends (hkey : Unlinked key) (fs : List Fragment) :
    (resolveExtends fs).1.map key = fs.map key := by
  have hsettle := map_settle hkey (requests fs) maxRounds (Parts.ofFragments fs)
  rwa [Parts.fragments_ofFragments] at hsettle

end Kept

/-! ### Ranks -/

/-- Where a fragment is ranked: at the first that extends it, or else right after where it
stands. -/
def Fragment.front (f : Fragment) : Nat := least (f.position + 1) f.deps

theorem lt_least_iff {k n : Nat} {ns : List Nat} : k < least n ns ↔ k < n ∧ ∀ m ∈ ns, k < m := by
  induction ns generalizing n with
  | nil => simp [least]
  | cons m ns ih => exact ih.trans (by simp [and_assoc])

theorem least_le_of_mem {n m : Nat} {ns : List Nat} (hm : m ∈ ns) : least n ns ≤ m := by
  by_contra hlt
  exact Nat.lt_irrefl m ((lt_least_iff.mp (Nat.lt_of_not_le hlt)).2 m hm)

theorem least_mem (n : Nat) (ns : List Nat) : least n ns = n ∨ least n ns ∈ ns := by
  induction ns generalizing n with
  | nil => exact .inl rfl
  | cons m ns ih =>
    rcases ih (min n m) with heq | hmem
    · rcases Nat.le_total n m with hle | hle
      · exact .inl (heq.trans (Nat.min_eq_left hle))
      · exact .inr (List.mem_cons.mpr (.inl (heq.trans (Nat.min_eq_right hle))))
    · exact .inr (List.mem_cons_of_mem m hmem)

theorem Fragment.front_le {f : Fragment} {d : Nat} (hd : d ∈ f.deps) : f.front ≤ d :=
  least_le_of_mem hd

theorem Fragment.rank_position (f : Fragment) : f.rank.position = f.front := by
  change least (f.position + 1) (insertNat (f.position + 1) f.deps) = least (f.position + 1) f.deps
  -- The place after its own is counted already.
  refine eq_of_forall_lt_iff fun k => ?_
  simp only [lt_least_iff, mem_insertNat, forall_eq_or_imp]
  tauto

/-- The order of the output: by rank, and then as encountered. -/
def Fragment.Ahead (f g : Fragment) : Prop :=
  f.front < g.front ∨ f.front = g.front ∧ f.order < g.order

theorem Fragment.Ahead.asymm {f g : Fragment} (h : f.Ahead g) : ¬g.Ahead f := by
  unfold Fragment.Ahead at *
  omega

/-! ### The output -/

section Output

variable {fs : List Fragment} {f g : Fragment}

/-- The fragments in the order of the output, before they are ranked. -/
def sequence (fs : List Fragment) : List Fragment :=
  (fs.mergeSort fun f g => f.order ≤ g.order).mergeSort fun f g => f.front ≤ g.front

/-- It is no matter whether the fragments know their ranks when they are sorted by them. -/
theorem orderFragments_eq_map_rank (fs : List Fragment) :
    orderFragments fs = (sequence fs).map Fragment.rank := by
  refine (List.map_mergeSort fun f _ g _ => ?_).symm
  rw [f.rank_position, g.rank_position]

theorem sequence_perm (fs : List Fragment) : (sequence fs).Perm fs :=
  (List.mergeSort_perm _ _).trans (List.mergeSort_perm _ _)

/-- Fragments encountered one after another are in the order of the output. -/
theorem pairwise_orderFragments (horder : (fs.map (·.order)).Nodup) :
    ∃ gs : List Fragment, orderFragments fs = gs.map Fragment.rank ∧ gs.Perm fs ∧
      gs.Pairwise Fragment.Ahead := by
  have hencountered : (fs.mergeSort fun f g => f.order ≤ g.order).Pairwise
      fun f g => f.order < g.order := by
    have hperm := List.mergeSort_perm fs fun f g => f.order ≤ g.order
    have hsorted := pairwise_le_mergeSort (fun f : Fragment => f.order) fs
    have hne := List.pairwise_map.mp ((hperm.map (·.order)).nodup_iff.mpr horder)
    exact (hsorted.and hne).imp fun h => Nat.lt_of_le_of_ne h.1 h.2
  exact ⟨sequence fs, orderFragments_eq_map_rank fs, sequence_perm fs,
    pairwise_mergeSort hencountered⟩

/-- One fragment is first in the output exactly if it is ranked before the other, or with it
and was encountered before. -/
theorem sublist_orderFragments_iff (horder : (fs.map (·.order)).Nodup) (hf : f ∈ fs)
    (hg : g ∈ fs) : [f.rank, g.rank].Sublist (orderFragments fs) ↔ f.Ahead g := by
  obtain ⟨gs, heq, hperm, hsorted⟩ := pairwise_orderFragments horder
  have hf' := hperm.mem_iff.mpr hf
  have hg' := hperm.mem_iff.mpr hg
  -- In a sorted list, what is before is what is smaller.
  rw [heq, ← sublist_iff_of_pairwise hsorted (fun _ _ h => h.asymm) hf' hg']
  constructor
  · intro h
    obtain ⟨found, hfound, hmap⟩ := List.sublist_map_iff.mp h
    obtain ⟨f', g', rfl⟩ : ∃ f' g', found = [f', g'] := by
      rw [← List.length_eq_two, ← List.length_map, ← hmap]
      rfl
    -- A rank leaves the place where a fragment was encountered, by which it is known.
    have hknown {d e : Fragment} (hd : d ∈ fs) (he : e ∈ fs) (hrank : d.rank = e.rank) : d = e :=
      List.inj_on_of_nodup_map horder hd he (congrArg Fragment.order hrank :)
    simp only [List.map_cons, List.map_nil, List.cons.injEq, and_true] at hmap
    have hmem : ∀ e ∈ [f', g'], e ∈ fs := fun e he => hperm.mem_iff.mp (hfound.subset he)
    rw [hknown hf (hmem f' (by simp)) hmap.1, hknown hg (hmem g' (by simp)) hmap.2]
    exact hfound
  · intro h
    exact h.map Fragment.rank

/-- Fragment `g` is drawn ahead of `f`: a fragment that extends it stands before where `f`
is ranked, or there, and `g` was encountered first. -/
def Overtakes (g f : Fragment) : Prop :=
  ∃ d ∈ g.deps, d < f.front ∨ d = f.front ∧ g.order < f.order

/-- Of a fragment and one that extends it, the first is ahead unless it is overtaken. -/
theorem ahead_iff_not_overtakes (hfg : g.position ∈ f.deps) (hne : f.order ≠ g.order) :
    f.Ahead g ↔ ¬Overtakes g f := by
  have hfront : f.front ≤ g.position := Fragment.front_le hfg
  constructor
  · rintro hahead ⟨d, hd, hlt⟩
    have hle : g.front ≤ d := Fragment.front_le hd
    unfold Fragment.Ahead at hahead
    omega
  · intro hnot
    by_contra hahead
    refine hnot ?_
    rcases least_mem (g.position + 1) g.deps with heq | hmem
    · -- ranked right after its own place, it is behind one ranked at that place at most
      change g.front = _ at heq
      unfold Fragment.Ahead at hahead
      omega
    · refine ⟨g.front, hmem, ?_⟩
      unfold Fragment.Ahead at hahead
      omega

/-- Where a fragment is ranked before another, it is first. -/
theorem sublist_sequence (hf : f ∈ fs) (hg : g ∈ fs) (hlt : f.front < g.front) :
    [f, g].Sublist (sequence fs) := by
  have hmem {e : Fragment} (he : e ∈ fs) : e ∈ sequence fs := (sequence_perm fs).mem_iff.mpr he
  have hne : f ≠ g := by
    rintro rfl
    exact Nat.lt_irrefl f.front hlt
  refine (sublist_or_sublist (hmem hf) (hmem hg) hne).resolve_right fun hgf => ?_
  have hle := List.pairwise_iff_forall_sublist.mp (pairwise_le_mergeSort Fragment.front _) hgf
  exact Nat.not_lt_of_le hle hlt

/-- What nothing extends is ranked right after where it stands. -/
theorem Fragment.front_of_deps_eq_nil (h : f.deps = []) : f.front = f.position + 1 := by
  rw [Fragment.front, h]
  rfl

theorem Fragment.front_le_succ (f : Fragment) : f.front ≤ f.position + 1 := by
  by_contra hlt
  exact Nat.lt_irrefl _ (lt_least_iff.mp (Nat.lt_of_not_le hlt)).1

end Output

/-! ### Arenas -/

/-- Of any arena, the output has each fragment that has a position once, and nothing else.
Until it is ranked, the position of a fragment is where it was encountered. One that nothing
extends stays behind all that were encountered before it, and so where nothing is extended
all fragments stay as they were encountered. Ranking a fragment leaves the rest of it as it
was, so what is written is what was encountered. -/
theorem orderFragments_moves_upward {arena : List (Pending ⊕ Fragment)}
    (hplaces : ((positioned arena).map (·.position)).Nodup) :
    (∃ gs : List Fragment, orderFragments (positioned arena) = gs.map Fragment.rank ∧
      gs.Perm (positioned arena) ∧ gs.Nodup ∧
        (∀ f ∈ positioned arena, ∀ g ∈ positioned arena,
          f.position < g.position → g.deps = [] → [f, g].Sublist gs) ∧
        ((∀ f ∈ positioned arena, f.deps = []) →
          gs.Pairwise fun f g => f.position < g.position)) ∧
      (∀ f : Fragment, f.rank = { f with position := f.rank.position, deps := f.rank.deps }) ∧
        ∀ f ∈ positioned arena, ∀ g ∈ positioned arena, f.position < g.position → g.deps = [] →
          [f.rank, g.rank].Sublist (orderFragments (positioned arena)) := by
  generalize positioned arena = fs at *
  have hperm := sequence_perm fs
  have hbehind : ∀ f ∈ fs, ∀ g ∈ fs, f.position < g.position → g.deps = [] →
      [f, g].Sublist (sequence fs) := by
    intro f hf g hg hlt hdeps
    -- Without dependencies `g` has its own place, and a fragment is never behind the place it had.
    refine sublist_sequence hf hg ?_
    rw [Fragment.front_of_deps_eq_nil hdeps]
    exact Nat.lt_of_le_of_lt f.front_le_succ (Nat.succ_lt_succ hlt)
  refine ⟨⟨sequence fs, orderFragments_eq_map_rank fs, hperm, ?_, hbehind, ?_⟩, fun _ => rfl, ?_⟩
  · exact hperm.nodup_iff.mpr hplaces.of_map
  · intro hnone
    have hplace : ∀ f ∈ sequence fs, f.front = f.position + 1 := fun f hf =>
      Fragment.front_of_deps_eq_nil (hnone f (hperm.mem_iff.mp hf))
    have hsorted : (sequence fs).Pairwise fun f g => f.front ≤ g.front :=
      pairwise_le_mergeSort Fragment.front _
    -- The sort leaves equal fronts in place, but no two fragments have the same place.
    have hdistinct := List.pairwise_map.mp ((hperm.map (·.position)).nodup_iff.mpr hplaces)
    refine (hsorted.and hdistinct).imp_of_mem fun {f g} hf hg h => ?_
    have hle := h.1
    rw [hplace f hf, hplace g hg] at hle
    exact Nat.lt_of_le_of_ne (Nat.le_of_succ_le_succ hle) h.2
  · intro f hf g hg hlt hdeps
    rw [orderFragments_eq_map_rank]
    exact (hbehind f hf g hg hlt hdeps).map Fragment.rank

/-- A root, a rule, one that was never expanded, and one that the first rule extends. -/
def waitingArena : List (Pending ⊕ Fragment) :=
  [.inr { id := 0 }, .inr { id := 1, position := 1, order := 1 }, .inl { id := 2 },
    .inr { id := 3, position := 2, order := 2, deps := [1] }]

/-- The root stays ahead of the rule that nothing extends. -/
theorem waitingArena_moves_upward :
    ((positioned waitingArena).map (·.position)).Nodup ∧
      ∃ gs : List Fragment, orderFragments (positioned waitingArena) = gs.map Fragment.rank ∧
        gs.Perm (positioned waitingArena) ∧
          [({ id := 0 } : Fragment), { id := 1, position := 1, order := 1 }].Sublist gs := by
  have hplaces : ((positioned waitingArena).map (·.position)).Nodup := by decide
  obtain ⟨⟨gs, heq, hperm, -, hahead, -⟩, -⟩ := orderFragments_moves_upward hplaces
  refine ⟨hplaces, gs, heq, hperm, hahead _ ?_ _ ?_ ?_ rfl⟩
  · decide
  · decide
  · decide

/-! ### A whole run -/

/-- The fragments of a stylesheet as they are when their extends are resolved. -/
def linkedFragments (fragments : List Fragment) : List Fragment :=
  (resolveExtends (fragments.mergeSort fun f g => f.id ≤ g.id)).1

section Run

variable {fuel : Nat} {opts : Options} {source : Text} {fragments : List Fragment} {s : Session}

/-- Resolved or not, no two fragments were encountered at one place, and a fragment that was
not moved yet is where it was encountered. -/
theorem order_linkedFragments
    (h : outcome (expandSource fuel opts source) opts.session = (.ok fragments, s)) :
    ((linkedFragments fragments).map (·.order)).Nodup ∧
      ∀ f ∈ linkedFragments fragments, f.order = f.position := by
  obtain ⟨log, hwalk, rfl⟩ := exists_walk_of_expandSource h
  -- Extending and sorting change neither the order nor the position of a fragment.
  have hperm := List.mergeSort_perm (log.map (·.1)) fun f g => f.id ≤ g.id
  have hplaces : ((linkedFragments (log.map (·.1))).map fun f => (f.order, f.position)).Perm
      (log.map fun e => (e.1.order, e.1.position)) := by
    rw [linkedFragments, map_resolveExtends ⟨fun _ _ => rfl, fun _ _ => rfl⟩]
    simpa [Function.comp_def] using hperm.map fun f => (f.order, f.position)
  constructor
  · have horders := hplaces.map Prod.fst
    simp only [List.map_map, Function.comp_def] at horders
    rw [horders.nodup_iff, List.map_congr_left hwalk.order_eq, hwalk.positions]
    exact List.nodup_range'
  · intro f hf
    obtain ⟨e, he, heq⟩ := List.mem_map.mp (hplaces.subset (List.mem_map_of_mem hf))
    obtain ⟨horder, hposition⟩ := Prod.mk.inj heq
    exact horder.symm.trans ((hwalk.order_eq e he).trans hposition)

/-- A fragment comes ahead of one that extends it, and that it does not extend, exactly if
it is not overtaken by it; in particular if nothing that extends the other stands before
it. -/
theorem extended_ahead_iff
    (h : outcome (expandSource fuel opts source) opts.session = (.ok fragments, s))
    {f g : Fragment} (hf : f ∈ linkedFragments fragments) (hg : g ∈ linkedFragments fragments)
    (hfg : g.position ∈ f.deps) (hgf : f.position ∉ g.deps) :
    ([f.rank, g.rank].Sublist (orderFragments (linkedFragments fragments)) ↔ ¬Overtakes g f) ∧
      ((∀ d ∈ g.deps, g.position < d) →
        [f.rank, g.rank].Sublist (orderFragments (linkedFragments fragments))) := by
  obtain ⟨hnodup, hplace⟩ := order_linkedFragments h
  have hne : f.order ≠ g.order := by
    intro heq
    rw [List.inj_on_of_nodup_map hnodup hf hg heq] at hfg hgf
    exact hgf hfg
  have hiff : [f.rank, g.rank].Sublist (orderFragments (linkedFragments fragments)) ↔
      ¬Overtakes g f :=
    (sublist_orderFragments_iff hnodup hf hg).trans (ahead_iff_not_overtakes hfg hne)
  refine ⟨hiff, fun hlater => hiff.mpr ?_⟩
  rintro ⟨d, hd, hle⟩
  have hfront : f.front ≤ g.position := Fragment.front_le hfg
  have hlt := hlater d hd
  omega

end Run

/-- A rule that extends a second one, which extends a third. -/
def chainSheet : Text :=
  of ".c { @extend .b; x: c; } .b { @extend .a; x: b; } .a { x: a; }"

/-- Its fragments, numbered and placed as they are written. The second rule is extended by
the first, and the third by both. -/
def chainFragments : List Fragment :=
  [{ id := 0, selectors := [[]] },
    { id := 1, selectors := [of ".c"], parents := [of ".b"],
      properties := [⟨of "x", some (of "c")⟩], position := 1, order := 1 },
    { id := 2, selectors := [of ".b", of ".c"], parents := [of ".a"],
      properties := [⟨of "x", some (of "b")⟩], position := 2, order := 2, deps := [1] },
    { id := 3, selectors := [of ".a", of ".b", of ".c"],
      properties := [⟨of "x", some (of "a")⟩], position := 3, order := 3, deps := [1, 2] }]

set_option maxRecDepth 4000 in
theorem chainSheet_linked :
    ∃ fragments s,
      outcome (expandSource 8 {} chainSheet) (Options.session {}) = (.ok fragments, s) ∧
        (extendGraph (fragments.mergeSort fun f g => f.id ≤ g.id)).findCycle? = none ∧
        linkedFragments fragments = chainFragments := by
  let start (f : Fragment) : Fragment := { f with selectors := f.selectors.take 1, deps := [] }
  have hexpand : (outcome (expandSource 8 {} chainSheet) (Options.session {})).1.toOption =
      some (chainFragments.map start) := by decide +kernel
  have hsorted : (chainFragments.map start).mergeSort (fun f g => f.id ≤ g.id) =
      chainFragments.map start := List.mergeSort_of_pairwise (by decide)
  rcases hout : outcome (expandSource 8 {} chainSheet) (Options.session {}) with ⟨r, s⟩
  rw [hout] at hexpand
  cases r with
  | error e => cases hexpand
  | ok fragments =>
    obtain rfl : fragments = chainFragments.map start := Option.some.inj hexpand
    refine ⟨_, s, rfl, ?_, ?_⟩
    · rw [hsorted]
      decide
    · rw [linkedFragments, hsorted]
      cbv

/-- The third rule is not overtaken by the first, which nothing extends. -/
theorem chainSheet_ahead :
    ∃ fragments s,
      outcome (expandSource 8 {} chainSheet) (Options.session {}) = (.ok fragments, s) ∧
        ∃ f ∈ linkedFragments fragments, ∃ g ∈ linkedFragments fragments,
          g.position ∈ f.deps ∧ f.position ∉ g.deps ∧ ¬Overtakes g f ∧
            [f.rank, g.rank].Sublist (orderFragments (linkedFragments fragments)) := by
  obtain ⟨fragments, s, h, -, hlinked⟩ := chainSheet_linked
  have hf : chainFragments[3] ∈ linkedFragments fragments := by simp [hlinked, chainFragments]
  have hg : chainFragments[1] ∈ linkedFragments fragments := by simp [hlinked, chainFragments]
  obtain ⟨hiff, hahead⟩ := extended_ahead_iff h hf hg (by decide) (by decide)
  have hsublist := hahead (by simp [chainFragments])
  exact ⟨fragments, s, h, _, hf, _, hg, by decide, by decide, hiff.mp hsublist, hsublist⟩

/-- No rule of the sheet extends itself by way of others, and yet the third, which the second
extends, comes after the second: both are ranked where the first is. -/
theorem chainSheet_overtaken :
    ∃ fragments s,
      outcome (expandSource 8 {} chainSheet) (Options.session {}) = (.ok fragments, s) ∧
        (extendGraph (fragments.mergeSort fun f g => f.id ≤ g.id)).findCycle? = none ∧
        ∃ f ∈ linkedFragments fragments, ∃ g ∈ linkedFragments fragments,
          g.position ∈ f.deps ∧ f.position ∉ g.deps ∧
            ¬[f.rank, g.rank].Sublist (orderFragments (linkedFragments fragments)) := by
  obtain ⟨fragments, s, h, hacyclic, hlinked⟩ := chainSheet_linked
  have hf : chainFragments[3] ∈ linkedFragments fragments := by simp [hlinked, chainFragments]
  have hg : chainFragments[2] ∈ linkedFragments fragments := by simp [hlinked, chainFragments]
  refine ⟨fragments, s, h, hacyclic, _, hf, _, hg, by decide, by decide, ?_⟩
  rw [sublist_orderFragments_iff (order_linkedFragments h).1 hf hg]
  unfold Fragment.Ahead
  decide

end Stylesheet
