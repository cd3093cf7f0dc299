import Stylesheet.Proofs.Compile.Spawning
import Mathlib.Data.List.Nodup
import Mathlib.Logic.Relation

/-!
# Fragments in preorder

Fragments wait in a list that is taken from at the front, and the children of a fragment
are put before the rest. The tree they form is discovered on the way: a fragment is below
the one that spawned it, next to those spawned by the same one. This file shows that the
fragments come out in the preorder of that tree, so that their positions say which of two
is first in it.

What spawned what is kept in a log of the run. The log reads off the tree, with no regard
to the list of waiting fragments: a fragment precedes those below it, and of two siblings
the one spawned first precedes, with everything below it, the other with everything below
that.

## Main definitions

* `Walk` — a run through the waiting fragments, with the log it leaves
* `SpawnLog.Precedes` — the preorder of the tree that a log describes
* `SpawnLog.IsPreorder` — a log in that order, with positions counted along it
* `Forest` — logs that go through one tree after another

## Main results

* `Walk.forest` — a run goes through the trees of the waiting fragments in turn
* `Forest.precedes_iff` — a log of that form is in preorder
* `positions_isPreorder` — the fragments of a stylesheet are in preorder
-/

namespace Stylesheet

open Text Relation

/-- Fragments in the order they were expanded, each with those it spawned in the order
they were spawned. -/
abbrev SpawnLog := List (Fragment × List Pending)

/-- A run through the waiting fragments `queue`, the first expanded as number `order`. -/
inductive Walk (en : Engine) : Nat → Session → List Pending → SpawnLog → Session → Prop
  | done {order : Nat} {s : Session} : Walk en order s [] [] s
  | step {order : Nat} {s s₁ s' : Session} {p : Pending} {queue children : List Pending}
      {f : Fragment} {log : SpawnLog}
      (hexpand : outcome (expandPending en order p) s = (.ok (f, children), s₁))
      (hrest : Walk en (order + 1) s₁ (children ++ queue) log s') :
      Walk en order s (p :: queue) ((f, children) :: log) s'

/-! ### The tree of a log -/

namespace SpawnLog

/-- The numbers of the fragments. -/
def ids (log : SpawnLog) : List Nat := log.map (·.1.id)

/-- All fragments spawned. -/
def spawned (log : SpawnLog) : List Pending := log.flatMap (·.2)

/-- Fragment `a` spawned fragment `b`. -/
def Spawns (log : SpawnLog) (a b : Nat) : Prop := ∃ e ∈ log, e.1.id = a ∧ b ∈ e.2.map (·.id)

/-- Fragment `b` is fragment `a`, or below it. -/
def Descends (log : SpawnLog) : Nat → Nat → Prop := ReflTransGen log.Spawns

/-- Fragment `a` was spawned before `b` by the same fragment. -/
def Older (log : SpawnLog) (a b : Nat) : Prop := ∃ e ∈ log, [a, b].Sublist (e.2.map (·.id))

/-- The preorder of the tree: `b` is below `a`, or somewhere above both there are two
siblings of which that of `a` is the older. -/
def Precedes (log : SpawnLog) (a b : Nat) : Prop :=
  TransGen log.Spawns a b ∨ ∃ x y, log.Older x y ∧ log.Descends x a ∧ log.Descends y b

/-- The log of a run that numbered `n` fragments, the root first, is in preorder. -/
structure IsPreorder (log : SpawnLog) (n : Nat) : Prop where
  /-- The root comes first. -/
  root : log.ids.head? = some 0
  /-- Every number that was given belongs to one fragment of the log. -/
  ids : log.ids.Perm (List.range n)
  /-- Every fragment but the root was spawned once, and was numbered when it was. -/
  spawned : Numbered 1 log.spawned n
  /-- Positions count up along the log. -/
  positions : log.map (·.1.position) = List.range n
  /-- A fragment starts at the place it was encountered. -/
  order : ∀ e ∈ log, e.1.order = e.1.position
  /-- Positions say which fragment is first in the tree. -/
  precedes : ∀ e ∈ log, ∀ e' ∈ log,
    e.1.position < e'.1.position ↔ log.Precedes e.1.id e'.1.id

variable {log log' : SpawnLog} {a b : Nat}

theorem Spawns.mono (h : log.Spawns a b) (hlog : log ⊆ log') : log'.Spawns a b := by
  obtain ⟨e, he, hab⟩ := h
  exact ⟨e, hlog he, hab⟩

theorem Descends.mono (h : log.Descends a b) (hlog : log ⊆ log') : log'.Descends a b :=
  ReflTransGen.mono (fun _ _ h => h.mono hlog) _ _ h

theorem Spawns.transGen_mono (h : TransGen log.Spawns a b) (hlog : log ⊆ log') :
    TransGen log'.Spawns a b :=
  TransGen.mono (fun _ _ h => h.mono hlog) _ _ h

theorem Spawns.mem_ids (h : log.Spawns a b) : a ∈ log.ids := by
  obtain ⟨e, he, rfl, -⟩ := h
  exact List.mem_map_of_mem he

theorem ids_cons_append (f : Fragment) (children : List Pending) (below rest : SpawnLog) :
    ids ((f, children) :: (below ++ rest)) = f.id :: (below.ids ++ rest.ids) :=
  congrArg (f.id :: ·) List.map_append

theorem spawned_cons_append (f : Fragment) (children : List Pending) (below rest : SpawnLog) :
    spawned ((f, children) :: (below ++ rest)) = children ++ (below.spawned ++ rest.spawned) :=
  congrArg (children ++ ·) List.flatMap_append

/-- A part of a log that has the fragments it names to itself. -/
def Owns (log part : SpawnLog) : Prop := ∀ e ∈ log, e.1.id ∈ part.ids → e ∈ part

/-- Where every fragment comes once, the trees below the first root and those after it have
their fragments to themselves, and the root has spawned its children and nothing else. -/
theorem owns_of_nodup {f : Fragment} {children : List Pending} {below rest : SpawnLog}
    (h : (ids ((f, children) :: (below ++ rest))).Nodup) :
    Owns ((f, children) :: (below ++ rest)) below ∧
      Owns ((f, children) :: (below ++ rest)) rest ∧
      ∀ c, Spawns ((f, children) :: (below ++ rest)) f.id c → c ∈ children.map (·.id) := by
  rw [ids_cons_append, List.nodup_cons, List.nodup_append'] at h
  obtain ⟨hroot, -, -, hdisjoint⟩ := h
  refine ⟨fun e he hid => ?_, fun e he hid => ?_, fun c hc => ?_⟩
  · rcases List.mem_cons.mp he with rfl | he
    · exact absurd (List.mem_append_left _ hid) hroot
    · exact (List.mem_append.mp he).resolve_right fun he =>
        hdisjoint hid (List.mem_map_of_mem he)
  · rcases List.mem_cons.mp he with rfl | he
    · exact absurd (List.mem_append_right _ hid) hroot
    · exact (List.mem_append.mp he).resolve_left fun he =>
        hdisjoint (List.mem_map_of_mem he) hid
  · obtain ⟨e, he, hid, hc⟩ := hc
    rcases List.mem_cons.mp he with rfl | he
    · exact hc
    · refine absurd ?_ hroot
      rw [← hid, ids, ids, ← List.map_append]
      exact List.mem_map_of_mem he

end SpawnLog

open SpawnLog

/-! ### Logs of forests -/

/-- A log that goes through one tree after another, those whose roots are given: a root,
then the trees of its children, then the trees of the other roots. -/
inductive Forest : List Nat → SpawnLog → Prop
  | nil : Forest [] []
  | cons {f : Fragment} {children : List Pending} {roots : List Nat} {below rest : SpawnLog}
      (hbelow : Forest (children.map (·.id)) below) (hrest : Forest roots rest) :
      Forest (f.id :: roots) ((f, children) :: (below ++ rest))

/-- The preorder of a forest, whose roots are siblings. -/
def Forest.Precedes (roots : List Nat) (log : SpawnLog) (a b : Nat) : Prop :=
  TransGen log.Spawns a b ∨
    ∃ x y, (log.Older x y ∨ [x, y].Sublist roots) ∧ log.Descends x a ∧ log.Descends y b

namespace Forest

variable {roots roots' : List Nat} {log : SpawnLog} {a b : Nat}

/-- A single root has no siblings. -/
theorem precedes_singleton (r : Nat) : Forest.Precedes [r] log a b ↔ log.Precedes a b := by
  have hnone (x y : Nat) : ¬[x, y].Sublist [r] := fun h => by simpa using h.length_le
  simp only [Forest.Precedes, SpawnLog.Precedes, hnone, or_false]

/-- A forest splits where its roots do. -/
theorem split (h : Forest (roots ++ roots') log) :
    ∃ first second, log = first ++ second ∧ Forest roots first ∧ Forest roots' second := by
  induction roots generalizing log with
  | nil => exact ⟨[], log, rfl, .nil, h⟩
  | cons r roots ih =>
    cases h with
    | @cons f children _ below rest hbelow hrest =>
      obtain ⟨first, second, rfl, hfirst, hsecond⟩ := ih hrest
      exact ⟨(f, children) :: (below ++ first), second, by simp, .cons hbelow hfirst, hsecond⟩

/-- The fragments of a log are the roots and the fragments spawned. -/
theorem ids_perm (h : Forest roots log) : log.ids.Perm (roots ++ log.spawned.map (·.id)) := by
  induction h with
  | nil => exact .nil
  | @cons f children roots below rest hbelow hrest ihbelow ihrest =>
    -- The children are the roots below `f` and are spawned by it.
    rw [ids_cons_append, spawned_cons_append, List.cons_append, List.perm_cons]
    refine (ihbelow.append ihrest).trans (List.perm_iff_count.mpr fun x => ?_)
    simp only [List.count_append, List.map_append]
    omega

theorem mem_ids_of_mem_roots (h : Forest roots log) (ha : a ∈ roots) : a ∈ log.ids :=
  h.ids_perm.mem_iff.mpr (List.mem_append_left _ ha)

theorem mem_ids_of_spawns (h : Forest roots log) (hab : log.Spawns a b) : b ∈ log.ids := by
  obtain ⟨e, he, -, hb⟩ := hab
  obtain ⟨p, hp, rfl⟩ := List.mem_map.mp hb
  have hp : p ∈ log.spawned := List.mem_flatMap.mpr ⟨e, he, hp⟩
  exact h.ids_perm.mem_iff.mpr (List.mem_append_right _ (List.mem_map_of_mem hp))

/-- Every fragment is below a root. -/
theorem exists_root (h : Forest roots log) (ha : a ∈ log.ids) :
    ∃ r ∈ roots, log.Descends r a := by
  induction h with
  | nil => cases ha
  | @cons f children roots below rest hbelow hrest ihbelow ihrest =>
    rw [ids_cons_append, List.mem_cons, List.mem_append] at ha
    rcases ha with rfl | ha | ha
    · exact ⟨f.id, List.mem_cons_self, .refl⟩
    · obtain ⟨c, hc, hca⟩ := ihbelow ha
      refine ⟨f.id, List.mem_cons_self, .head ⟨(f, children), List.mem_cons_self, rfl, hc⟩ ?_⟩
      exact hca.mono fun e he => by simp [he]
    · obtain ⟨r, hr, hra⟩ := ihrest ha
      exact ⟨r, List.mem_cons_of_mem _ hr, hra.mono fun e he => by simp [he]⟩

/-- Of two fragments of the log the first precedes the second. -/
theorem pairwise_precedes (h : Forest roots log) :
    log.ids.Pairwise (Forest.Precedes roots log) := by
  induction h with
  | nil => exact .nil
  | @cons f children roots below rest hbelow hrest ihbelow ihrest =>
    have hsub : below ⊆ (f, children) :: (below ++ rest) := fun e he => by simp [he]
    have hsub' : rest ⊆ (f, children) :: (below ++ rest) := fun e he => by simp [he]
    have htop : ∀ c ∈ children.map (·.id),
        SpawnLog.Spawns ((f, children) :: (below ++ rest)) f.id c :=
      fun c hc => ⟨(f, children), List.mem_cons_self, rfl, hc⟩
    -- what the root has below it, and what comes after its tree
    have hdown : ∀ a ∈ below.ids,
        TransGen (SpawnLog.Spawns ((f, children) :: (below ++ rest))) f.id a := by
      intro a ha
      obtain ⟨c, hc, hca⟩ := hbelow.exists_root ha
      exact .head' (htop c hc) (hca.mono hsub)
    have hafter : ∀ a, SpawnLog.Descends ((f, children) :: (below ++ rest)) f.id a →
        ∀ b ∈ rest.ids,
          Forest.Precedes (f.id :: roots) ((f, children) :: (below ++ rest)) a b := by
      intro a ha b hb
      obtain ⟨r, hr, hrb⟩ := hrest.exists_root hb
      refine .inr ⟨f.id, r, .inr ?_, ha, hrb.mono hsub'⟩
      exact .cons_cons _ (List.singleton_sublist.mpr hr)
    rw [ids_cons_append, List.pairwise_cons, List.pairwise_append]
    refine ⟨fun b hb => ?_, ihbelow.imp ?_, ihrest.imp ?_, fun a ha b hb => ?_⟩
    · rcases List.mem_append.mp hb with hb | hb
      · exact .inl (hdown b hb)
      · exact hafter f.id .refl b hb
    · rintro a b (hab | ⟨x, y, hxy, hxa, hyb⟩)
      · exact .inl (Spawns.transGen_mono hab hsub)
      · refine .inr ⟨x, y, .inl ?_, hxa.mono hsub, hyb.mono hsub⟩
        rcases hxy with ⟨e, he, hxy⟩ | hxy
        · exact ⟨e, hsub he, hxy⟩
        · exact ⟨(f, children), List.mem_cons_self, hxy⟩
    · rintro a b (hab | ⟨x, y, hxy, hxa, hyb⟩)
      · exact .inl (Spawns.transGen_mono hab hsub')
      · refine .inr ⟨x, y, ?_, hxa.mono hsub', hyb.mono hsub'⟩
        rcases hxy with ⟨e, he, hxy⟩ | hxy
        · exact .inl ⟨e, hsub' he, hxy⟩
        · exact .inr (hxy.cons _)
    · exact hafter a (hdown a ha).to_reflTransGen b hb

/-- A part of a log that has the fragments it names to itself is not left on the way
down. -/
theorem confined {part : SpawnLog} (hpart : Forest roots part) (hown : log.Owns part)
    (ha : a ∈ part.ids) (hab : log.Descends a b) : b ∈ part.ids ∧ part.Descends a b := by
  induction hab with
  | refl => exact ⟨ha, .refl⟩
  | @tail c d _ hcd ih =>
    obtain ⟨e, he, rfl, hd⟩ := hcd
    have hspawns : part.Spawns e.1.id d := ⟨e, hown e he ih.1, rfl, hd⟩
    exact ⟨hpart.mem_ids_of_spawns hspawns, ih.2.tail hspawns⟩

theorem confined_transGen {part : SpawnLog} (hpart : Forest roots part) (hown : log.Owns part)
    (ha : a ∈ part.ids) (hab : TransGen log.Spawns a b) : TransGen part.Spawns a b := by
  obtain ⟨c, ⟨e, he, rfl, hc⟩, hcb⟩ := TransGen.head'_iff.mp hab
  have hspawns : part.Spawns e.1.id c := ⟨e, hown e he ha, rfl, hc⟩
  exact .head' hspawns (hpart.confined hown (hpart.mem_ids_of_spawns hspawns) hcb).2

/-- What is below two siblings of such a part is in the order of the part. -/
theorem precedes_of_siblings {part : SpawnLog} {x y : Nat} (hpart : Forest roots part)
    (hown : log.Owns part) (hxy : part.Older x y ∨ [x, y].Sublist roots)
    (hxa : log.Descends x a) (hyb : log.Descends y b) : Forest.Precedes roots part a b := by
  have hmem : x ∈ part.ids ∧ y ∈ part.ids := by
    rcases hxy with ⟨e, he, hxy⟩ | hxy
    · have hchild : ∀ c ∈ [x, y], c ∈ part.ids := fun c hc =>
        hpart.mem_ids_of_spawns ⟨e, he, rfl, hxy.subset hc⟩
      exact ⟨hchild x (by simp), hchild y (by simp)⟩
    · exact ⟨hpart.mem_ids_of_mem_roots (hxy.subset (by simp)),
        hpart.mem_ids_of_mem_roots (hxy.subset (by simp))⟩
  exact .inr ⟨x, y, hxy, (hpart.confined hown hmem.1 hxa).2, (hpart.confined hown hmem.2 hyb).2⟩

/-- A fragment comes before those it precedes. The induction is on the forest: a descent
that starts below the first root stays there, and one that starts in a later tree stays in
the later trees. -/
theorem sublist_of_precedes (h : Forest roots log) (hnodup : log.ids.Nodup)
    (hab : Forest.Precedes roots log a b) : [a, b].Sublist log.ids := by
  induction h with
  | nil =>
    rcases hab with hab | ⟨x, y, ⟨e, he, -⟩ | hxy, -⟩
    · obtain ⟨c, ⟨e, he, -⟩, -⟩ := TransGen.head'_iff.mp hab
      cases he
    · cases he
    · cases hxy
  | @cons f children roots below rest hbelow hrest ihbelow ihrest =>
    obtain ⟨hown, hown', hroot⟩ := owns_of_nodup hnodup
    rw [ids_cons_append, List.nodup_cons, List.nodup_append] at hnodup
    obtain ⟨-, hnodup, hnodup', -⟩ := hnodup
    have hdown : ∀ c, SpawnLog.Spawns ((f, children) :: (below ++ rest)) f.id c →
        c ∈ below.ids := fun c hc => hbelow.mem_ids_of_mem_roots (hroot c hc)
    rw [ids_cons_append]
    have hinbelow (hab : Forest.Precedes (children.map (·.id)) below a b) :
        [a, b].Sublist (f.id :: (below.ids ++ rest.ids)) :=
      ((ihbelow hnodup hab).trans (List.sublist_append_left _ _)).cons _
    have hinrest (hab : Forest.Precedes roots rest a b) :
        [a, b].Sublist (f.id :: (below.ids ++ rest.ids)) :=
      ((ihrest hnodup' hab).trans (List.sublist_append_right _ _)).cons _
    rcases hab with hab | ⟨x, y, hxy, hxa, hyb⟩
    · -- a descendant of the first root is in its tree, and one of another is in the rest
      obtain ⟨c, hac, hcb⟩ := TransGen.head'_iff.mp hab
      have ha := hac.mem_ids
      rw [ids_cons_append, List.mem_cons, List.mem_append] at ha
      rcases ha with rfl | ha | ha
      · have hb := (hbelow.confined hown (hdown c hac) hcb).1
        exact .cons_cons _ (List.singleton_sublist.mpr (List.mem_append_left _ hb))
      · exact hinbelow (.inl (hbelow.confined_transGen hown ha hab))
      · exact hinrest (.inl (hrest.confined_transGen hown' ha hab))
    rcases hxy with ⟨e, he, hxy⟩ | hxy
    · rcases List.mem_cons.mp he with rfl | he
      · exact hinbelow (hbelow.precedes_of_siblings hown (.inr hxy) hxa hyb)
      rcases List.mem_append.mp he with he | he
      · exact hinbelow (hbelow.precedes_of_siblings hown (.inl ⟨e, he, hxy⟩) hxa hyb)
      · exact hinrest (hrest.precedes_of_siblings hown' (.inl ⟨e, he, hxy⟩) hxa hyb)
    · cases hxy with
      | cons _ hxy => exact hinrest (hrest.precedes_of_siblings hown' (.inr hxy) hxa hyb)
      | cons_cons _ hy =>
        -- the first root and a later one: `a` is that root or below it, `b` in a later tree
        have hy := hrest.mem_ids_of_mem_roots (List.singleton_sublist.mp hy)
        have hb := (hrest.confined hown' hy hyb).1
        rcases ReflTransGen.cases_head hxa with rfl | ⟨c, hac, hca⟩
        · exact .cons_cons _ (List.singleton_sublist.mpr (List.mem_append_right _ hb))
        · have ha := (hbelow.confined hown (hdown c hac) hca).1
          refine .cons _ ?_
          exact (List.singleton_sublist.mpr ha).append (List.singleton_sublist.mpr hb)

/-- Where positions count up along the log of a forest, they say which of two fragments
precedes the other. -/
theorem precedes_iff (h : Forest roots log) (hnodup : log.ids.Nodup)
    (hpositions : log.Pairwise fun e e' => e.1.position < e'.1.position)
    {e e' : Fragment × List Pending} (he : e ∈ log) (he' : e' ∈ log) :
    e.1.position < e'.1.position ↔ Forest.Precedes roots log e.1.id e'.1.id := by
  constructor
  · intro hlt
    obtain ⟨i, hi, rfl⟩ := List.getElem_of_mem he
    obtain ⟨j, hj, rfl⟩ := List.getElem_of_mem he'
    have hij : i < j := by
      by_contra hge
      rcases Nat.lt_or_eq_of_le (Nat.le_of_not_lt hge) with hji | rfl
      · exact Nat.lt_asymm hlt (List.pairwise_iff_getElem.mp hpositions j i hj hi hji)
      · exact Nat.lt_irrefl _ hlt
    have hpairs := List.pairwise_map.mp h.pairwise_precedes
    exact List.pairwise_iff_getElem.mp hpairs i j hi hj hij
  · intro hprecedes
    obtain ⟨found, hfound, hmap⟩ :=
      List.sublist_map_iff.mp (h.sublist_of_precedes hnodup hprecedes)
    obtain ⟨d, d', rfl⟩ : ∃ d d', found = [d, d'] := by
      rw [← List.length_eq_two, ← List.length_map, ← hmap]
      rfl
    have hinj := List.inj_on_of_nodup_map hnodup
    have hmem := hfound.subset
    simp only [List.map_cons, List.cons.injEq] at hmap
    obtain rfl : e = d := hinj he (hmem (by simp)) hmap.1
    obtain rfl : e' = d' := hinj he' (hmem (by simp)) hmap.2.1
    exact List.rel_of_pairwise_cons (hpositions.sublist hfound) (List.mem_singleton_self _)

end Forest

/-! ### Runs -/

/-- A fragment keeps its number, and its place is that of its turn. -/
theorem expandPending_fragment {en : Engine} {order : Nat} {p : Pending} {s s' : Session}
    {f : Fragment} {children : List Pending}
    (h : outcome (expandPending en order p) s = (.ok (f, children), s')) :
    f.id = p.id ∧ f.position = order ∧ f.order = order := by
  rcases expandPending_cases h with ⟨-, rfl, -⟩ | ⟨-, _, _, -, rfl, -⟩
  · exact ⟨rfl, rfl, rfl⟩
  · exact ⟨rfl, rfl, rfl⟩

/-- A run that succeeds has a log, whose fragments it gives; there are no more of them than
the fuel allows. -/
theorem exists_walk_of_drain {en : Engine} {fuel order : Nat} {queue : List Pending}
    {s s' : Session} {fragments : List Fragment}
    (h : outcome (drain en fuel order queue) s = (.ok fragments, s')) :
    ∃ log, Walk en order s queue log s' ∧ log.map (·.1) = fragments ∧ log.length ≤ fuel := by
  induction fuel generalizing order queue s fragments with
  | zero =>
    cases queue with
    | nil =>
      cases h
      exact ⟨[], .done, rfl, Nat.le_refl 0⟩
    | cons p queue => cases h
  | succ fuel ih =>
    cases queue with
    | nil =>
      cases h
      exact ⟨[], .done, rfl, Nat.zero_le _⟩
    | cons p queue =>
      rw [drain, outcome_bind] at h
      rcases hexpand : outcome (expandPending en order p) s with ⟨r, s₁⟩
      rw [hexpand] at h
      cases r with
      | error e => cases h
      | ok r =>
        obtain ⟨f, children⟩ := r
        dsimp only at h
        rw [outcome_bind] at h
        rcases hdrain : outcome (drain en fuel (order + 1) (children ++ queue)) s₁ with ⟨r, s₂⟩
        rw [hdrain] at h
        cases r with
        | error e => cases h
        | ok fs =>
          cases h
          obtain ⟨log, hwalk, rfl, hfuel⟩ := ih hdrain
          exact ⟨(f, children) :: log, .step hexpand hwalk, rfl, Nat.succ_le_succ hfuel⟩

namespace Walk

variable {en : Engine} {order : Nat} {s s' : Session} {queue : List Pending} {log : SpawnLog}

/-- A run goes on with what else waits. -/
theorem append {s₁ : Session} {rest : List Pending} {log' : SpawnLog}
    (h : Walk en order s queue log s₁) (h' : Walk en (order + log.length) s₁ rest log' s') :
    Walk en order s (queue ++ rest) (log ++ log') s' := by
  induction h with
  | done => exact h'
  | @step order s s₁ s' p queue children f log hexpand hrest ih =>
    rw [List.length_cons, Nat.add_comm log.length, ← Nat.add_assoc] at h'
    have hnext := ih h'
    rw [List.append_assoc] at hnext
    exact .step hexpand hnext

/-- With enough fuel the waiting fragments are expanded to those of a run. -/
theorem outcome_drain (h : Walk en order s queue log s') {fuel : Nat} (hfuel : log.length ≤ fuel) :
    outcome (drain en fuel order queue) s = (.ok (log.map (·.1)), s') := by
  induction h generalizing fuel with
  | done =>
    rw [drain]
    rfl
  | @step order s s₁ s' p queue children f log hexpand hrest ih =>
    obtain ⟨fuel, rfl⟩ := Nat.exists_eq_succ_of_ne_zero (Nat.ne_of_gt (Nat.lt_of_lt_of_le
      (Nat.succ_pos _) hfuel))
    rw [outcome_drain_cons hexpand, ih (Nat.le_of_succ_le_succ hfuel)]
    rfl

/-- A run goes through the trees of the waiting fragments in turn: the children of the
first were put before the others, so their trees come first in what is left. -/
theorem forest (h : Walk en order s queue log s') : Forest (queue.map (·.id)) log := by
  induction h with
  | done => exact .nil
  | @step order s s₁ s' p queue children f log hexpand hrest ih =>
    rw [List.map_append] at ih
    -- What is left goes through the trees of the children, then through those of the queue.
    obtain ⟨below, rest, rfl, hbelow, hrest⟩ := ih.split
    rw [List.map_cons, ← (expandPending_fragment hexpand).1]
    exact .cons hbelow hrest

/-- The fragments spawned in a run are numbered one after another. -/
theorem numbered (hen : Fertile en) (h : Walk en order s queue log s') :
    Numbered s.nextId log.spawned s'.nextId := by
  induction h with
  | done => exact numbered_nil _
  | step hexpand _ ih => exact (numbered_of_expandPending hen hexpand).append ih

theorem positions (h : Walk en order s queue log s') :
    log.map (·.1.position) = List.range' order log.length := by
  induction h with
  | done => rfl
  | step hexpand _ ih =>
    rw [List.map_cons, List.length_cons, List.range'_succ, ih,
      (expandPending_fragment hexpand).2.1]

theorem order_eq (h : Walk en order s queue log s') : ∀ e ∈ log, e.1.order = e.1.position := by
  induction h with
  | done => simp
  | step hexpand _ ih =>
    obtain ⟨-, hposition, horder⟩ := expandPending_fragment hexpand
    exact List.forall_mem_cons.mpr ⟨horder.trans hposition.symm, ih⟩

/-- A run from a root numbered 0, with no other number given before it, is in preorder. -/
theorem isPreorder (hen : Fertile en) {root : Pending} (hroot : root.id = 0)
    (hfirst : s.nextId = 1) (h : Walk en 0 s [root] log s') : log.IsPreorder s'.nextId := by
  have hforest := h.forest
  rw [List.map_singleton, hroot] at hforest
  have hnumbered := h.numbered hen
  rw [hfirst] at hnumbered
  have hids : log.ids.Perm (List.range s'.nextId) := by
    have hperm := hforest.ids_perm
    rw [hnumbered.ids, List.singleton_append] at hperm
    rwa [hnumbered.next, Nat.add_comm, List.range_eq_range', List.range'_succ]
  have hpositions : log.map (·.1.position) = List.range s'.nextId := by
    have hlength : log.length = s'.nextId := by
      simpa [ids] using hids.length_eq
    rw [h.positions, hlength, List.range_eq_range']
  refine ⟨?_, hids, hnumbered, hpositions, h.order_eq, fun e he e' he' => ?_⟩
  · cases h with
    | step hexpand _ => exact congrArg some ((expandPending_fragment hexpand).1.trans hroot)
  · have hsorted : log.Pairwise fun e e' => e.1.position < e'.1.position := by
      rw [← List.pairwise_map, hpositions]
      exact List.pairwise_lt_range
    rw [← Forest.precedes_singleton 0]
    exact hforest.precedes_iff (hids.nodup_iff.mpr List.nodup_range) hsorted he he'

end Walk

theorem outcome_drain_of_expandSource {fuel : Nat} {opts : Options} {source : Text}
    {fragments : List Fragment} {s : Session}
    (h : outcome (expandSource fuel opts source) opts.session = (.ok fragments, s)) :
    outcome (drain (engine opts fuel) fuel 0 [rootFragment opts (normalize source)]) opts.session =
      (.ok fragments, s) := by
  unfold expandSource at h
  dsimp only at h
  rw [outcome_tryCatch] at h
  rcases hdrain : outcome (drain (engine opts fuel) fuel 0
    [rootFragment opts ((normalizeTracked source).map (·.1))]) opts.session with ⟨r, s₁⟩
  rw [hdrain] at h
  cases r with
  | error e => cases e <;> cases h
  | ok fs =>
    cases h
    exact hdrain

/-- The fragments of a stylesheet are those of a run from the root. -/
theorem exists_walk_of_expandSource {fuel : Nat} {opts : Options} {source : Text}
    {fragments : List Fragment} {s : Session}
    (h : outcome (expandSource fuel opts source) opts.session = (.ok fragments, s)) :
    ∃ log : SpawnLog,
      Walk (engine opts fuel) 0 opts.session [rootFragment opts (normalize source)] log s ∧
        log.map (·.1) = fragments := by
  obtain ⟨log, hwalk, hfragments, -⟩ := exists_walk_of_drain (outcome_drain_of_expandSource h)
  exact ⟨log, hwalk, hfragments⟩

/-- The fragments of a stylesheet are those of a run whose log is in preorder: every
fragment that was numbered is among them, their positions are counted from 0 on in the
order they were encountered, and one is before another exactly if it is so in the tree of
what spawned what. -/
theorem positions_isPreorder {fuel : Nat} {opts : Options} {source : Text}
    {fragments : List Fragment} {s : Session}
    (h : outcome (expandSource fuel opts source) opts.session = (.ok fragments, s)) :
    ∃ log : SpawnLog,
      Walk (engine opts fuel) 0 opts.session [rootFragment opts (normalize source)] log s ∧
        log.map (·.1) = fragments ∧ log.IsPreorder s.nextId := by
  obtain ⟨log, hwalk, hfragments⟩ := exists_walk_of_expandSource h
  exact ⟨log, hwalk, hfragments, hwalk.isPreorder (fertile_engine opts fuel) rfl rfl⟩

/-- Rules, a media block and a mixin that nests a rule; the number of the second rule is
given before those of the fragments below the first. -/
def nestedRules : Text :=
  of "@mixin m{.c{x:y}}.a{@include m;@media print{.d{x:y}}}.b{x:y}"

set_option maxRecDepth 4000 in
theorem nestedRules_isPreorder :
    ∃ fragments s,
      outcome (expandSource 8 {} nestedRules) (Options.session {}) = (.ok fragments, s) ∧
        fragments.map (·.id) = [0, 1, 3, 4, 5, 2] ∧
        ∃ log : SpawnLog,
          Walk (engine {} 8) 0 (Options.session {}) [rootFragment {} (normalize nestedRules)]
              log s ∧
            log.map (·.1) = fragments ∧ log.IsPreorder s.nextId := by
  have hids : ((outcome (expandSource 8 {} nestedRules) (Options.session {})).1.toOption.map
      fun fragments => fragments.map (·.id)) = some [0, 1, 3, 4, 5, 2] := by decide +kernel
  rcases hout : outcome (expandSource 8 {} nestedRules) (Options.session {}) with ⟨r, s⟩
  rw [hout] at hids
  cases r with
  | error e => cases hids
  | ok fragments => exact ⟨fragments, s, rfl, Option.some.inj hids, positions_isPreorder hout⟩

end Stylesheet
