import Mathlib.Order.Bounds.Basic
import Mathlib.Data.Set.Lattice
import Stylesheet.Proofs.ExtendGraph

/-!
# The longest chain of extends

Depth is measured by going down all the ways that come to no selector twice. What is on the
way is marked, and the marks are taken back behind it, so that every branch is measured with
the marks of the way that leads to it and no others. That is why nothing is cut short: the
ways from a selector which avoid the marks are those from what it extends which avoid the
marks and the selector itself.

## Main definitions

* `ExtendGraph.IsSimple` — a way down that comes to no selector twice
* `ExtendGraph.lengthsFrom` — how long the ways are that avoid what is marked

## Main results

* `ExtendGraph.lengthsFrom_eq` — the ways from a selector, by the selectors it extends
* `ExtendGraph.exists_depthFrom` — measuring comes to an end with the longest way, and with
  the marks it began with
* `ExtendGraph.depth_spec` — depth is the length of the longest way
-/

namespace Stylesheet

namespace ExtendGraph

open Text

variable {g : ExtendGraph} {node dep : Text} {marked rest : List Text} {fuel best : Nat}

/-! ### Ways -/

/-- A way down on which every selector extends the next and none comes twice. -/
structure IsSimple (g : ExtendGraph) (way : List Text) : Prop where
  chain : way.IsChain g.Extends
  nodup : way.Nodup

theorem isSimple_singleton : g.IsSimple [node] :=
  ⟨List.isChain_singleton node, List.nodup_singleton node⟩

theorem isSimple_cons_cons :
    g.IsSimple (node :: dep :: rest) ↔
      g.Extends node dep ∧ node ∉ dep :: rest ∧ g.IsSimple (dep :: rest) := by
  constructor
  · rintro ⟨hchain, hnodup⟩
    obtain ⟨hedge, hchain⟩ := List.isChain_cons_cons.mp hchain
    obtain ⟨hnode, hnodup⟩ := List.nodup_cons.mp hnodup
    exact ⟨hedge, hnode, hchain, hnodup⟩
  · rintro ⟨hedge, hnode, hchain, hnodup⟩
    exact ⟨List.isChain_cons_cons.mpr ⟨hedge, hchain⟩, List.nodup_cons.mpr ⟨hnode, hnodup⟩⟩

/-- The lengths of the ways from `node` that avoid what is marked. -/
def lengthsFrom (g : ExtendGraph) (marked : List Text) (node : Text) : Set Nat :=
  {n | ∃ rest, g.IsSimple (node :: rest) ∧ (node :: rest).Disjoint marked ∧ rest.length = n}

/-- The lengths of the ways that go one step down and from there on. -/
def lengthsBelow (g : ExtendGraph) (marked deps : List Text) : Set Nat :=
  ⋃ dep ∈ deps, (1 + ·) '' g.lengthsFrom marked dep

/-- No way leads from what is marked. -/
theorem lengthsFrom_of_mem (hnode : node ∈ marked) : g.lengthsFrom marked node = ∅ := by
  refine Set.eq_empty_of_forall_notMem fun n ⟨rest, _, havoid, _⟩ => ?_
  exact havoid List.mem_cons_self hnode

theorem lengthsBelow_cons {deps : List Text} :
    g.lengthsBelow marked (dep :: deps) =
      (1 + ·) '' g.lengthsFrom marked dep ∪ g.lengthsBelow marked deps := by
  simp [lengthsBelow, Set.iUnion_or, Set.iUnion_union_distrib]

/-- A way ends where it starts, or goes on from something the selector extends and does not
come back to it. -/
theorem lengthsFrom_eq (hnode : node ∉ marked) :
    g.lengthsFrom marked node =
      {0} ∪ g.lengthsBelow (node :: marked) (g.dependencies node) := by
  ext n
  simp only [lengthsBelow, Set.mem_union, Set.mem_singleton_iff, Set.mem_iUnion, Set.mem_image,
    mem_dependencies]
  constructor
  · rintro ⟨rest, hsimple, havoid, rfl⟩
    cases rest with
    | nil => exact .inl rfl
    | cons dep rest =>
      obtain ⟨hedge, hback, hsimple⟩ := isSimple_cons_cons.mp hsimple
      refine .inr ⟨dep, hedge, rest.length, ⟨rest, hsimple, ?_, rfl⟩, Nat.add_comm _ _⟩
      exact List.disjoint_cons_right.mpr ⟨hback, (List.disjoint_cons_left.mp havoid).2⟩
  · rintro (rfl | ⟨dep, hedge, _, ⟨rest, hsimple, havoid, rfl⟩, rfl⟩)
    · exact ⟨[], isSimple_singleton, List.singleton_disjoint.mpr hnode, rfl⟩
    · obtain ⟨hback, havoid⟩ := List.disjoint_cons_right.mp havoid
      refine ⟨dep :: rest, isSimple_cons_cons.mpr ⟨hedge, hback, hsimple⟩, ?_, Nat.add_comm _ _⟩
      exact List.disjoint_cons_left.mpr ⟨hnode, havoid⟩

/-! ### Measuring -/

/-- What is extended is measured in turn. Each measurement leaves the marks as they were, and
the best is the greatest of the lengths seen before and those below. -/
theorem exists_foldlM_depthFrom {deps : List Text} {seen : Set Nat}
    (hdeps : ∀ dep ∈ deps, dep ∉ marked → ∃ n, g.depthFrom fuel dep marked = some (n, marked) ∧
      IsGreatest (g.lengthsFrom marked dep) n)
    (hbest : IsGreatest seen best) :
    ∃ n, deps.foldlM
        (fun (best, marked) dep =>
          if marked.contains dep then some (best, marked)
          else do
            let (depth, marked) ← g.depthFrom fuel dep marked
            return (max best (1 + depth), marked))
        (best, marked) = some (n, marked) ∧
      IsGreatest (seen ∪ g.lengthsBelow marked deps) n := by
  -- the greatest length so far is compared with the greatest from one more selector
  induction deps generalizing best seen with
  | nil => exact ⟨best, rfl, by simpa [lengthsBelow] using hbest⟩
  | cons dep deps ih =>
    have hrest := fun d hd => hdeps d (List.mem_cons_of_mem dep hd)
    rw [List.foldlM_cons, lengthsBelow_cons, ← Set.union_assoc]
    by_cases hmem : dep ∈ marked
    · -- It is passed by, and no way leads from it either.
      obtain ⟨n, hfold, hn⟩ := ih hrest hbest
      refine ⟨n, ?_, ?_⟩
      · simpa [hmem] using hfold
      · simpa [lengthsFrom_of_mem hmem] using hn
    · obtain ⟨depth, hdepth, hgreatest⟩ := hdeps dep List.mem_cons_self hmem
      have hstep : IsGreatest ((1 + ·) '' g.lengthsFrom marked dep) (1 + depth) :=
        Monotone.map_isGreatest (fun _ _ h => Nat.add_le_add_left h 1) hgreatest
      obtain ⟨n, hfold, hn⟩ := ih hrest (hbest.union hstep)
      refine ⟨n, ?_, hn⟩
      simpa [hmem, hdepth] using hfold

/-- Measuring from a selector that is not marked comes to an end, by induction on the fuel. It
finds the longest way that avoids the marks, and takes its own marks back. -/
theorem exists_depthFrom (hroom : g.Room marked fuel) (hnode : node ∉ marked) :
    ∃ n, g.depthFrom fuel node marked = some (n, marked) ∧
      IsGreatest (g.lengthsFrom marked node) n := by
  induction fuel generalizing node marked with
  | zero => exact absurd hroom Room.not_zero
  | succ fuel ih =>
    have hdeps : ∀ dep ∈ g.dependencies node, dep ∉ node :: marked →
        ∃ n, g.depthFrom fuel dep (node :: marked) = some (n, node :: marked) ∧
          IsGreatest (g.lengthsFrom (node :: marked) dep) n := fun dep hdep hnew =>
      ih (hroom.enter (mem_dependencies.mp hdep).left_mem hnode) hnew
    obtain ⟨n, hfold, hn⟩ := exists_foldlM_depthFrom hdeps (isGreatest_singleton (a := 0))
    refine ⟨n, ?_, lengthsFrom_eq hnode ▸ hn⟩
    rw [depthFrom, hfold]
    exact congrArg (fun m => some (n, m)) (filter_ne_cons_self hnode)

/-- Depth is the length of the longest way from a selector that comes to no selector twice, in
graphs with cycles too, and fuel for all the nodes is enough to measure it. A name that is not
in the graph has depth zero. -/
theorem depth_spec (g : ExtendGraph) (name : Text) :
    (∀ fuel, g.nodes.length < fuel → g.depthFrom fuel name [] = some (g.depth name, [])) ∧
      IsGreatest {n | ∃ rest, g.IsSimple (name :: rest) ∧ rest.length = n} (g.depth name) ∧
      (name ∉ g.nodes → g.depth name = 0) := by
  have hways :
      g.lengthsFrom [] name = {n | ∃ rest, g.IsSimple (name :: rest) ∧ rest.length = n} := by
    simp [lengthsFrom]
  have hmeasured {fuel : Nat} (henough : g.nodes.length < fuel) :
      ∃ n, g.depthFrom fuel name [] = some (n, []) ∧ IsGreatest (g.lengthsFrom [] name) n := by
    have hroom : g.Room [] fuel := ⟨List.nodup_nil, List.nil_subset _, by simpa using henough⟩
    exact exists_depthFrom hroom List.not_mem_nil
  obtain ⟨n, hdepth, hn⟩ := hmeasured (Nat.lt_succ_self _)
  have hname : g.depth name = n := by simp [depth, hdepth]
  rw [← hways, hname]
  refine ⟨fun fuel henough => ?_, hn, fun hunknown => ?_⟩
  · obtain ⟨m, hfuel, hm⟩ := hmeasured henough
    rw [hfuel, hm.unique hn]
  · -- Only a node extends anything, so there is no step to take.
    obtain ⟨rest, hsimple, -, rfl⟩ := hn.1
    match rest with
    | [] => rfl
    | dep :: rest => exact absurd (isSimple_cons_cons.mp hsimple).1.left_mem hunknown

/-- A chain of four selectors with a way past two of them, and two selectors that extend each
other. -/
def crossingGraph : ExtendGraph :=
  empty |>.addEdge (of ".d") (of ".c") |>.addEdge (of ".c") (of ".b") |>.addEdge (of ".b") (of ".a")
    |>.addEdge (of ".d") (of ".a") |>.addEdge (of ".x") (of ".y") |>.addEdge (of ".y") (of ".x")

theorem crossingGraph_depths :
    crossingGraph.depth (of ".d") = 3 ∧ crossingGraph.depth (of ".x") = 1 ∧
      of ".unknown" ∉ crossingGraph.nodes ∧ crossingGraph.depth (of ".unknown") = 0 ∧
      crossingGraph.depthFrom 7 (of ".x") [] = some (1, []) ∧
      IsGreatest {n | ∃ rest, crossingGraph.IsSimple (of ".d" :: rest) ∧ rest.length = n} 3 := by
  have hd : crossingGraph.depth (of ".d") = 3 := by decide
  have hx : crossingGraph.depth (of ".x") = 1 := by decide
  have hunknown : of ".unknown" ∉ crossingGraph.nodes := by decide
  have hfuel := (depth_spec crossingGraph (of ".x")).1 7 (by decide)
  have hgreatest := (depth_spec crossingGraph (of ".d")).2.1
  rw [hx] at hfuel
  rw [hd] at hgreatest
  exact ⟨hd, hx, hunknown, (depth_spec crossingGraph _).2.2 hunknown, hfuel, hgreatest⟩

end ExtendGraph

end Stylesheet
