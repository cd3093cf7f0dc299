import Stylesheet.Proofs.ExtendGraph

/-!
# Cycles in the graph of extends

A search for a cycle goes down along a path and marks what it comes to. A selector it has
come to is either on the path still, or finished: then all that it extends is finished too,
and none of that extends itself. So a search that comes to its end has shown that there is
no cycle, and one that meets a selector of its path has found one.

The selectors marked as unfinished are the path itself, so a search never finds itself below
a selector that is not on its path.

## Main definitions

* `ExtendGraph.Searching` — what the marks say at every moment of a search
* `ExtendGraph.Searched` — how a search can end

## Main results

* `ExtendGraph.Searching.leave` — a selector is finished when all it extends is
* `ExtendGraph.searched_visit` — a visit finishes its node or finds a cycle
* `ExtendGraph.findCycle_spec` — a cycle is found if and only if there is one
-/

namespace Stylesheet

namespace ExtendGraph

open Text Relation

variable {g : ExtendGraph} {path : List Text} {node : Text} {marks marks' : Marks}

/-! ### Marks -/

/-- What the marks say while a search is below the selectors of `path`. Those are the ones not
finished, and what is finished leads to nothing that is not, nor to itself. -/
structure Searching (g : ExtendGraph) (path : List Text) (marks : Marks) : Prop where
  unfinished : marks.unfinished = path.reverse
  distinct : path.Nodup
  subset : path ⊆ marks.visited
  nodup : marks.visited.Nodup
  nodes : marks.visited ⊆ g.nodes
  closed : ∀ a ∈ marks.visited, a ∉ path → ∀ b, g.Extends a b → b ∈ marks.visited ∧ b ∉ path
  acyclic : ∀ a ∈ marks.visited, a ∉ path → ¬TransGen g.Extends a a

namespace Searching

theorem start (g : ExtendGraph) : g.Searching [] {} where
  unfinished := rfl
  distinct := List.nodup_nil
  subset := List.nil_subset _
  nodup := List.nodup_nil
  nodes := List.nil_subset _
  closed _ h := absurd h List.not_mem_nil
  acyclic _ h := absurd h List.not_mem_nil

/-- All that a finished selector leads to is finished. -/
theorem finished_of_reach (h : g.Searching path marks) {a b : Text} (ha : a ∈ marks.visited)
    (hpath : a ∉ path) (hab : ReflTransGen g.Extends a b) : b ∈ marks.visited ∧ b ∉ path := by
  induction hab with
  | refl => exact ⟨ha, hpath⟩
  | tail _ hcd ih => exact h.closed _ ih.1 ih.2 _ hcd

/-- Going down to a new selector leaves what is finished as it is. -/
theorem enter (h : g.Searching path marks) (hnode : node ∈ g.nodes) (hnew : node ∉ marks.visited) :
    g.Searching (path ++ [node])
      { visited := node :: marks.visited, unfinished := node :: marks.unfinished } := by
  have hfinished {a : Text} (ha : a ∈ node :: marks.visited) (hpath : a ∉ path ++ [node]) :
      a ∈ marks.visited ∧ a ∉ path := by
    simp only [List.mem_append, List.mem_singleton, not_or] at hpath
    exact ⟨(List.mem_cons.mp ha).resolve_left hpath.2, hpath.1⟩
  refine ⟨by simp [h.unfinished], ?_, ?_, List.nodup_cons.mpr ⟨hnew, h.nodup⟩,
    List.cons_subset.mpr ⟨hnode, h.nodes⟩, fun a ha hpath b hab => ?_, fun a ha hpath => ?_⟩
  · have hpath : node ∉ path := fun hmem => hnew (h.subset hmem)
    simpa [List.nodup_append] using ⟨h.distinct, fun a ha heq => hpath (heq ▸ ha)⟩
  · refine List.append_subset.mpr ⟨List.subset_cons_of_subset _ h.subset, ?_⟩
    exact List.cons_subset.mpr ⟨List.mem_cons_self, List.nil_subset _⟩
  · obtain ⟨ha, hpath⟩ := hfinished ha hpath
    obtain ⟨hb, hpath'⟩ := h.closed a ha hpath b hab
    have hne : b ≠ node := fun heq => hnew (heq ▸ hb)
    exact ⟨List.mem_cons_of_mem _ hb, by simp [hpath', hne]⟩
  · obtain ⟨ha, hpath⟩ := hfinished ha hpath
    exact h.acyclic a ha hpath

/-- A selector is finished when all that it extends is. Had it a way to itself, that would lead
through something finished, and from there to nothing unfinished. -/
theorem leave (h : g.Searching (path ++ [node]) marks)
    (hdeps : ∀ b, g.Extends node b → b ∈ marks.visited ∧ b ∉ path ++ [node]) :
    g.Searching path { marks with unfinished := marks.unfinished.filter (· ≠ node) } ∧
      node ∉ path := by
  have hdistinct : path.Nodup ∧ node ∉ path := by
    have hnodup := h.distinct
    rw [List.nodup_append_comm, List.singleton_append, List.nodup_cons] at hnodup
    exact hnodup.symm
  obtain ⟨hpath, hnode⟩ := hdistinct
  have hfinished {a : Text} (hne : a ≠ node) (hmem : a ∉ path) : a ∉ path ++ [node] := by
    simp [hne, hmem]
  refine ⟨⟨?_, hpath, ?_, h.nodup, h.nodes, fun a ha hmem b hab => ?_, fun a ha hmem => ?_⟩, hnode⟩
  · rw [h.unfinished, List.reverse_append, List.reverse_singleton, List.singleton_append,
      filter_ne_cons_self (by simpa using hnode)]
  · exact fun a ha => h.subset (List.mem_append_left _ ha)
  · -- What is finished now was finished before, or is the selector itself.
    have hb : b ∈ marks.visited ∧ b ∉ path ++ [node] := by
      by_cases heq : a = node
      · exact hdeps b (heq ▸ hab)
      · exact h.closed a ha (hfinished heq hmem) b hab
    exact ⟨hb.1, fun hpath => hb.2 (List.mem_append_left _ hpath)⟩
  · by_cases heq : a = node
    · -- A way to itself would come back from something finished.
      intro hcycle
      obtain ⟨b, hab, hba⟩ := TransGen.head'_iff.mp hcycle
      obtain ⟨hb, hbpath⟩ := hdeps b (heq ▸ hab)
      obtain ⟨-, hapath⟩ := h.finished_of_reach hb hbpath hba
      exact hapath (heq ▸ List.mem_append_right _ List.mem_cons_self)
    · exact h.acyclic a ha (hfinished heq hmem)

/-- A search that comes back to its path has found a cycle. -/
theorem isCycle (h : g.Searching path marks) (hchain : (path ++ [node]).IsChain g.Extends)
    (hmem : node ∈ path) : g.IsCycle (path.dropWhile (· ≠ node) ++ [node]) := by
  -- What leads to the first place of the selector is not on the cycle.
  obtain ⟨before, after, rfl, hbefore⟩ := List.eq_append_cons_of_mem hmem
  have hround : (before ++ node :: after).dropWhile (· ≠ node) = node :: after := by
    have hskipped : ∀ a ∈ before, decide (a ≠ node) = true := by
      intro a ha
      simpa using fun heq : a = node => hbefore (heq ▸ ha)
    rw [List.dropWhile_append_of_pos hskipped, List.dropWhile_cons_of_neg (by simp)]
  rw [List.append_assoc] at hchain
  rw [hround]
  refine ⟨by simp, hchain.right_of_append, by rw [List.getLast?_concat]; rfl, ?_⟩
  rw [List.dropLast_concat]
  exact (List.nodup_append.mp h.distinct).2.1

end Searching

/-! ### Visits -/

/-- How a search from some selectors can end: with all of them finished, or with a cycle. -/
inductive Searched (g : ExtendGraph) (path : List Text) (marks : Marks) (starts : List Text) :
    Except Stop Marks → Prop
  | finished {marks' : Marks} (h : g.Searching path marks') (hsub : marks.visited ⊆ marks'.visited)
      (hfrom : ∀ n ∈ starts, n ∈ marks'.visited ∧ n ∉ path) :
      Searched g path marks starts (.ok marks')
  | cycle {cycle : List Text} (h : g.IsCycle cycle) :
      Searched g path marks starts (.error (.cycle cycle))

/-- Selectors are searched from one after another. What one search has finished stays
finished in the next. -/
theorem searched_foldlM {visit : Marks → Text → Except Stop Marks} {fuel : Nat}
    {nodes : List Text}
    (hvisit : ∀ marks, g.Searching path marks → g.Room marks.visited fuel →
      ∀ n ∈ nodes, g.Searched path marks [n] (visit marks n))
    (h : g.Searching path marks) (hroom : g.Room marks.visited fuel) :
    g.Searched path marks nodes (nodes.foldlM visit marks) := by
  -- selector by selector: a cycle ends the search, and otherwise what was visited stays visited
  induction nodes generalizing marks with
  | nil => exact .finished h (List.Subset.refl _) fun _ hn => absurd hn List.not_mem_nil
  | cons n nodes ih =>
    rw [List.foldlM_cons]
    have hfirst := hvisit marks h hroom n List.mem_cons_self
    generalize visit marks n = outcome at hfirst ⊢
    cases hfirst with
    | cycle hcycle => exact .cycle hcycle
    | @finished marks₁ h₁ hsub hn =>
      have hroom₁ := hroom.grow hsub h₁.nodup h₁.nodes
      have hrest := ih (fun m hm hr a ha => hvisit m hm hr a (List.mem_cons_of_mem n ha)) h₁ hroom₁
      change g.Searched path marks (n :: nodes) (nodes.foldlM visit marks₁)
      generalize nodes.foldlM visit marks₁ = outcome at hrest ⊢
      cases hrest with
      | cycle hcycle => exact .cycle hcycle
      | finished h₂ hsub₂ hfrom =>
        refine .finished h₂ (List.Subset.trans hsub hsub₂) fun a ha => ?_
        rcases List.mem_cons.mp ha with rfl | ha
        · obtain ⟨ha, hpath⟩ := hn a List.mem_cons_self
          exact ⟨hsub₂ ha, hpath⟩
        · exact hfrom a ha

/-- A visit finishes its node or finds a cycle, by induction on the fuel. -/
theorem searched_visit {fuel : Nat} (h : g.Searching path marks)
    (hroom : g.Room marks.visited fuel) (hnode : node ∈ g.nodes)
    (hchain : (path ++ [node]).IsChain g.Extends) :
    g.Searched path marks [node] (g.visit fuel path node marks) := by
  induction fuel generalizing path node marks with
  | zero => exact absurd hroom Room.not_zero
  | succ fuel ih =>
    have hunfinished : marks.unfinished.contains node = path.contains node := by
      simp [h.unfinished]
    -- A selector of the path closes a cycle, a finished one is passed by, a new one is entered.
    rw [visit, hunfinished]
    split_ifs with hpath hvisited
    · exact .cycle (h.isCycle hchain (List.contains_iff_mem.mp hpath))
    · refine .finished h (List.Subset.refl _) fun n hn => ?_
      obtain rfl := List.mem_singleton.mp hn
      exact ⟨List.contains_iff_mem.mp hvisited, fun hmem => hpath (List.contains_iff_mem.mpr hmem)⟩
    · have hnew : node ∉ marks.visited := fun hmem => hvisited (List.contains_iff_mem.mpr hmem)
      have hone : ∀ marks, g.Searching (path ++ [node]) marks → g.Room marks.visited fuel →
          ∀ dep ∈ g.dependencies node,
            g.Searched (path ++ [node]) marks [dep] (g.visit fuel (path ++ [node]) dep marks) := by
        intro marks hm hr dep hdep
        -- The path goes on to what the node extends.
        have hedge := mem_dependencies.mp hdep
        refine ih hm hr hedge.right_mem (hchain.append (List.isChain_singleton dep) ?_)
        simpa using hedge
      have hdeps := searched_foldlM hone (h.enter hnode hnew) (hroom.enter hnode hnew)
      change g.Searched path marks [node]
        ((g.dependencies node).foldlM (m := Except Stop) _ _ >>= _)
      generalize (g.dependencies node).foldlM (m := Except Stop) _ _ = outcome at hdeps ⊢
      cases hdeps with
      | cycle hcycle => exact .cycle hcycle
      | finished hbelow hsub hfrom =>
        obtain ⟨hleft, hpath⟩ := hbelow.leave fun b hb => hfrom b (mem_dependencies.mpr hb)
        refine .finished hleft ?_ fun n hn => ?_
        · exact fun a ha => hsub (List.mem_cons_of_mem node ha)
        · obtain rfl := List.mem_singleton.mp hn
          exact ⟨hsub List.mem_cons_self, hpath⟩

/-- A search marks all nodes, so that none extends itself, or finds a cycle. -/
theorem searched_search (g : ExtendGraph) : g.Searched [] {} g.nodes g.search := by
  refine searched_foldlM (fun marks h hroom n hn => ?_) (.start g) (.start g)
  exact searched_visit h hroom hn (List.isChain_singleton n)

/-- A search comes to its end in a graph without a cycle, and else stops at a cycle. -/
theorem search_ends (g : ExtendGraph) :
    (∃ marks, g.search = .ok marks ∧ g.Acyclic) ∨
      ∃ path, g.search = .error (.cycle path) ∧ g.IsCycle path := by
  have hsearched := searched_search g
  generalize g.search = outcome at hsearched ⊢
  cases hsearched with
  | cycle hcycle => exact .inr ⟨_, rfl, hcycle⟩
  | finished h _ hnodes =>
    refine .inl ⟨_, rfl, fun n hcycle => ?_⟩
    obtain ⟨hvisited, hpath⟩ := hnodes n (mem_nodes_of_transGen hcycle)
    exact h.acyclic n hvisited hpath hcycle

theorem findCycle?_eq_none_iff : g.findCycle? = none ↔ g.Acyclic := by
  rcases search_ends g with ⟨marks, hsearch, hacyclic⟩ | ⟨path, hsearch, hcycle⟩
  · exact iff_of_true (by rw [findCycle?, hsearch]) hacyclic
  · exact iff_of_false (by simp [findCycle?, hsearch]) hcycle.not_acyclic

/-- A cycle is found if and only if there is one, and what is found is a path around a cycle. A
search neither loses its path nor runs out of fuel. -/
theorem findCycle_spec (g : ExtendGraph) :
    (g.findCycle? = none ↔ g.Acyclic) ∧ (∀ path, g.findCycle? = some path → g.IsCycle path) ∧
      (∀ node path, g.search ≠ .error (.offPath node path)) ∧ g.search ≠ .error .exhausted := by
  refine ⟨findCycle?_eq_none_iff, ?_⟩
  rcases search_ends g with ⟨marks, hsearch, -⟩ | ⟨cycle, hsearch, hcycle⟩
  · simp [findCycle?, hsearch]
  · simpa [findCycle?, hsearch] using hcycle

/-- Three selectors, each of which extends the next, the last one the first. -/
def ringGraph : ExtendGraph :=
  empty |>.addEdge (of ".a") (of ".c") |>.addEdge (of ".b") (of ".a")
    |>.addEdge (of ".c") (of ".b")

theorem ringGraph_isCycle :
    ringGraph.findCycle? = some [of ".a", of ".c", of ".b", of ".a"] ∧ ¬ringGraph.Acyclic ∧
      ringGraph.IsCycle [of ".a", of ".c", of ".b", of ".a"] := by
  have hfound : ringGraph.findCycle? = some [of ".a", of ".c", of ".b", of ".a"] := by decide
  obtain ⟨hiff, hcycle, -⟩ := findCycle_spec ringGraph
  refine ⟨hfound, fun hacyclic => ?_, hcycle _ hfound⟩
  rw [hiff.mpr hacyclic] at hfound
  cases hfound

end ExtendGraph

end Stylesheet
