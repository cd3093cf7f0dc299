import Stylesheet.Proofs.ExtendGraph.Cycles

/-!
# Extended selectors first

Sorting goes down to what a selector extends before it adds the selector itself. It marks
what it comes to and never goes there again, so when it passes by a marked selector that one
had better be sorted. It is, unless it is one that the traversal is still below; then it would
extend itself by way of others, and a graph in which that happens is not sorted at all.

## Main definitions

* `ExtendGraph.Sorted` — sorted selectors, each after those it extends
* `ExtendGraph.Sorts` — what sorting from some selectors comes to

## Main results

* `ExtendGraph.sorts_sortFrom` — sorting from a selector sorts it and leaves nothing unsorted
  that was not before
* `ExtendGraph.sort_spec` — every graph without a cycle is sorted, and no other
-/

namespace Stylesheet

namespace ExtendGraph

open Text Relation

variable {g : ExtendGraph} {node : Text} {s s' : Sorting}

/-! ### Sorting under way -/

/-- What has been visited are nodes, and what has been sorted is among it, each once and after
all that it extends. -/
structure Sorted (g : ExtendGraph) (s : Sorting) : Prop where
  nodup : s.visited.Nodup
  nodes : s.visited ⊆ g.nodes
  subset : s.sorted ⊆ s.visited
  distinct : s.sorted.Nodup
  ordered : ∀ a ∈ s.sorted, ∀ b, g.Extends a b → [b, a].Sublist s.sorted

/-- What has been visited and not sorted. -/
def Sorting.Pending (s : Sorting) (n : Text) : Prop := n ∈ s.visited ∧ n ∉ s.sorted

/-- Sorting from some selectors sorts all of them. What is pending stays so, and nothing else
comes to be. -/
structure Sorts (g : ExtendGraph) (starts : List Text) (s s' : Sorting) : Prop where
  sorted : g.Sorted s'
  visited : s.visited ⊆ s'.visited
  pending : ∀ n, s'.Pending n ↔ s.Pending n
  starts : starts ⊆ s'.sorted

/-- What has been sorted stays sorted. -/
theorem Sorts.sorted_subset {starts : List Text} (h : g.Sorts starts s s') (hs : g.Sorted s) :
    s.sorted ⊆ s'.sorted := by
  intro n hn
  by_contra hnot
  exact ((h.pending n).mp ⟨h.visited (hs.subset hn), hnot⟩).2 hn

theorem Sorts.refl {starts : List Text} (hs : g.Sorted s) (hstarts : starts ⊆ s.sorted) :
    g.Sorts starts s s :=
  ⟨hs, List.Subset.refl _, fun _ => Iff.rfl, hstarts⟩

/-- One selector after another is sorted. -/
theorem Sorts.cons {starts : List Text} {s₁ : Sorting} (h : g.Sorts [node] s s₁)
    (h' : g.Sorts starts s₁ s') : g.Sorts (node :: starts) s s' where
  sorted := h'.sorted
  visited := List.Subset.trans h.visited h'.visited
  pending n := (h'.pending n).trans (h.pending n)
  starts := by
    have hnode : node ∈ s₁.sorted := h.starts List.mem_cons_self
    exact List.cons_subset.mpr ⟨h'.sorted_subset h.sorted hnode, h'.starts⟩

/-- Sorting begins a selector by visiting it. -/
theorem Sorted.visit (hs : g.Sorted s) (hnode : node ∈ g.nodes) (hnew : node ∉ s.visited) :
    g.Sorted { s with visited := node :: s.visited } where
  nodup := List.nodup_cons.mpr ⟨hnew, hs.nodup⟩
  nodes := List.cons_subset.mpr ⟨hnode, hs.nodes⟩
  subset := List.subset_cons_of_subset _ hs.subset
  distinct := hs.distinct
  ordered := hs.ordered

/-- A selector is pending from the visit on. -/
theorem pending_visit (hs : g.Sorted s) (hnew : node ∉ s.visited) (n : Text) :
    ({ s with visited := node :: s.visited } : Sorting).Pending n ↔ n = node ∨ s.Pending n := by
  have hnode : node ∉ s.sorted := fun hmem => hnew (hs.subset hmem)
  simp only [Sorting.Pending, List.mem_cons]
  constructor
  · rintro ⟨rfl | hn, hsorted⟩
    · exact .inl rfl
    · exact .inr ⟨hn, hsorted⟩
  · rintro (rfl | ⟨hn, hsorted⟩)
    · exact ⟨.inl rfl, hnode⟩
    · exact ⟨.inr hn, hsorted⟩

/-- Sorting ends a selector by adding it to what is sorted, once all that it extends is
there. -/
theorem Sorts.add (hs : g.Sorted s) (hnew : node ∉ s.visited)
    (h : g.Sorts (g.dependencies node) { s with visited := node :: s.visited } s') :
    g.Sorts [node] s { s' with sorted := s'.sorted ++ [node] } := by
  -- Below it nothing was sorted that was pending, so the selector itself is not sorted yet.
  have hpending := fun n => (h.pending n).trans (pending_visit hs hnew n)
  have hvisited : node ∈ s'.visited := h.visited List.mem_cons_self
  have hunsorted : node ∉ s'.sorted := ((hpending node).mpr (.inl rfl)).2
  refine ⟨⟨h.sorted.nodup, h.sorted.nodes, ?_, ?_, fun a ha b hab => ?_⟩, ?_, fun n => ?_, ?_⟩
  · exact List.append_subset.mpr
      ⟨h.sorted.subset, List.cons_subset.mpr ⟨hvisited, List.nil_subset _⟩⟩
  · refine List.nodup_append_comm.mp (List.nodup_cons.mpr ⟨hunsorted, h.sorted.distinct⟩)
  · rcases List.mem_append.mp ha with ha | ha
    · exact (h.sorted.ordered a ha b hab).trans (List.sublist_append_left _ _)
    · obtain rfl := List.mem_singleton.mp ha
      have hb : b ∈ s'.sorted := h.starts (mem_dependencies.mpr hab)
      exact (List.singleton_sublist.mpr hb).append (List.Sublist.refl [a])
  · exact fun n hn => h.visited (List.mem_cons_of_mem node hn)
  · have hsplit : ({ s' with sorted := s'.sorted ++ [node] } : Sorting).Pending n ↔
        s'.Pending n ∧ n ≠ node := by
      simp [Sorting.Pending, and_assoc]
    rw [hsplit, hpending]
    refine ⟨fun ⟨hn, hne⟩ => hn.resolve_left hne, fun hn => ⟨.inr hn, ?_⟩⟩
    rintro rfl
    exact hnew hn.1
  · simp

/-! ### Runs -/

/-- Sorting goes through selectors in turn, while what is pending stays above them. -/
theorem sorts_foldlM (sortOne : Sorting → Text → Option Sorting) (above : Text → Prop) {fuel : Nat}
    {nodes : List Text}
    (hone : ∀ s, g.Sorted s → g.Room s.visited fuel → (∀ n, s.Pending n → above n) →
      ∀ n ∈ nodes, ∃ s', sortOne s n = some s' ∧ g.Sorts [n] s s')
    (hs : g.Sorted s) (hroom : g.Room s.visited fuel) (habove : ∀ n, s.Pending n → above n) :
    ∃ s', nodes.foldlM sortOne s = some s' ∧ g.Sorts nodes s s' := by
  induction nodes generalizing s with
  | nil => exact ⟨s, rfl, .refl hs (List.nil_subset _)⟩
  | cons node nodes ih =>
    obtain ⟨s₁, hfirst, hsorts⟩ := hone s hs hroom habove node List.mem_cons_self
    have hroom₁ := hroom.grow hsorts.visited hsorts.sorted.nodup hsorts.sorted.nodes
    obtain ⟨s', hrest, hsorts'⟩ := ih
      (fun s hs hroom habove n hn => hone s hs hroom habove n (List.mem_cons_of_mem node hn))
      hsorts.sorted hroom₁ fun n hn => habove n ((hsorts.pending n).mp hn)
    refine ⟨s', ?_, hsorts.cons hsorts'⟩
    rw [List.foldlM_cons, hfirst]
    exact hrest

/-- Sorting from a selector sorts it, by induction on the fuel. What is pending extends it by
way of others, so that nothing it extends is pending. -/
theorem sorts_sortFrom (hacyclic : g.Acyclic) {fuel : Nat} (hs : g.Sorted s)
    (hroom : g.Room s.visited fuel) (hnode : node ∈ g.nodes)
    (habove : ∀ n, s.Pending n → TransGen g.Extends n node) :
    ∃ s', g.sortFrom fuel node s = some s' ∧ g.Sorts [node] s s' := by
  induction fuel generalizing node s with
  | zero => exact absurd hroom Room.not_zero
  | succ fuel ih =>
    rw [sortFrom]
    split_ifs with hvisited
    · -- A pending selector would extend itself by way of those above it.
      have hvisited := List.contains_iff_mem.mp hvisited
      have hsorted : node ∈ s.sorted := by
        by_contra hnot
        exact hacyclic node (habove node ⟨hvisited, hnot⟩)
      exact ⟨s, rfl, .refl hs (List.cons_subset.mpr ⟨hsorted, List.nil_subset _⟩)⟩
    · have hnew : node ∉ s.visited := fun hmem => hvisited (List.contains_iff_mem.mpr hmem)
      -- Below the selector it is pending too, so it counts as above from there.
      have hdeps : ∀ s, g.Sorted s → g.Room s.visited fuel →
          (∀ n, s.Pending n → ReflTransGen g.Extends n node) → ∀ dep ∈ g.dependencies node,
            ∃ s', g.sortFrom fuel dep s = some s' ∧ g.Sorts [dep] s s' := by
        intro s hs hroom habove dep hdep
        have hedge := mem_dependencies.mp hdep
        exact ih hs hroom hedge.right_mem fun n hn => TransGen.tail' (habove n hn) hedge
      obtain ⟨s', hbelow, hsorts⟩ := sorts_foldlM (fun s dep => g.sortFrom fuel dep s) _ hdeps
        (hs.visit hnode hnew) (hroom.enter hnode hnew) fun n hn => by
          rcases (pending_visit hs hnew n).mp hn with rfl | hn
          · exact .refl
          · exact (habove n hn).to_reflTransGen
      refine ⟨{ s' with sorted := s'.sorted ++ [node] }, ?_, .add hs hnew hsorts⟩
      rw [hbelow]
      rfl

/-- A graph without a cycle is sorted from all its nodes. -/
theorem sorts_sortAll (hacyclic : g.Acyclic) :
    ∃ s, g.sortAll = some s ∧ g.Sorts g.nodes {} s := by
  have hstart : g.Sorted {} :=
    ⟨List.nodup_nil, List.nil_subset _, List.Subset.refl _, List.nodup_nil,
      fun a ha => absurd ha List.not_mem_nil⟩
  have hnone (n : Text) : ¬({} : Sorting).Pending n := fun hn => List.not_mem_nil hn.1
  refine sorts_foldlM _ (fun _ => False) (fun s hs hroom habove n hn => ?_) hstart (.start g) hnone
  exact sorts_sortFrom hacyclic hs hroom hn fun n hn => (habove n hn).elim

/-- A graph is sorted if and only if it has no cycle. Then every node is sorted once, after all
that it extends. -/
theorem sort_spec (g : ExtendGraph) :
    ((∃ order, g.sort = .ok order) ↔ g.Acyclic) ∧
      ∀ order, g.sort = .ok order →
        order.Perm g.nodes ∧ ∀ a b, g.Extends a b → [b, a].Sublist order := by
  unfold sort
  cases hcycle : g.findCycle? with
  | some cycle =>
    have hnot : ¬g.Acyclic := by simp [← findCycle?_eq_none_iff, hcycle]
    exact ⟨iff_of_false (by simp) hnot, by simp⟩
  | none =>
    have hacyclic := findCycle?_eq_none_iff.mp hcycle
    obtain ⟨s, hsort, hsorts⟩ := sorts_sortAll hacyclic
    refine ⟨iff_of_true ⟨_, rfl⟩ hacyclic, fun order horder => ?_⟩
    obtain rfl : s.sorted = order := by simpa [hsort] using horder
    have hperm : s.sorted.Perm g.nodes := (List.perm_ext_iff_of_nodup hsorts.sorted.distinct
      g.nodup).mpr fun n => ⟨fun hn => hsorts.sorted.nodes (hsorts.sorted.subset hn),
        fun hn => hsorts.starts hn⟩
    exact ⟨hperm, fun a b hab => hsorts.sorted.ordered a (hsorts.starts hab.left_mem) b hab⟩

/-- Three selectors one above the other, and one that extends nothing. -/
def ladderGraph : ExtendGraph :=
  empty |>.addEdge (of ".child") (of ".base") |>.addEdge (of ".grandchild") (of ".child")
    |>.addNode (of ".lonely")

theorem ladderGraph_sorted :
    ladderGraph.sort = .ok [of ".base", of ".child", of ".grandchild", of ".lonely"] ∧
      ladderGraph.Acyclic ∧
      [of ".base", of ".child", of ".grandchild", of ".lonely"].Perm ladderGraph.nodes ∧
      [of ".child", of ".grandchild"].Sublist
        [of ".base", of ".child", of ".grandchild", of ".lonely"] := by
  have hsort : ladderGraph.sort =
      .ok [of ".base", of ".child", of ".grandchild", of ".lonely"] := by decide
  obtain ⟨hiff, horder⟩ := sort_spec ladderGraph
  obtain ⟨hperm, hbefore⟩ := horder _ hsort
  have hextends : ladderGraph.Extends (of ".grandchild") (of ".child") := by
    unfold Extends
    decide
  exact ⟨hsort, hiff.mp ⟨_, hsort⟩, hperm, hbefore _ _ hextends⟩

end ExtendGraph

end Stylesheet
