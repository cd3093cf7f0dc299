import Mathlib.Data.List.Chain
import Mathlib.Data.List.Nodup
import Mathlib.Data.List.Perm.Subperm
import Mathlib.Logic.Relation
import Stylesheet.ExtendGraph

/-!
# Ways in the graph of extends

The graph of extends as a relation between selectors, and what a traversal of it can rely
on. A traversal goes down to selectors it has not come to before, and these are all nodes of
the graph. So it is never deeper than there are nodes, and fuel for that depth is enough.

## Main definitions

* `ExtendGraph.Extends` — one selector extends another
* `ExtendGraph.Acyclic` — no selector extends itself by way of others
* `ExtendGraph.IsCycle` — a path around a cycle
* `ExtendGraph.Room` — fuel for all the nodes not yet come to

## Main results

* `ExtendGraph.IsCycle.not_acyclic` — a path around a cycle tells that there is one
* `ExtendGraph.Room.enter` — one node deeper there is room with one less of fuel
-/

namespace Stylesheet

namespace ExtendGraph

open Text Relation

variable {g : ExtendGraph} {a b : Text}

/-! ### Extending -/

/-- Selector `a` extends selector `b`. -/
def Extends (g : ExtendGraph) (a b : Text) : Prop := (a, b) ∈ g.edges

@[simp] theorem mem_dependencies : b ∈ g.dependencies a ↔ g.Extends a b := by
  simp [dependencies, Extends]

theorem Extends.left_mem (h : g.Extends a b) : a ∈ g.nodes := (g.ends _ h).1

theorem Extends.right_mem (h : g.Extends a b) : b ∈ g.nodes := (g.ends _ h).2

/-- No selector extends itself, not even by way of others. -/
def Acyclic (g : ExtendGraph) : Prop := ∀ n, ¬TransGen g.Extends n n

/-- A selector that extends itself is a node. -/
theorem mem_nodes_of_transGen (h : TransGen g.Extends a b) : a ∈ g.nodes := by
  obtain ⟨c, hac, -⟩ := TransGen.head'_iff.mp h
  exact hac.left_mem

/-- A path around a cycle: every selector on it extends the next, it ends where it starts, and
it comes to no other selector twice. -/
structure IsCycle (g : ExtendGraph) (path : List Text) : Prop where
  two_le : 2 ≤ path.length
  chain : path.IsChain g.Extends
  closed : path.head? = path.getLast?
  nodup : path.dropLast.Nodup

/-- A path around a cycle leads from a selector to itself. -/
theorem IsCycle.not_acyclic {path : List Text} (h : g.IsCycle path) : ¬g.Acyclic := by
  obtain ⟨hlength, hchain, hclosed, -⟩ := h
  match path with
  | [] => exact absurd hlength (by simp)
  | [a] => exact absurd hlength (by simp)
  | a :: b :: rest =>
    obtain ⟨hab, hrest⟩ := List.isChain_cons_cons.mp hchain
    have hreach := List.relationReflTransGen_of_exists_isChain _ hrest (List.cons_ne_nil b rest)
    have hlast : (b :: rest).getLast (List.cons_ne_nil b rest) = a := by
      rw [List.getLast?_cons_cons, List.getLast?_eq_getLast_of_ne_nil (List.cons_ne_nil b rest)]
        at hclosed
      exact (Option.some.inj hclosed).symm
    rw [hlast] at hreach
    exact fun hacyclic => hacyclic a (.head' hab hreach)

/-! ### Marks -/

/-- A mark that is taken back leaves the others. -/
theorem filter_ne_cons_self {marked : List Text} (h : a ∉ marked) :
    (a :: marked).filter (· ≠ a) = marked := by
  rw [List.filter_cons_of_neg (by simp), List.filter_eq_self]
  exact fun b hb => by simpa using fun heq : b = a => h (heq ▸ hb)

/-- What a traversal has marked are nodes, each once, and there is fuel to go down to all the
others. -/
structure Room (g : ExtendGraph) (marked : List Text) (fuel : Nat) : Prop where
  nodup : marked.Nodup
  nodes : marked ⊆ g.nodes
  enough : g.nodes.length < marked.length + fuel

namespace Room

variable {marked marked' : List Text} {fuel : Nat} {node : Text}

/-- At the start it takes one more than there are nodes. -/
theorem start (g : ExtendGraph) : g.Room [] (g.nodes.length + 1) :=
  ⟨List.nodup_nil, List.nil_subset _, by simp⟩

/-- There is always fuel to look at one more node, if only to find it marked. -/
theorem not_zero : ¬g.Room marked 0 := by
  intro h
  have hle := (List.subperm_of_subset h.nodup h.nodes).length_le
  have henough := h.enough
  omega

/-- One node deeper one less is enough. -/
theorem enter (h : g.Room marked (fuel + 1)) (hnode : node ∈ g.nodes) (hnew : node ∉ marked) :
    g.Room (node :: marked) fuel where
  nodup := List.nodup_cons.mpr ⟨hnew, h.nodup⟩
  nodes := List.cons_subset.mpr ⟨hnode, h.nodes⟩
  enough := by
    have henough := h.enough
    rw [List.length_cons]
    omega

/-- More marks leave more room. -/
theorem grow (h : g.Room marked fuel) (hsub : marked ⊆ marked') (hnodup : marked'.Nodup)
    (hnodes : marked' ⊆ g.nodes) : g.Room marked' fuel where
  nodup := hnodup
  nodes := hnodes
  enough := by
    have hle := (List.subperm_of_subset h.nodup hsub).length_le
    have henough := h.enough
    omega

end Room

end ExtendGraph

end Stylesheet
