import Stylesheet.Text

/-!
# The graph of extends

Selectors and which selector extends which. Nodes and edges are kept in the order they
were added, and every traversal follows that order.

A traversal marks the selectors it comes to. The search for a cycle tells those it has come
to from those it is still below; sorting marks once and for all; measuring depth takes its
marks back on the way up. How deep a traversal goes is bounded by fuel, of which as much as
there are nodes is enough.

## Main definitions

* `ExtendGraph` — nodes and edges from an extending selector to the extended one
* `ExtendGraph.findCycle?` — a cycle, if there is one
* `ExtendGraph.depth` — the longest chain of extends without repetition
* `ExtendGraph.sort` — extended selectors before those that extend them
-/

namespace Stylesheet

open Text

/-- Selectors, each once, and edges from a selector to one it extends. -/
structure ExtendGraph where
  nodes : List Text
  edges : List (Text × Text)
  nodup : nodes.Nodup
  ends : ∀ e ∈ edges, e.1 ∈ nodes ∧ e.2 ∈ nodes

namespace ExtendGraph

/-- No selectors. -/
def empty : ExtendGraph where
  nodes := []
  edges := []
  nodup := List.nodup_nil
  ends := List.forall_mem_nil _

instance : EmptyCollection ExtendGraph := ⟨empty⟩

/-- Adds a selector. -/
def addNode (g : ExtendGraph) (name : Text) : ExtendGraph :=
  if h : g.nodes.contains name then g
  else
    { g with
      nodes := g.nodes ++ [name]
      nodup := by
        have hname : name ∉ g.nodes := fun hmem => h (List.contains_iff_mem.mpr hmem)
        refine List.nodup_append.mpr ⟨g.nodup, by simp, fun n hn m hm => ?_⟩
        rintro rfl
        exact hname (List.mem_singleton.mp hm ▸ hn)
      ends := fun e he => (g.ends e he).imp (List.mem_append_left _) (List.mem_append_left _) }

/-- A selector that was added is there, with those that were there before. -/
theorem mem_nodes_addNode {g : ExtendGraph} {name n : Text} :
    n ∈ (g.addNode name).nodes ↔ n ∈ g.nodes ∨ n = name := by
  rw [addNode]
  split
  · next h =>
    have hmem : name ∈ g.nodes := List.contains_iff_mem.mp h
    exact ⟨.inl, fun hn => hn.elim id fun heq => heq ▸ hmem⟩
  · simp

/-- Records that `child` extends `parent`. -/
def addEdge (g : ExtendGraph) (child parent : Text) : ExtendGraph :=
  let g' := (g.addNode child).addNode parent
  if g'.edges.contains (child, parent) then g'
  else
    { g' with
      edges := g'.edges ++ [(child, parent)]
      ends := fun e he => by
        rcases List.mem_append.mp he with he | he
        · exact g'.ends e he
        · obtain rfl := List.mem_singleton.mp he
          simp [g', mem_nodes_addNode] }

/-- The selectors that a selector extends. -/
def dependencies (g : ExtendGraph) (name : Text) : List Text :=
  (g.edges.filter (·.1 = name)).map (·.2)

/-- The selectors that extend a selector. -/
def dependents (g : ExtendGraph) (name : Text) : List Text :=
  (g.edges.filter (·.2 = name)).map (·.1)

/-! ### Cycles -/

/-- What a search for a cycle has marked: the selectors it has come to, and those it is
still below, the last one first. -/
structure Marks where
  visited : List Text := []
  unfinished : List Text := []

/-- Why a search for a cycle stops: it has found one; it is below a selector that is not on
its path; or it has no more fuel. -/
inductive Stop where
  | cycle (path : List Text)
  | offPath (node : Text) (path : List Text)
  | exhausted
  deriving DecidableEq

/-- Looks for a cycle through what is reached from `node`, to which `path` leads. -/
def visit (g : ExtendGraph) : (fuel : Nat) → (path : List Text) → (node : Text) → Marks →
    Except Stop Marks
  | 0, _, _, _ => .error .exhausted
  | fuel + 1, path, node, marks =>
    if marks.unfinished.contains node then
      if path.contains node then .error (.cycle (path.dropWhile (· ≠ node) ++ [node]))
      else .error (.offPath node path)
    else if marks.visited.contains node then .ok marks
    else do
      let below ← (g.dependencies node).foldlM
        (fun marks dep => g.visit fuel (path ++ [node]) dep marks)
        { visited := node :: marks.visited, unfinished := node :: marks.unfinished }
      return { below with unfinished := below.unfinished.filter (· ≠ node) }

/-- Looks for a cycle from each node in turn. -/
def search (g : ExtendGraph) : Except Stop Marks :=
  g.nodes.foldlM (fun marks node => g.visit (g.nodes.length + 1) [] node marks) {}

/-- A cycle as the path around it, from a node to the same node. -/
def findCycle? (g : ExtendGraph) : Option (List Text) :=
  match g.search with
  | .error (.cycle path) => some path
  | _ => none

/-! ### Depth -/

/-- The length of the longest way from `node` that avoids the nodes marked, and the marks
when it has been measured. -/
def depthFrom (g : ExtendGraph) : (fuel : Nat) → (node : Text) → (marked : List Text) →
    Option (Nat × List Text)
  | 0, _, _ => none
  | fuel + 1, node, marked => do
    let (best, marked) ← (g.dependencies node).foldlM
      (fun (best, marked) dep =>
        if marked.contains dep then some (best, marked)
        else do
          let (depth, marked) ← g.depthFrom fuel dep marked
          return (max best (1 + depth), marked))
      (0, node :: marked)
    return (best, marked.filter (· ≠ node))

/-- The length of the longest chain of extends from a selector that repeats none. -/
def depth (g : ExtendGraph) (name : Text) : Nat :=
  ((g.depthFrom (g.nodes.length + 1) name []).map (·.1)).getD 0

/-! ### Order -/

/-- Sorting under way: the selectors it has come to, and those that are sorted. -/
structure Sorting where
  visited : List Text := []
  sorted : List Text := []

/-- Sorts what `node` extends and then `node` itself, unless it has been visited. -/
def sortFrom (g : ExtendGraph) : (fuel : Nat) → (node : Text) → Sorting → Option Sorting
  | 0, _, _ => none
  | fuel + 1, node, s =>
    if s.visited.contains node then some s
    else do
      let below ← (g.dependencies node).foldlM (fun s dep => g.sortFrom fuel dep s)
        { s with visited := node :: s.visited }
      return { below with sorted := below.sorted ++ [node] }

/-- Sorts from each node in turn. -/
def sortAll (g : ExtendGraph) : Option Sorting :=
  g.nodes.foldlM (fun s node => g.sortFrom (g.nodes.length + 1) node s) {}

/-- Every selector after those it extends, or else a cycle. -/
def sort (g : ExtendGraph) : Except (List Text) (List Text) :=
  match g.findCycle? with
  | some cycle => .error cycle
  | none => .ok ((g.sortAll.map (·.sorted)).getD [])

/-- How messages tell that selectors extend each other. -/
def cycleMessage (cycle : List Text) : Text :=
  of "circular extend: [" ++ join [ch ' '] cycle ++ [ch ']']

end ExtendGraph

end Stylesheet
