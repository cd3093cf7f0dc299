import Stylesheet.Compile.Fragment
import Stylesheet.Diagnostic
import Stylesheet.ExtendGraph

/-!
# Extends

A fragment that extends a parent is to match wherever the parent is named. So every set
of selectors that names the parent also gets the selectors of the fragment in its place.
Since a set that grows can name further parents, this goes on in rounds until no set
changes, but for ten rounds at most.

Fragments with the same set of selectors form a part and grow together. A fragment whose
selectors name a parent remembers the positions of the fragments that extend it, for
ordering.

## Main definitions

* `trimCommon`, `replaceWhole` — what an extending selector puts in place of what
* `Parts` — fragments grouped by their selectors
* `Request` — fragments with one set of selectors that extend one parent
* `Parts.link` — one request
* `resolveExtends` — all requests, in rounds
* `positioned`, `orderFragments` — what is written, and in which order
-/

namespace Stylesheet

open Text

/-! ### Selectors in place of selectors -/

/-- A byte that starts a simple selector inside a compound one. -/
def isMark (c : UInt8) : Bool := c = ch '#' || c = ch '.' || c = ch ':'

/-- The length of the longest common start found so far, `best`, or a longer one: it
ends after a space or before a mark. The texts go on from offset `i`. -/
def commonStartFrom : (i best : Nat) → Text → Text → Nat
  | i, best, c :: a, d :: b =>
    if c = d then
      commonStartFrom (i + 1) (if c = ch ' ' then i + 1 else if isMark c then i else best) a b
    else best
  | _, best, _, _ => best

/-- The length of the longest common start that ends after a space or before a mark. -/
def commonStart (a b : Text) : Nat := commonStartFrom 0 0 a b

/-- As `commonStartFrom`, for texts given last byte first: it ends with a space or a
mark. -/
def commonEndFrom : (i best : Nat) → Text → Text → Nat
  | i, best, c :: a, d :: b =>
    if c = d then
      commonEndFrom (i + 1) (if c = ch ' ' || isMark c then i + 1 else best) a b
    else best
  | _, best, _, _ => best

/-- The length of the longest common end that starts with a space or a mark. -/
def commonEnd (a b : Text) : Nat := commonEndFrom 0 0 a.reverse b.reverse

/-- Two selectors without what they share at both ends. -/
def trimCommon (child parent : Text) : Text × Text :=
  let n := commonStart child parent
  let (child, parent) := (child.drop n, parent.drop n)
  let m := commonEnd child parent
  (child.take (child.length - m), parent.take (parent.length - m))

/-- A name that starts with `first` cannot start after the byte `prev`. -/
def blocksBefore (prev first : UInt8) : Bool :=
  if isMark first then isMark prev else isName prev || isMark prev

/-- The place between `prev` and `rest` is where `old` stands as a whole name: no longer
name goes on at either side. -/
def standsWhole (old : Text) (prev : Option UInt8) (rest : Text) : Bool :=
  starts rest old &&
    (match prev with
      | some p => !blocksBefore p (head0 old)
      | none => true) &&
    (match (rest.drop old.length).head? with
      | some c => !isName c
      | none => true)

/-- Whole occurrences of `old` replaced by `new` in what follows the byte `prev`; `skip`
counts the bytes of an occurrence still to pass. -/
def replaceWholeFrom (old new : Text) : (skip : Nat) → (prev : Option UInt8) → Text → Text
  | _, _, [] => []
  | 0, prev, c :: r =>
    if standsWhole old prev (c :: r) then
      new ++ replaceWholeFrom old new (old.length - 1) (some c) r
    else c :: replaceWholeFrom old new 0 (some c) r
  | k + 1, _, c :: r => replaceWholeFrom old new k (some c) r

/-- Whole occurrences of a non-empty selector replaced by another. -/
def replaceWhole (selector old new : Text) : Text := replaceWholeFrom old new 0 none selector

/-- What a selector becomes when `child` extends `parent`, if it names the parent. -/
def extendSelector? (parent selector child : Text) : Option Text :=
  let (c, p) := trimCommon child parent
  if c.isEmpty || p.isEmpty then none
  else
    let extended := replaceWhole selector p c
    if extended = selector then none else some extended

/-- The selectors that `children` add to a set when they extend `parent`. -/
def addedSelectors (parent : Text) (children selectors : List Text) : List Text :=
  (selectors.filter (has · parent)).flatMap fun s => children.filterMap (extendSelector? parent s)

/-! ### Parts -/

/-- Fragments, and a table of the numbers of those with the same selectors, under these
selectors joined by commas. The keys of the table are listed beside it, in the order they
arose. -/
structure Parts where
  fragments : List Fragment
  keys : List Text := []
  parts : List (Text × List Nat) := []

/-- Fragments with one set of selectors that extend a parent. -/
structure Request where
  label : Text
  members : List Nat
  parent : Text

/-- What linking a request did. -/
structure Linked where
  parts : Parts
  found : Bool := false
  renamed : Bool := false

namespace Parts

/-- Adds numbers to a part, which is new at the end if there is none. -/
def insert (key : Text) (ids : List Nat) : List (Text × List Nat) → List (Text × List Nat)
  | [] => [(key, ids)]
  | (k, members) :: rest =>
    if k = key then (k, members ++ ids) :: rest else (k, members) :: insert key ids rest

/-- Adds numbers to a part. A key that the table does not have yet is listed last. -/
def add (p : Parts) (key : Text) (ids : List Nat) : Parts :=
  { p with
    keys := if (p.parts.lookup key).isSome then p.keys else p.keys ++ [key]
    parts := insert key ids p.parts }

/-- Without the part under a key. -/
def erase (p : Parts) (key : Text) : Parts :=
  { p with keys := p.keys.filter (· ≠ key), parts := p.parts.filter (·.1 ≠ key) }

/-- Groups fragments by their selectors. Raw at-rules have none. -/
def ofFragments (fragments : List Fragment) : Parts :=
  (fragments.filter (·.raw.isNone)).foldl (fun p f => p.add f.key [f.id]) { fragments }

/-- The fragment with a number. -/
def get? (p : Parts) (id : Nat) : Option Fragment := p.fragments.find? (·.id = id)

/-- Changes the fragments with these numbers. -/
def update (p : Parts) (ids : List Nat) (change : Fragment → Fragment) : Parts :=
  { p with fragments := p.fragments.map fun f => if ids.contains f.id then change f else f }

/-- Moves a part to another set of selectors. -/
def rename (p : Parts) (key : Text) (ids : List Nat) (selectors : List Text) : Parts :=
  ((p.erase key).add (join [ch ','] selectors) ids).update ids fun f => { f with selectors }

/-- The positions of the fragments with these numbers, except of one. -/
def positionsExcept (p : Parts) (ids : List Nat) (id : Nat) : List Nat :=
  (ids.filter (· ≠ id)).filterMap fun c => (p.get? c).map (·.position)

/-- Records in each fragment of a part the positions of the fragments that extend it. -/
def recordDeps (p : Parts) (ids members : List Nat) : Parts :=
  p.update ids fun f => (p.positionsExcept members f.id).foldl Fragment.addDep f

/-- Links a request to the part under one key. -/
def linkPart (parent : Text) (children : List Text) (members : List Nat) (l : Linked)
    (key : Text) : Linked :=
  match l.parts.parts.lookup key with
  | none => l
  | some ids =>
    let current := split (ch ',') key
    let added := addedSelectors parent children current
    if added.isEmpty then l
    else
      let merged := sortUnique (current ++ added)
      if join [ch ','] merged = key then
        { l with parts := l.parts.recordDeps ids members, found := true }
      else
        { parts := (l.parts.rename key ids merged).recordDeps ids members
          found := true, renamed := true }

/-- Adds the selectors of a request to every set that names its parent. -/
def link (p : Parts) (r : Request) : Linked :=
  let children := ((r.members.head?.bind p.get?).map (·.selectors)).getD []
  p.keys.foldl (linkPart r.parent children r.members) { parts := p }

end Parts

/-! ### Requests and rounds -/

/-- Adds a fragment to the request with its selectors and parent. -/
def addRequest (f : Fragment) (rs : List Request) (parent : Text) : List Request :=
  let label := f.key ++ of " extends " ++ parent
  if rs.any (·.label = label) then
    rs.map fun r => if r.label = label then { r with members := r.members ++ [f.id] } else r
  else rs ++ [⟨label, [f.id], parent⟩]

/-- What fragments extend, in the order of the fragments. -/
def requests (fragments : List Fragment) : List Request :=
  (fragments.filter (·.raw.isNone)).foldl (fun rs f => f.parents.foldl (addRequest f) rs) []

/-- The first fragment of a request. -/
def Request.leader? (fragments : List Fragment) (r : Request) : Option Fragment :=
  r.members.head?.bind fun id => fragments.find? (·.id = id)

/-- The graph of which selectors extend which, with an edge for each request. -/
def extendGraph (fragments : List Fragment) : ExtendGraph :=
  (requests fragments).foldl
    (fun g r => g.addEdge (((r.leader? fragments).map Fragment.key).getD []) r.parent) {}

/-- Links every request once. Also tells whether a set of selectors changed, and the
requests whose parent was found nowhere. -/
def linkAll : Parts → List Request → Parts × Bool × List Request
  | p, [] => (p, false, [])
  | p, r :: rest =>
    let l := p.link r
    let (p, changed, missing) := linkAll l.parts rest
    (p, l.renamed || changed, if l.found then missing else r :: missing)

/-- Links requests in rounds until no set changes; false if the last round still changed
one. -/
def settle (rs : List Request) : (rounds : Nat) → Parts → Parts × Bool
  | 0, p => (p, false)
  | n + 1, p =>
    let (p, changed, _) := linkAll p rs
    if changed then settle rs n p else (p, true)

/-- How many rounds are made at most. -/
def maxRounds : Nat := 10

/-- The warning that selectors extend each other, if they do. -/
def cycleWarning (fragments : List Fragment) : List Diagnostic :=
  match (extendGraph fragments).findCycle? with
  | some cycle => [⟨.warning, of "circular extend: " ++ join (of " -> ") cycle, [], -1⟩]
  | none => []

/-- The warning that a parent was found nowhere. -/
def missingWarning (fragments : List Fragment) (r : Request) : Diagnostic :=
  let file := ((r.leader? fragments).map (·.file)).getD []
  ⟨.warning, of "parent rule not found: " ++ r.parent, file, -1⟩

/-- The warning that the last round still changed something. -/
def unsettledWarning : Diagnostic :=
  ⟨.warning, of "extends still changing after " ++ ofNat maxRounds ++ of " rounds", [], -1⟩

/-- Adds the selectors of extending fragments wherever a parent is named. Also gives the
warnings about it. -/
def resolveExtends (fragments : List Fragment) : List Fragment × List Diagnostic :=
  let rs := requests fragments
  let start := Parts.ofFragments fragments
  let (p, settled) := settle rs maxRounds start
  let (_, _, missing) := linkAll start rs
  (p.fragments, cycleWarning fragments ++ missing.map (missingWarning fragments) ++
    if settled then [] else [unsettledWarning])

/-! ### Order -/

/-- The least of a list and a number. -/
def least (n : Nat) (ns : List Nat) : Nat := ns.foldl min n

/-- Ranks a fragment right before the first that extends it, or else where it is. -/
def Fragment.rank (f : Fragment) : Fragment :=
  let f := f.addDep (f.position + 1)
  { f with position := least (f.position + 1) f.deps }

/-- The fragments of an arena that have a position, which are those to order. What still
waits to be expanded has none. -/
def positioned (arena : List (Pending ⊕ Fragment)) : List Fragment :=
  arena.filterMap Sum.getRight?

/-- Fragments in the order of the output: by rank, and among equals as encountered. -/
def orderFragments (fragments : List Fragment) : List Fragment :=
  let encountered := fragments.mergeSort fun f g => f.order ≤ g.order
  (encountered.map Fragment.rank).mergeSort fun f g => f.position ≤ g.position

end Stylesheet
