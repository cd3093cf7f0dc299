import Mathlib.Data.Set.Finite.List
import Stylesheet.Proofs.Compile.Convergence
import Stylesheet.Proofs.Import

/-!
# Chains of imports

A text may be expanded again if it is imported again. The definitions in scope remember what was
imported so far, by path: along every chain of frames and fragments that leads away from the root
that list grows, and an import whose path is on it is left out. This file says what it is to watch the
chains, and what the expansion of a block may do to its state for the list to be kept and for all
that waits to be shorter or to have fewer paths left to import. Fewer is meant literally, for the
paths that files are found under are of bounded length.

## Main definitions

* `Straight` — texts in which nothing is defined or included
* `watched` — expansion that gives up where a path is imported twice along a chain
* `Options.pathCount` — how many paths there are to import
* `Locals.Follows` — what expansion makes of the state of a block
* `Runs` — computations inside a block that converge, and keep to this

## Main results

* `Registry.Tame.length_le` — no more paths are imported than there are
* `Runs.bind`, `Runs.lift` — the rules for computations inside a block
-/

namespace Stylesheet

open Text

variable {α β : Type}

/-! ### Chains of imports -/

/-- A text in which no block, however deep, defines or includes anything. -/
inductive Straight : Text → Prop
  | intro {code : Text}
      (keywords : ∀ b ∈ (locate code).1, (splitDirective (expandShorthand b.header)).1 ∉
        [of "@mixin", of "@function", of "@include"])
      (bodies : ∀ b ∈ (locate code).1, ∀ body, b.body = some body → Straight body) :
      Straight code

/-- A text whose blocks have no bodies is straight if none of them includes anything. -/
theorem straight_of_bare {code : Text} (h : ∀ b ∈ (locate code).1, b.body = none ∧
    (splitDirective (expandShorthand b.header)).1 ∉ [of "@mixin", of "@function", of "@include"]) :
    Straight code :=
  .intro (fun b hb => (h b hb).2) fun b hb body hbody => by simp [(h b hb).1] at hbody

/-- A compilation whose imports are files, none of which defines or includes anything. -/
structure Options.Straight (opts : Options) : Prop where
  magic : opts.magic = none
  cwd : Path.isAbs opts.tree.cwd = true
  files : ∀ f ∈ opts.tree.files, Stylesheet.Straight ((normalizeTracked f.2).map (·.1))

namespace Locals

/-- Where a text may be expanded on a chain of imports: the imports of the chain are known, none
is known twice, and the text is that of the root or of one of them. -/
def Linked (opts : Options) (chain : List Text) (frame : Frame) (l : Locals) : Prop :=
  chain <:+ l.registry.imported ∧ l.registry.imported.Nodup ∧
    frame.file ∈ opts.filename :: l.registry.imported

/-- Every fragment spawned since then knows the imports known then. -/
def Handed (l l' : Locals) : Prop :=
  ∀ c ∈ l'.children.drop l.children.length, l.registry.imported <:+ c.registry.imported

instance (opts : Options) (chain : List Text) (frame : Frame) (l : Locals) :
    Decidable (l.Linked opts chain frame) :=
  inferInstanceAs (Decidable (_ ∧ _ ∧ _))

instance (l l' : Locals) : Decidable (l.Handed l') :=
  inferInstanceAs (Decidable (∀ _ ∈ _, _))

end Locals

/-- Expansion that keeps the chain of imports leading to a text, and gives up where the same path
is imported twice along a chain or a chain is forgotten. -/
def watched (opts : Options) : (fuel : Nat) → (chain : List Text) → Engine
  | 0, _ => ⟨fun _ _ => throw .exhausted, fun _ _ => throw .exhausted⟩
  | fuel + 1, chain =>
    { expand := fun frame code => do
        let l ← get
        if l.Linked opts chain frame then
          let signal ← (watched opts fuel l.registry.imported).expandWith opts frame code
          if l.Handed (← get) then return signal else throw .exhausted
        else throw .exhausted
      evaluate := fun scope t => (watched opts fuel chain).evaluateWith opts scope t }

/-- The fragments of a stylesheet as an engine expands them. -/
def expandRoot (en : Engine) (fuel : Nat) (opts : Options) (source : Text) :
    SessionM (List Fragment) :=
  drain en fuel 0 [rootFragment opts ((normalizeTracked source).map (·.1))]

/-! ### The bound on paths -/

namespace Options

/-- How often the directories that imports are searched from lead up. -/
def ascents (opts : Options) : Nat := Path.ascents opts.filename + (opts.loadPaths.map Path.ascents).sum

/-- A length that the path of no import exceeds. -/
def pathBound (opts : Options) : Nat :=
  (opts.tree.files.map fun f => f.1.length).sum + 3 * opts.ascents + 1

/-- How many paths are within that length. -/
noncomputable def pathCount (opts : Options) : Nat :=
  (List.finite_length_le UInt8 opts.pathBound).toFinset.card

end Options

/-- What is known of the definitions in scope: no function, and the paths imported. -/
structure Registry.Tame (opts : Options) (r : Registry) : Prop where
  functions : r.functions = []
  nodup : r.imported.Nodup
  bounded : ∀ p ∈ r.imported, p.length ≤ opts.pathBound

theorem Registry.Tame.length_le {opts : Options} {r : Registry} (h : r.Tame opts) :
    r.imported.length ≤ opts.pathCount := by
  rw [← List.toFinset_card_of_nodup h.nodup]
  refine Finset.card_le_card fun p hp => ?_
  rw [Set.Finite.mem_toFinset]
  exact h.bounded p (List.mem_toFinset.mp hp)

/-- A place where text is expanded: the definitions in scope there, the file the text is from,
and the directory imports are searched from. -/
structure Site (opts : Options) (file dir : Text) (r : Registry) : Prop where
  tame : r.Tame opts
  entered : file ∈ opts.filename :: r.imported
  near : Path.ascents dir ≤ opts.ascents

/-- A fragment spawned where the imports `base` were known, by a text of length `size` or by one
that this imports: it is expanded later with more imports known or from a shorter text. -/
structure Offspring (opts : Options) (size : Nat) (base : List Text) (c : Pending) : Prop where
  site : Site opts c.file c.dir c.registry
  imported : base <:+ c.registry.imported
  straight : c.raw = none → Straight c.code
  smaller : c.raw = none → base.length < c.registry.imported.length ∨ c.code.length < size

/-- What the expansion of a text of length `size` makes of the state of its block. -/
structure Locals.Follows (opts : Options) (size : Nat) (l l' : Locals) : Prop where
  tame : l'.registry.Tame opts
  imported : l.registry.imported <:+ l'.registry.imported
  children : ∃ new, l'.children = l.children ++ new ∧
    ∀ c ∈ new, Offspring opts size l.registry.imported c

variable {opts : Options} {size size' : Nat} {chain base : List Text} {file dir : Text}
  {l l' l'' : Locals}

theorem Offspring.mono {c : Pending} (h : Offspring opts size base c) (hle : size ≤ size') :
    Offspring opts size' base c :=
  ⟨h.site, h.imported, h.straight, fun hraw => (h.smaller hraw).imp_right fun hlt => by omega⟩

/-- Seen from where fewer imports were known. -/
theorem Offspring.of_suffix {c : Pending} {base' : List Text} (h : Offspring opts size base' c)
    (hsuffix : base <:+ base') : Offspring opts size base c := by
  have hle := hsuffix.length_le
  exact ⟨h.site, hsuffix.trans h.imported, h.straight,
    fun hraw => (h.smaller hraw).imp_left fun hlt => by omega⟩

theorem Site.of_follows (h : Site opts file dir l.registry) (hl : l.Follows opts size l') :
    Site opts file dir l'.registry := by
  refine ⟨hl.tame, ?_, h.near⟩
  rcases List.mem_cons.mp h.entered with hroot | himported
  · exact hroot ▸ List.mem_cons_self
  · exact List.mem_cons_of_mem _ (hl.imported.subset himported)

namespace Locals

theorem follows_refl (h : l.registry.Tame opts) : l.Follows opts size l :=
  ⟨h, List.suffix_rfl, [], (List.append_nil _).symm, nofun⟩

theorem Follows.trans (h : l.Follows opts size l') (h' : l'.Follows opts size l'') :
    l.Follows opts size l'' := by
  obtain ⟨new, hnew, hoffspring⟩ := h.children
  obtain ⟨new', hnew', hoffspring'⟩ := h'.children
  refine ⟨h'.tame, h.imported.trans h'.imported, new ++ new', ?_, fun c hc => ?_⟩
  · rw [hnew', hnew, List.append_assoc]
  · rcases List.mem_append.mp hc with hc | hc
    · exact hoffspring c hc
    · exact (hoffspring' c hc).of_suffix h.imported

theorem Follows.mono (h : l.Follows opts size l') (hle : size ≤ size') :
    l.Follows opts size' l' := by
  obtain ⟨new, hnew, hoffspring⟩ := h.children
  exact ⟨h.tame, h.imported, new, hnew, fun c hc => (hoffspring c hc).mono hle⟩

/-- After an import more is known, so nothing depends on how long its text was. -/
theorem Follows.of_import {p : Text}
    (h : Follows opts size
      { l with registry := { l.registry with imported := p :: l.registry.imported } } l') :
    l.Follows opts size' l' := by
  have hsuffix : l.registry.imported <:+ p :: l.registry.imported := List.suffix_cons _ _
  obtain ⟨new, hnew, hoffspring⟩ := h.children
  refine ⟨h.tame, hsuffix.trans h.imported, new, hnew, fun c hc => ?_⟩
  obtain ⟨hsite, himported, hstraight, -⟩ := hoffspring c hc
  refine ⟨hsite, hsuffix.trans himported, hstraight, fun _ => .inl ?_⟩
  exact himported.length_le

end Locals

/-! ### Computations inside a block -/

/-- Inside a block of a text of length `size`, where the imports of the chain are known, these
computations converge. -/
def Runs (opts : Options) (chain : List Text) (file dir : Text) (size : Nat)
    (x : Nat → ExpandM α) : Prop :=
  ∀ l : Locals, Site opts file dir l.registry → chain <:+ l.registry.imported →
    Converges (fun n => (x n).run l) fun r => l.Follows opts size r.2

theorem runs_pure (a : α) : Runs opts chain file dir size fun _ => pure a :=
  fun _ hsite _ => converges_pure (Locals.follows_refl hsite.tame)

theorem runs_throw (e : SourceError) :
    Runs opts chain file dir size fun _ => (throw (.unbalanced e) : ExpandM α) :=
  fun _ _ _ => converges_throw e

/-- A change of the block that keeps the definitions and the fragments spawned. -/
theorem runs_modify {u : Locals → Locals}
    (hregistry : ∀ l, (u l).registry.functions = l.registry.functions ∧
      (u l).registry.imported = l.registry.imported)
    (hchildren : ∀ l, (u l).children = l.children) :
    Runs opts chain file dir size fun _ => modify u := by
  intro l hsite _
  obtain ⟨hfunctions, himported⟩ := hregistry l
  refine converges_pure ⟨⟨?_, ?_, ?_⟩, ?_, [], ?_, nofun⟩
  · exact hfunctions.trans hsite.tame.functions
  · exact himported ▸ hsite.tame.nodup
  · exact himported ▸ hsite.tame.bounded
  · rw [himported]
  · rw [hchildren, List.append_nil]

theorem runs_emit (p : Property) : Runs opts chain file dir size fun _ => emit p :=
  runs_modify (fun _ => ⟨rfl, rfl⟩) fun _ => rfl

theorem runs_bindVar (name : Text) (v : Value) :
    Runs opts chain file dir size fun _ => bindVar name v :=
  runs_modify (fun _ => ⟨rfl, rfl⟩) fun _ => rfl

namespace Runs

theorem bind {x : Nat → ExpandM α} {f : Nat → α → ExpandM β} (h : Runs opts chain file dir size x)
    (hf : ∀ a, Runs opts chain file dir size fun n => f n a) :
    Runs opts chain file dir size fun n => x n >>= f n := by
  intro l hsite hchain
  change Converges (fun n => (x n).run l >>= fun r => (f n r.1).run r.2) _
  refine (h l hsite hchain).bind fun r hr => ?_
  refine (hf r.1 r.2 (hsite.of_follows hr) (hchain.trans hr.imported)).mono fun r' hr' => ?_
  exact hr.trans hr'

theorem lift {x : Nat → SessionM α} {P : α → Prop} (h : Converges x P) :
    Runs opts chain file dir size fun n => (liftM (x n) : ExpandM α) := by
  intro l hsite _
  change Converges (fun n => x n >>= fun a => pure (a, l)) _
  exact h.bind fun a _ => converges_pure (Locals.follows_refl hsite.tame)

theorem get {f : Nat → Locals → ExpandM α}
    (h : ∀ l, Site opts file dir l.registry → chain <:+ l.registry.imported →
      Converges (fun n => (f n l).run l) fun r => l.Follows opts size r.2) :
    Runs opts chain file dir size fun n => MonadState.get >>= f n :=
  h

theorem ite {c : Prop} [Decidable c] {x y : Nat → ExpandM α} (hx : Runs opts chain file dir size x)
    (hy : Runs opts chain file dir size y) :
    Runs opts chain file dir size fun n => if c then x n else y n := by
  split_ifs
  · exact hx
  · exact hy

theorem inScope {frame : Frame} {f : Nat → Scope → ExpandM α}
    (h : ∀ scope : Scope, scope.registry.functions = [] →
      Runs opts chain file dir size fun n => f n scope) :
    Runs opts chain file dir size fun n => scopeIn frame >>= f n := by
  refine .get fun l hsite hchain => ?_
  exact h ⟨l.vars, l.registry, frame.file⟩ hsite.tame.functions l hsite hchain

theorem forM {f : Nat → α → ExpandM Unit}
    (h : ∀ a, Runs opts chain file dir size fun n => f n a) (items : List α) :
    Runs opts chain file dir size fun n => items.forM (f n) := by
  induction items with
  | nil => exact runs_pure ()
  | cons a items ih => exact (h a).bind fun _ => ih

end Runs

theorem runs_report (severity : Severity) (file' message : Text) :
    Runs opts chain file dir size fun _ => (liftM (report severity file' message) : ExpandM Unit) :=
  .lift (converges_report severity file' message)

end Stylesheet
