import Stylesheet.Compile.Expand
import Stylesheet.Proofs.Compile.Congruence

/-!
# What goes through expansion

Expanding a text puts computations one after another too: blocks emit, bind, define, spawn
and report, and evaluate on the way. A relation between the computations of two engines
therefore holds of expansion as soon as it holds of these few operations and goes through
sequences. This file shows so once. A relation has two forms, one for computations on a
session and one for computations inside a block; the second may depend on whether the block
spawns. As before, a property of a single computation is a relation that does not look at
the other.

What is expanded can matter. So a relation may rely on a property of the texts expanded,
which the bodies of blocks inherit; the definitions in scope have such bodies, and an import
is asked about when it is reached. Whether it may rely on it is a proposition of its own: some
of what a relation says can be true regardless, and is needed to show the rest.

## Main definitions

* `Registry.Holds` — the definitions in scope have bodies of a kind
* `Locals.Minor` — changes of a block that leave its fragments alone
* `Permeating` — relations that go through expansion
* `Permeating.Carries` — engines between which such a relation holds

## Main results

* `Permeating.block` — what one block does
* `Permeating.engine` — the relation holds of expansion and evaluation with any fuel, and
  with more of it
-/

namespace Stylesheet

open Text

/-! ### Definitions -/

/-- Whatever a table holds after a definition is the definition or was there before. -/
theorem Registry.mem_insertAll {c : Callable} {arities : List Nat}
    {table : List ((Text × Nat) × Callable)} {e : (Text × Nat) × Callable}
    (he : e ∈ insertAll c arities table) : e.2 = c ∨ e ∈ table := by
  unfold insertAll at he
  induction arities generalizing table with
  | nil => exact .inr he
  | cons n arities ih =>
    rcases ih he with hc | hrest
    · exact .inl hc
    rcases List.mem_cons.mp hrest with rfl | hkept
    · exact .inl rfl
    · exact .inr (List.mem_filter.mp hkept).1

/-- The mixin of an include is one of those in scope. -/
theorem Engine.exists_of_findMixin {r : Registry} {name : Text} {positional args : List Value}
    {keyword : Context} {m : Callable} (hm : findMixin r name positional keyword = some (m, args)) :
    ∃ e ∈ r.mixins, e.2 = m := by
  have hmem {arity : Nat} (hfound : r.mixin? name arity = some m) : ∃ e ∈ r.mixins, e.2 = m := by
    obtain ⟨before, after, hsplit, -⟩ := List.lookup_eq_some_iff.mp hfound
    exact ⟨((name, arity), m), by simp [hsplit], rfl⟩
  unfold findMixin at hm
  split at hm
  · next hfound =>
    cases hm
    exact hmem hfound
  split at hm
  · next hfound =>
    cases hm
    split_ifs at hfound
    exact hmem hfound
  · split_ifs at hm
    obtain ⟨found, hfound, heq⟩ := Option.map_eq_some_iff.mp hm
    cases heq
    exact hmem hfound

/-- The definitions in scope have bodies of which `P` holds. -/
structure Registry.Holds (P : Text → Prop) (r : Registry) : Prop where
  mixins : ∀ e ∈ r.mixins, P e.2.body
  functions : ∀ e ∈ r.functions, P e.2.body

/-- A change of the state of a block that has nothing to do with the fragments spawned, and if
`fine` holds defines nothing but callables whose bodies satisfy `P`. -/
structure Locals.Minor (fine : Prop) (P : Text → Prop) (u : Locals → Locals) : Prop where
  children : ∀ l c, u { l with children := c } = { u l with children := c }
  registry : ∀ l, fine → l.registry.Holds P → (u l).registry.Holds P

theorem Locals.Minor.children_eq {fine : Prop} {P : Text → Prop} {u : Locals → Locals}
    (hu : Minor fine P u) (l : Locals) : (u l).children = l.children := by
  have h := congrArg Locals.children (hu.children l l.children)
  exact h

/-- What a block needs for its expansion to be related by `E`: a body of which `P` holds if
`fine` does, and no switch that `E` does not hold of. -/
structure Block.Fits (fine : Prop) (P : Text → Prop)
    (E : Prop → Bool → ∀ {α : Type}, ExpandM α → ExpandM α → Prop) (b : Block) : Prop where
  body : ∀ body, b.body = some body → fine → P body
  debug : (splitDirective (expandShorthand b.header)).1 = of "@debug" →
    ∀ (frame : Frame) t, E fine frame.spawns (Engine.setDebug frame t) (Engine.setDebug frame t)
  option : (splitDirective (expandShorthand b.header)).1 = of "@option" →
    ∀ (frame : Frame) t, E fine frame.spawns (settleOptions frame t) (settleOptions frame t)

/-- A relation `N` between computations on a session and `E` between computations inside a
block, in a frame that spawns or does not, that go through expansion. Where they say `fine`,
they may rely on `P`, which holds of the texts expanded and of the bodies in scope. `A` is
what is known of the left engine besides. -/
structure Permeating (opts : Options) (A : Engine → Prop) (P : Text → Prop)
    (N : Prop → ∀ {α : Type}, SessionM α → SessionM α → Prop)
    (E : Prop → Bool → ∀ {α : Type}, ExpandM α → ExpandM α → Prop) : Prop where
  /-- The relation goes through evaluation. -/
  congruent : ∀ fine, Congruent (N fine)
  /-- Without fuel the left side may end earlier. -/
  exhausted : ∀ {fine : Prop} {α : Type} {y : SessionM α}, N fine (throw .exhausted) y
  halted : ∀ {fine : Prop} {spawns : Bool} {α : Type} {y : ExpandM α},
    E fine spawns (throw .exhausted) y
  report : ∀ {fine : Prop} (severity file message),
    N fine (report severity file message) (report severity file message)
  count : ∀ {fine : Prop}, N fine (modify fun s => { s with userFunctions := s.userFunctions + 1 })
    (modify fun s => { s with userFunctions := s.userFunctions + 1 })
  /-- A call is one deeper while it lasts, and an imbalance in it is an error of the call. -/
  call : ∀ {fine : Prop} {en en' : Engine} {fn : Callable} {args : List Entry} {scope : Scope},
    N fine (en.functionResult fn args scope) (en'.functionResult fn args scope) →
    N fine (en.callFunction fn args scope) (en'.callFunction fn args scope)
  /-- A value may be remembered. -/
  expression : ∀ {fine : Prop} {en en' : Engine} {scope : Scope} {t : Text},
    N fine (evalText (en.env opts.functions scope) t)
      (evalText (en'.env opts.functions scope) t) →
    N fine (en.evaluateExpr opts scope t) (en'.evaluateExpr opts scope t)
  pure : ∀ {fine : Prop} {spawns : Bool} {α : Type} (a : α), E fine spawns (pure a) (pure a)
  throw : ∀ {fine : Prop} {spawns : Bool} {α : Type} (e : Halt),
    E fine spawns (throw e : ExpandM α) (throw e)
  bind : ∀ {fine : Prop} {spawns : Bool} {α β : Type} {x y : ExpandM α} {f g : α → ExpandM β},
    E fine spawns x y → (∀ a, E fine spawns (f a) (g a)) → E fine spawns (x >>= f) (y >>= g)
  lift : ∀ {fine : Prop} {spawns : Bool} {α : Type} {x y : SessionM α}, N fine x y →
    E fine spawns (liftM x : ExpandM α) (liftM y)
  /-- A body that does not spawn is expanded in a state of its own. -/
  enter : ∀ {fine : Prop} {α : Type} {x y : ExpandM α} {vars : Context} {registry : Registry},
    (fine → registry.Holds P) → E fine false x y →
    N fine (x.run { vars, registry }) (y.run { vars, registry })
  /-- The fragments spawned are not read. What is read may be relied on, or not. -/
  read : ∀ {fine : Prop} {spawns : Bool} {α : Type} {f g : Locals → ExpandM α},
    (∀ l, f l = f { vars := l.vars, registry := l.registry }) →
    (∀ l, g l = g { vars := l.vars, registry := l.registry }) →
    (∀ fine' : Prop, (fine' → fine) → ∀ vars registry, (fine' → registry.Holds P) →
      E fine' spawns (f { vars, registry }) (g { vars, registry })) →
    E fine spawns (get >>= f) (get >>= g)
  modify : ∀ {fine : Prop} {spawns : Bool} {u : Locals → Locals}, Locals.Minor fine P u →
    E fine spawns (modify u) (modify u)
  spawn : ∀ {fine : Prop} {frame : Frame} {make : Pending → Pending},
    (∀ p id, make { p with id } = { make p with id }) →
    (∀ p, (make p).registry = p.registry) → (∀ p, (make p).raw = none → fine → P (make p).code) →
    E fine true (spawn frame make) (spawn frame make)
  /-- An import is expanded in place. -/
  imported : ∀ {fine : Prop} {en en' : Engine} {frame : Frame} {src : Loaded}, A en →
    (∀ fine' : Prop, (fine' → P (src.text.map (·.1))) → E fine' frame.spawns
      (en.expand { frame with file := src.file, dir := src.dir } (src.text.map (·.1)))
      (en'.expand { frame with file := src.file, dir := src.dir } (src.text.map (·.1)))) →
    E fine frame.spawns (en.expandLoaded frame src) (en'.expandLoaded frame src)
  fits : ∀ {fine : Prop} {code : Text}, (fine → P code) → ∀ b ∈ (locate code).1, b.Fits fine P E

namespace Permeating

variable {opts : Options} {A : Engine → Prop} {P : Text → Prop}
  {N : Prop → ∀ {α : Type}, SessionM α → SessionM α → Prop}
  {E : Prop → Bool → ∀ {α : Type}, ExpandM α → ExpandM α → Prop} {fine : Prop} {spawns : Bool}
  {α β : Type}

/-- Engines between which the relation holds. -/
structure Carries (A : Engine → Prop) (P : Text → Prop)
    (N : Prop → ∀ {α : Type}, SessionM α → SessionM α → Prop)
    (E : Prop → Bool → ∀ {α : Type}, ExpandM α → ExpandM α → Prop) (en en' : Engine) : Prop where
  known : A en
  expand : ∀ {fine : Prop} (frame : Frame) {code : Text}, (fine → P code) →
    E fine frame.spawns (en.expand frame code) (en'.expand frame code)
  evaluate : ∀ {fine : Prop} {scope : Scope}, (fine → scope.registry.Holds P) → ∀ t,
    N fine (en.evaluate scope t) (en'.evaluate scope t)

theorem ite {c : Prop} [Decidable c] {x y x' y' : ExpandM α} (hx : E fine spawns x x')
    (hy : E fine spawns y y') : E fine spawns (if c then x else y) (if c then x' else y') := by
  split_ifs
  · exact hx
  · exact hy

theorem forM (h : Permeating opts A P N E) {f g : α → ExpandM Unit}
    (hf : ∀ a, E fine spawns (f a) (g a)) (items : List α) :
    E fine spawns (items.forM f) (items.forM g) := by
  induction items with
  | nil => exact h.pure ()
  | cons a items ih =>
    change E fine spawns (f a >>= fun _ => items.forM f) (g a >>= fun _ => items.forM g)
    exact h.bind (hf a) fun _ => ih

theorem foldlM (h : Permeating opts A P N E) {f g : β → α → ExpandM β}
    (hf : ∀ b a, E fine spawns (f b a) (g b a)) (items : List α) (init : β) :
    E fine spawns (items.foldlM f init) (items.foldlM g init) := by
  induction items generalizing init with
  | nil => exact h.pure init
  | cons a items ih =>
    rw [List.foldlM_cons, List.foldlM_cons]
    exact h.bind (hf init a) fun b => ih b

/-! ### Evaluation in a session -/

section Evaluation

variable {en en' : Engine} {scope : Scope}

theorem calculate (h : Permeating opts A P N E) (hen : Carries A P N E en en')
    (hscope : fine → scope.registry.Holds P) (t : Text) :
    N fine (en.calculate scope t) (en'.calculate scope t) :=
  (h.congruent fine).calculate (hen.evaluate hscope t)

theorem resolveText (h : Permeating opts A P N E) (hen : Carries A P N E en en')
    (hscope : fine → scope.registry.Holds P) (t : Text) :
    N fine (en.resolveText scope t) (en'.resolveText scope t) :=
  (h.congruent fine).resolveText (hen.evaluate hscope) t

theorem bindArgs (h : Permeating opts A P N E) (hen : Carries A P N E en en') {registry : Registry}
    (hregistry : fine → registry.Holds P) (fn : Callable) (positional : List Value)
    (keyword : Context) :
    N fine (en.bindArgs fn positional keyword registry)
      (en'.bindArgs fn positional keyword registry) :=
  (h.congruent fine).bindArgs (fun _ => hen.evaluate hregistry) fn positional keyword

/-- The body of a function is expanded in a frame that does not spawn. -/
theorem functionResult (h : Permeating opts A P N E) (hen : Carries A P N E en en') {fn : Callable}
    (hbody : fine → P fn.body) (args : List Entry) (hscope : fine → scope.registry.Holds P) :
    N fine (en.functionResult fn args scope) (en'.functionResult fn args scope) := by
  refine (h.congruent fine).bind (h.bindArgs hen hscope fn _ _) fun bound => ?_
  have hexpand := hen.expand { spawns := false, file := scope.file, dir := fn.dir } hbody
  refine (h.congruent fine).bind (h.enter hscope hexpand) fun r => ?_
  obtain ⟨signal, l⟩ := r
  rcases signal with _ | _ | _ <;> exact (h.congruent fine).pure _

theorem callFunction (h : Permeating opts A P N E) (hen : Carries A P N E en en') {fn : Callable}
    (hbody : fine → P fn.body) (args : List Entry) (hscope : fine → scope.registry.Holds P) :
    N fine (en.callFunction fn args scope) (en'.callFunction fn args scope) :=
  h.call (h.functionResult hen hbody args hscope)

theorem evaluateWith (h : Permeating opts A P N E) (hen : Carries A P N E en en')
    (hscope : fine → scope.registry.Holds P) (t : Text) :
    N fine (en.evaluateWith opts scope t) (en'.evaluateWith opts scope t) := by
  refine (h.congruent fine).evaluateWith (hen.evaluate hscope) (fun t => h.expression ?_) t
  exact (h.congruent fine).evalIn
    (fun e he args => h.callFunction hen (fun h => (hscope h).functions e he) args hscope) _ t

theorem returnValue (h : Permeating opts A P N E) (hen : Carries A P N E en en')
    (hscope : fine → scope.registry.Holds P) (t : Text) :
    N fine (en.returnValue opts scope t) (en'.returnValue opts scope t) :=
  (h.congruent fine).returnValue (hen.evaluate hscope)
    (fun e he args => h.callFunction hen (fun h => (hscope h).functions e he) args hscope) opts t

end Evaluation

/-! ### The state of a block -/

section Directives

variable {en en' : Engine} {frame : Frame}

theorem inScope (h : Permeating opts A P N E) {f g : Scope → ExpandM α}
    (hf : ∀ fine' : Prop, (fine' → fine) → ∀ scope : Scope, (fine' → scope.registry.Holds P) →
      E fine' spawns (f scope) (g scope)) :
    E fine spawns (scopeIn frame >>= f) (scopeIn frame >>= g) := by
  have hread (f : Scope → ExpandM α) : scopeIn frame >>= f =
      (get >>= fun l : Locals => f ⟨l.vars, l.registry, frame.file⟩) := by
    rw [scopeIn, bind_assoc]
    simp only [pure_bind]
  rw [hread, hread]
  exact h.read (fun _ => rfl) (fun _ => rfl) fun fine' hfine _ _ hregistry =>
    hf fine' hfine _ hregistry

theorem minor_of_registry_eq {u : Locals → Locals}
    (hchildren : ∀ l c, u { l with children := c } = { u l with children := c })
    (hregistry : ∀ l, (u l).registry.mixins = l.registry.mixins ∧
      (u l).registry.functions = l.registry.functions) : Locals.Minor fine P u where
  children := hchildren
  registry l _ hl := by
    obtain ⟨hmixins, hfunctions⟩ := hregistry l
    exact ⟨hmixins ▸ hl.mixins, hfunctions ▸ hl.functions⟩

theorem emit (h : Permeating opts A P N E) (p : Property) : E fine spawns (emit p) (emit p) :=
  h.modify (minor_of_registry_eq (fun _ _ => rfl) fun _ => ⟨rfl, rfl⟩)

theorem bindVar (h : Permeating opts A P N E) (name : Text) (v : Value) :
    E fine spawns (bindVar name v) (bindVar name v) :=
  h.modify (minor_of_registry_eq (fun _ _ => rfl) fun _ => ⟨rfl, rfl⟩)

theorem reporting (h : Permeating opts A P N E) (severity : Severity) (file message : Text) :
    E fine spawns (liftM (Stylesheet.report severity file message) : ExpandM Unit)
      (liftM (Stylesheet.report severity file message)) :=
  h.lift (h.report severity file message)

/-! ### Directives -/

theorem valueIn (h : Permeating opts A P N E) (hen : Carries A P N E en en') (t : Text) :
    E fine spawns (en.valueIn frame t) (en'.valueIn frame t) :=
  h.inScope fun _ _ _ hscope => h.lift (h.calculate hen hscope t)

theorem textIn (h : Permeating opts A P N E) (hen : Carries A P N E en en') (t : Text) :
    E fine spawns (en.textIn frame t) (en'.textIn frame t) :=
  h.inScope fun _ _ _ hscope => h.lift (h.resolveText hen hscope t)

theorem load (h : Permeating opts A P N E) (name : Text) :
    E fine spawns (Engine.load opts frame name) (Engine.load opts frame name) := by
  unfold Engine.load
  dsimp only
  split
  · split
    · exact h.pure _
    · exact h.bind (h.reporting _ _ _) fun _ => h.pure _
  · split
    · exact h.pure _
    · exact h.bind (h.reporting _ _ _) fun _ => h.pure _

theorem importOne (h : Permeating opts A P N E) (hen : Carries A P N E en en') (name : Text) :
    E fine frame.spawns (en.importOne opts frame name) (en'.importOne opts frame name) := by
  refine h.bind (h.textIn hen name) fun t => ite (h.emit _) (h.bind (h.load _) fun src => ?_)
  cases src with
  | none => exact h.pure _
  | some src =>
    refine h.read (fun _ => rfl) (fun _ => rfl) fun _ _ _ _ _ => ite (h.pure _) ?_
    exact h.imported hen.known fun _ htext =>
      hen.expand { frame with file := src.file, dir := src.dir } htext

theorem doImport (h : Permeating opts A P N E) (hen : Carries A P N E en en') (t : Text) :
    E fine frame.spawns (en.doImport opts frame t) (en'.doImport opts frame t) :=
  ite (h.reporting _ _ _) (h.forM (fun name => h.importOne hen name) _)

theorem holds_define {r : Registry} {c : Callable} (hr : r.Holds P) (hc : P c.body) :
    (r.define c).Holds P := by
  have hinsert {table : List ((Text × Nat) × Callable)} (htable : ∀ e ∈ table, P e.2.body) :
      ∀ e ∈ Registry.insertAll c c.arities table, P e.2.body := by
    intro e he
    rcases Registry.mem_insertAll he with hec | hmem
    · exact hec ▸ hc
    · exact htable e hmem
  unfold Registry.define
  split_ifs
  · exact ⟨hr.mixins, hinsert hr.functions⟩
  · exact ⟨hinsert hr.mixins, hr.functions⟩

theorem define (h : Permeating opts A P N E) (hen : Carries A P N E en en') {body : Text}
    (hbody : fine → P body) (isFunction : Bool) (header : Text) :
    E fine spawns (en.define frame isFunction header body)
      (en'.define frame isFunction header body) := by
  refine h.bind (h.textIn hen _) fun t => ite (h.reporting _ _ _)
    (h.bind (h.modify ⟨fun _ _ => rfl, fun l h hl => holds_define hl (hbody h)⟩) fun _ => ?_)
  exact ite (h.lift h.count) (h.pure _)

theorem includeArgs (h : Permeating opts A P N E) (hen : Carries A P N E en en')
    (texts : List Text) :
    E fine spawns (en.includeArgs frame texts) (en'.includeArgs frame texts) := by
  refine h.foldlM (fun d a => ?_) _ _
  dsimp only
  split <;> exact h.bind (h.valueIn hen _) fun _ => h.pure _

/-- A mixin is expanded in place, in the frame of the include but for its directory. -/
theorem doInclude (h : Permeating opts A P N E) (hen : Carries A P N E en en') (header : Text) :
    E fine frame.spawns (en.doInclude frame header) (en'.doInclude frame header) := by
  refine h.bind (h.textIn hen _) fun t => h.bind (h.includeArgs hen _) fun args => ?_
  refine h.read (fun _ => rfl) (fun _ => rfl) fun fine' _ vars registry hregistry => ?_
  dsimp only
  split
  · exact h.reporting _ _ _
  · next m positional hfound =>
    obtain ⟨e, he, rfl⟩ := Engine.exists_of_findMixin hfound
    have hbody : fine' → P e.2.body := fun h => (hregistry h).mixins e he
    refine h.bind (h.lift (h.bindArgs hen hregistry e.2 positional args.2)) fun bound => ?_
    refine h.bind (h.modify ?_) fun _ => h.bind ?_ fun _ => h.modify ?_
    · exact minor_of_registry_eq (fun _ _ => rfl) fun _ => ⟨rfl, rfl⟩
    · exact h.bind (hen.expand { frame with dir := e.2.dir } hbody) fun _ => h.pure _
    · exact minor_of_registry_eq (fun _ _ => rfl) fun _ => ⟨rfl, rfl⟩

theorem doIf (h : Permeating opts A P N E) (hen : Carries A P N E en en') {body : Text}
    (hbody : fine → P body) (cond : Text) :
    E fine frame.spawns (en.doIf frame cond body) (en'.doIf frame cond body) :=
  h.bind (h.valueIn hen cond) fun _ =>
    ite (h.bind (hen.expand frame hbody) fun _ => h.pure _) (h.pure _)

theorem doElse (h : Permeating opts A P N E) (hen : Carries A P N E en en') {body : Text}
    (hbody : fine → P body) (prev : Branch) (rest : Text) :
    E fine frame.spawns (en.doElse frame prev rest body) (en'.doElse frame prev rest body) := by
  unfold Engine.doElse
  cases prev with
  | none => exact h.bind (h.reporting _ _ _) fun _ => h.pure _
  | taken => exact h.pure _
  | skipped =>
    dsimp only
    split
    · exact h.doIf hen hbody _
    · exact h.bind (hen.expand frame hbody) fun _ => h.pure _

/-- A loop, by induction on the items left. -/
theorem repeatBody (h : Permeating opts A P N E) (hen : Carries A P N E en en')
    {bindItem : α → ExpandM Unit} (hitem : ∀ a, E fine frame.spawns (bindItem a) (bindItem a))
    {body : Text} (hbody : fine → P body) (items : List α) :
    E fine frame.spawns (en.repeatBody frame bindItem body items)
      (en'.repeatBody frame bindItem body items) := by
  induction items with
  | nil => exact h.pure _
  | cons a items ih =>
    refine h.bind (hitem a) fun _ => h.bind (hen.expand frame hbody) fun signal => ?_
    cases signal with
    | returned v => exact h.pure _
    | done => exact ih

theorem doFor (h : Permeating opts A P N E) (hen : Carries A P N E en en') {body : Text}
    (hbody : fine → P body) (header : Text) :
    E fine frame.spawns (en.doFor frame header body) (en'.doFor frame header body) := by
  unfold Engine.doFor
  split
  · exact h.bind (h.reporting _ _ _) fun _ => h.pure _
  · refine h.bind (h.valueIn hen _) fun first => h.bind (h.valueIn hen _) fun last => ?_
    split
    · exact h.repeatBody hen (fun _ => h.bindVar _ _) hbody _
    · exact h.bind (h.reporting _ _ _) fun _ => h.pure _

theorem bindMember (h : Permeating opts A P N E) (header : EachHeader) (item : Entry) :
    E fine spawns (Engine.bindMember header item) (Engine.bindMember header item) := by
  unfold Engine.bindMember
  cases header.second with
  | none => exact ite (h.bind (h.bindVar _ _) fun _ => h.bindVar _ _) (h.bindVar _ _)
  | some second =>
    let both : ExpandM Unit := do
      Stylesheet.bindVar header.first (.plain (without item.1 [ch '$']))
      Stylesheet.bindVar second item.2
    have hboth : E fine spawns both both := h.bind (h.bindVar _ _) fun _ => h.bindVar _ _
    exact ite (h.bind (h.bindVar _ _) fun _ => hboth) hboth

theorem doEach (h : Permeating opts A P N E) (hen : Carries A P N E en en') {body : Text}
    (hbody : fine → P body) (header : Text) :
    E fine frame.spawns (en.doEach frame header body) (en'.doEach frame header body) := by
  unfold Engine.doEach
  split
  · exact h.bind (h.reporting _ _ _) fun _ => h.pure _
  · next header _ =>
    refine h.inScope fun fine' hfine scope hscope =>
      h.bind (h.lift (hen.evaluate hscope _)) fun r => ?_
    have hloop : E fine' frame.spawns
        (en.repeatBody frame (Engine.bindMember header) body r.1.toEntries.2)
        (en'.repeatBody frame (Engine.bindMember header) body r.1.toEntries.2) :=
      h.repeatBody hen (fun item => h.bindMember header item) (fun h => hbody (hfine h)) _
    exact ite (h.bind (h.reporting _ _ _) fun _ => hloop) hloop

theorem bindBlock (h : Permeating opts A P N E) (hen : Carries A P N E en en') {body : Text}
    (hbody : fine → P body) :
    E fine frame.spawns (en.bindBlock frame body) (en'.bindBlock frame body) := by
  refine h.bind (hen.expand { frame with binds := true } hbody) fun signal => ?_
  cases signal <;> exact h.pure _

theorem media (h : Permeating opts A P N E) (hen : Carries A P N E en en') {body : Text}
    (hbody : fine → P body) (query : Text) :
    E fine frame.spawns (en.media frame query body) (en'.media frame query body) := by
  unfold Engine.media
  split_ifs with hspawns
  · rw [hspawns]
    exact h.bind (h.textIn hen query) fun t =>
      h.spawn (fun _ _ => rfl) (fun _ => rfl) fun _ _ => hbody
  · exact h.pure _

theorem rawBlock (h : Permeating opts A P N E) (hen : Carries A P N E en en')
    (header body : Text) :
    E fine frame.spawns (en.rawBlock frame header body) (en'.rawBlock frame header body) := by
  unfold Engine.rawBlock
  let raw (en : Engine) (t : Text) : ExpandM Unit := do
    let body := trim (← en.textIn frame body)
    Stylesheet.spawn frame fun p => { p with selectors := [], raw := some ⟨collapse t, body⟩ }
  have hraw (t : Text) : E fine true (raw en t) (raw en' t) :=
    h.bind (h.textIn hen body) fun t =>
      h.spawn (fun _ _ => rfl) (fun _ => rfl) fun _ hp => nomatch hp
  split_ifs with hspawns hselectors
  · rw [hspawns]
    exact h.bind (h.textIn hen header) fun t => h.bind (h.reporting _ _ _) fun _ => hraw t
  · rw [hspawns]
    exact h.bind (h.textIn hen header) fun t => hraw t
  · exact h.pure _

theorem blockDirective (h : Permeating opts A P N E) (hen : Carries A P N E en en') {body : Text}
    (hbody : fine → P body) (prev : Branch) (code name header : Text) :
    E fine frame.spawns (en.blockDirective frame prev code name header body)
      (en'.blockDirective frame prev code name header body) := by
  unfold Engine.blockDirective
  refine ite ?_ (ite ?_ (ite ?_ (ite ?_ (ite ?_ (ite ?_ (ite ?_ (ite ?_ ?_)))))))
  · exact h.doIf hen hbody name
  · exact h.doElse hen hbody prev name
  · exact h.bind (h.doFor hen hbody name) fun _ => h.pure _
  · exact h.bind (h.doEach hen hbody name) fun _ => h.pure _
  · exact h.bind (h.bindBlock hen hbody) fun _ => h.pure _
  · exact h.bind (h.define hen hbody false name) fun _ => h.pure _
  · exact h.bind (h.define hen hbody true name) fun _ => h.pure _
  · exact h.bind (h.media hen hbody name) fun _ => h.pure _
  · exact h.bind (h.rawBlock hen header body) fun _ => h.pure _

/-- The directives that take no account of a body; both engines have the same. Only the two
switches need a block that fits. -/
theorem lineDirective? (h : Permeating opts A P N E) (hen : Carries A P N E en en') {b : Block}
    (hb : b.Fits fine P E) {code : Text}
    (hcode : (splitDirective (expandShorthand b.header)).1 = code) (name : Text) :
    Option.Rel (fun x y => E fine frame.spawns x y) (en.lineDirective? opts frame code name)
      (en'.lineDirective? opts frame code name) := by
  have hdone {x y : ExpandM Unit} (hx : E fine frame.spawns x y) :
      Option.Rel (fun x y => E fine frame.spawns x y) (some (do x; return Signal.done))
        (some (do y; return Signal.done)) :=
    .some (h.bind hx fun _ => h.pure _)
  have hite {c : Prop} [Decidable c] {o o' p p' : Option (ExpandM Signal)}
      (ho : c → Option.Rel (fun x y => E fine frame.spawns x y) o p)
      (ho' : Option.Rel (fun x y => E fine frame.spawns x y) o' p') :
      Option.Rel (fun x y => E fine frame.spawns x y) (if c then o else o')
        (if c then p else p') := by
    split_ifs with hc
    · exact ho hc
    · exact ho'
  -- both sides look for the directives in the same order
  unfold Engine.lineDirective?
  refine hite (fun _ => ?_) (hite (fun _ => ?_) (hite (fun _ => ?_) (hite (fun hdebug => ?_)
    (hite (fun hoption => ?_) (hite (fun _ => ?_) (hite (fun _ => ?_) (hite (fun _ => ?_)
      (hite (fun _ => ?_) .none))))))))
  · exact hdone (h.bind (h.valueIn hen name) fun _ => h.reporting _ _ _)
  · exact hdone (h.bind (h.valueIn hen name) fun _ => h.reporting _ _ _)
  · exact hdone (h.emit _)
  · exact hdone (hb.debug (hcode.trans hdebug) frame name)
  · exact hdone (hb.option (hcode.trans hoption) frame name)
  · exact hdone (h.doImport hen name)
  · refine hdone (h.bind (h.textIn hen name) fun _ => h.modify ?_)
    exact minor_of_registry_eq (fun _ _ => rfl) fun _ => ⟨rfl, rfl⟩
  · exact hdone (h.doInclude hen name)
  · refine .some (h.inScope fun _ _ scope hscope => ?_)
    exact h.bind (h.lift (h.returnValue hen hscope name)) fun _ => h.pure _

theorem directive (h : Permeating opts A P N E) (hen : Carries A P N E en en') {b : Block}
    (hb : b.Fits fine P E) (prev : Branch) :
    E fine frame.spawns (en.directive opts frame prev (expandShorthand b.header) b.body)
      (en'.directive opts frame prev (expandShorthand b.header) b.body) := by
  unfold Engine.directive
  dsimp only
  have hline : Option.Rel (fun x y => E fine frame.spawns x y)
      (en.lineDirective? opts frame _ (splitDirective (expandShorthand b.header)).2)
      (en'.lineDirective? opts frame _ _) :=
    h.lineDirective? hen hb rfl _
  generalize en.lineDirective? opts frame _ _ = o at hline ⊢
  generalize en'.lineDirective? opts frame _ _ = o' at hline ⊢
  cases hline with
  | some hx => exact h.bind hx fun _ => h.pure _
  | none =>
    dsimp only
    split
    · next body hbody => exact h.blockDirective hen (hb.body body hbody) prev _ _ _
    · exact h.bind (h.bind (h.textIn hen _) fun _ => h.emit _) fun _ => h.pure _

/-! ### Blocks -/

theorem assignVar (h : Permeating opts A P N E) (hen : Carries A P N E en en') (name t : Text) :
    E fine spawns (en.assignVar frame name t) (en'.assignVar frame name t) := by
  have hbind {fine : Prop} (t : Text) : E fine spawns (en.valueIn frame t >>= Stylesheet.bindVar name)
      (en'.valueIn frame t >>= Stylesheet.bindVar name) :=
    h.bind (h.valueIn hen t) fun v => h.bindVar name v
  exact ite (h.read (fun _ => rfl) (fun _ => rfl) fun _ _ _ _ _ => ite (hbind _) (h.pure _))
    (hbind t)

theorem declaration (h : Permeating opts A P N E) (hen : Carries A P N E en en') (header : Text) :
    E fine spawns (en.declaration frame header) (en'.declaration frame header) := by
  unfold Engine.declaration
  split
  · exact h.bind (h.textIn hen header) fun t => ite (h.emit _) (h.pure _)
  · refine ite (h.pure _) (ite (h.assignVar hen _ _) ?_)
    exact h.bind (h.textIn hen _) fun t => h.bind (h.valueIn hen _) fun v => h.emit _

theorem namespaceBlock (h : Permeating opts A P N E) (hen : Carries A P N E en en') {body : Text}
    (hbody : fine → P body) (name : Text) :
    E fine frame.spawns (en.namespaceBlock frame name body) (en'.namespaceBlock frame name body) :=
  h.bind (h.textIn hen name) fun t =>
    hen.expand { frame with stem := frame.stem ++ trim t ++ [ch '-'] } hbody

theorem nest (h : Permeating opts A P N E) (hen : Carries A P N E en en') {body : Text}
    (hbody : fine → P body) (header : Text) :
    E fine frame.spawns (en.nest frame header body) (en'.nest frame header body) := by
  unfold Engine.nest
  split_ifs with hself hspawns
  · exact hen.expand frame hbody
  · exact h.pure _
  · have hspawns : frame.spawns = true := by simpa using hspawns
    rw [hspawns]
    refine h.bind (h.textIn hen header) fun t => ite (h.bind (h.spawn ?_ ?_ ?_) fun _ => ?_) ?_
    · exact fun _ _ => rfl
    · exact fun _ => rfl
    · exact fun _ _ => hbody
    · exact h.pure _
    · exact h.pure _

/-- What one block does. -/
theorem block (h : Permeating opts A P N E) (hen : Carries A P N E en en') {b : Block}
    (hb : b.Fits fine P E) (prev : Branch) :
    E fine frame.spawns (en.block opts frame prev b) (en'.block opts frame prev b) := by
  refine ite (h.directive hen hb prev) ?_
  split
  · exact h.bind (h.declaration hen _) fun _ => h.pure _
  · next body hbody =>
    have hP := hb.body body hbody
    refine ite (h.bind (h.namespaceBlock hen hP _) fun _ => h.pure _) ?_
    exact ite (h.bind (h.nest hen hP _) fun _ => h.pure _) (h.pure _)

/-- The blocks of a text, by induction on those left. -/
theorem blocks (h : Permeating opts A P N E) (hen : Carries A P N E en en')
    (failure : Option StructuralError) {found : List Block} (hfound : ∀ b ∈ found, b.Fits fine P E)
    (prev : Branch) :
    E fine frame.spawns (en.blocks opts frame failure prev found)
      (en'.blocks opts frame failure prev found) := by
  induction found generalizing prev with
  | nil =>
    cases failure with
    | none => exact h.pure _
    | some e => exact h.throw _
  | cons b rest ih =>
    obtain ⟨hb, hrest⟩ := List.forall_mem_cons.mp hfound
    refine h.bind (h.block hen hb prev) fun r => ?_
    obtain ⟨signal, branch⟩ := r
    cases signal with
    | returned v => exact h.pure _
    | done => exact ih hrest branch

end Directives

/-- The relation holds of expansion and evaluation with some fuel and with more of it, by
induction on the fuel. -/
theorem engine (h : Permeating opts A P N E) (hA : ∀ fuel, A (engine opts fuel)) (fuel more : Nat) :
    Carries A P N E (engine opts fuel) (engine opts (fuel + more)) := by
  induction fuel with
  | zero => exact ⟨hA 0, fun _ _ _ => h.halted, fun _ _ => h.exhausted⟩
  | succ fuel ih =>
    rw [Nat.succ_add]
    exact ⟨hA (fuel + 1), fun frame code hcode => h.blocks ih _ (h.fits hcode) _,
      fun hscope t => h.evaluateWith ih hscope t⟩

end Permeating

end Stylesheet
