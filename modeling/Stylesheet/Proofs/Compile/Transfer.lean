import Stylesheet.Proofs.Compile.Preorder

/-!
# Expansion elsewhere in a compilation

A text is expanded in the middle of a compilation: fragments were numbered before it, others
spawned, diagnostics reported, texts imported and functions defined. This file shows that
none of this matters to what comes of it. From two sessions that agree in how deep calls are,
in whether debugging is on and in the style of the output, a text is expanded to the same but
for the numbers of the fragments it spawns, reports the same, and leaves sessions that agree.

Values are not remembered here; that this makes no difference is shown elsewhere.

## Main definitions

* `Session.Agrees` — sessions that look the same to the expansion of a text
* `Session.Alongside` — sessions reached side by side
* `Movable`, `Portable` — computations that do the same elsewhere
* `Fragment.unranked` — a fragment without its number and place

## Main results

* `permeating_portable` — doing the same elsewhere goes through expansion
* `SpawnLog.Walk.elsewhere` — waiting fragments are expanded to the same elsewhere
-/

namespace Stylesheet

open Text

variable {α β : Type}

/-! ### Sessions -/

namespace Session

/-- Sessions that look the same to the expansion of a text. -/
structure Agrees (s t : Session) : Prop where
  depth : s.depth = t.depth
  debug : s.debug = t.debug
  style : s.style = t.style

/-- Sessions `s'` and `t'` reached from `s` and `t` side by side: they agree, and the same was
reported on the way. -/
structure Alongside (s t s' t' : Session) : Prop where
  agrees : s'.Agrees t'
  reported : ∃ new, s'.diagnostics = s.diagnostics ++ new ∧ t'.diagnostics = t.diagnostics ++ new

theorem Agrees.alongside {s t : Session} (h : s.Agrees t) : s.Alongside t s t :=
  ⟨h, [], (List.append_nil _).symm, (List.append_nil _).symm⟩

theorem Alongside.trans {s t s' t' s'' t'' : Session} (h : s.Alongside t s' t')
    (h' : s'.Alongside t' s'' t'') : s.Alongside t s'' t'' := by
  obtain ⟨new, hs, ht⟩ := h.reported
  obtain ⟨new', hs', ht'⟩ := h'.reported
  refine ⟨h'.agrees, new ++ new', ?_, ?_⟩
  · rw [hs', hs, List.append_assoc]
  · rw [ht', ht, List.append_assoc]

/-- An option says the same to sessions that agree. -/
theorem Agrees.applyOption {s t : Session} (h : s.Agrees t) (name value : Text) :
    Option.Rel (fun s' t' => s.Alongside t s' t') (s.applyOption name value)
      (t.applyOption name value) := by
  have hstyle := h.style
  simp only [Session.style, Style.mk.injEq] at hstyle
  obtain ⟨hcompress, hshort, hreverse⟩ := hstyle
  unfold Session.applyOption
  dsimp only
  split_ifs
  · refine .some ⟨⟨h.depth, h.debug, ?_⟩, h.alongside.reported⟩
    simp only [Session.style, hcompress, hshort, hreverse]
  · refine .some ⟨⟨h.depth, h.debug, ?_⟩, h.alongside.reported⟩
    simp only [Session.style, hcompress, hshort, hreverse]
  · refine .some ⟨⟨h.depth, h.debug, ?_⟩, h.alongside.reported⟩
    simp only [Session.style, hcompress, hshort, hreverse]
  · exact .none

end Session

/-! ### Computations on a session -/

/-- A computation that does the same from sessions that agree. -/
def Movable (x : SessionM α) : Prop :=
  ∀ s t : Session, s.Agrees t →
    (outcome x t).1 = (outcome x s).1 ∧ s.Alongside t (outcome x s).2 (outcome x t).2

theorem movable_pure (a : α) : Movable (pure a) := fun _ _ h => ⟨rfl, h.alongside⟩

theorem movable_throw (e : Halt) : Movable (throw e : SessionM α) := fun _ _ h => ⟨rfl, h.alongside⟩

/-- A change that leaves alone what sessions agree in. -/
theorem movable_modify {u : Session → Session} (hdepth : ∀ s, (u s).depth = s.depth)
    (hdebug : ∀ s, (u s).debug = s.debug) (hstyle : ∀ s, (u s).style = s.style)
    (hreported : ∀ s, (u s).diagnostics = s.diagnostics) : Movable (modify u) := by
  intro s t h
  refine ⟨rfl, ⟨?_, ?_, ?_⟩, [], ?_, ?_⟩
  · exact (hdepth s).trans (h.depth.trans (hdepth t).symm)
  · exact (hdebug s).trans (h.debug.trans (hdebug t).symm)
  · exact (hstyle s).trans (h.style.trans (hstyle t).symm)
  · exact (hreported s).trans (List.append_nil _).symm
  · exact (hreported t).trans (List.append_nil _).symm

theorem movable_report (severity : Severity) (file message : Text) :
    Movable (report severity file message) :=
  fun _ _ h => ⟨rfl, ⟨h.depth, h.debug, h.style⟩, _, rfl, rfl⟩

namespace Movable

theorem bind {x : SessionM α} {f : α → SessionM β} (h : Movable x) (hf : ∀ a, Movable (f a)) :
    Movable (x >>= f) := by
  intro s t hst
  have hx := h s t hst
  rw [outcome_bind, outcome_bind]
  generalize outcome x s = o at hx ⊢
  generalize outcome x t = o' at hx ⊢
  obtain ⟨r, s₁⟩ := o
  obtain ⟨r', t₁⟩ := o'
  obtain ⟨rfl, halong⟩ := hx
  cases r' with
  | error e => exact ⟨rfl, halong⟩
  | ok a =>
    obtain ⟨hsame, halong'⟩ := hf a s₁ t₁ halong.agrees
    exact ⟨hsame, halong.trans halong'⟩

/-- The depth of calls is the same on both sides, before the call and in it. -/
theorem callFunction {en : Engine} {fn : Callable} {args : List Entry} {scope : Scope}
    (h : Movable (en.functionResult fn args scope)) : Movable (en.callFunction fn args scope) := by
  intro s t hst
  have hdeeper : Session.Agrees { s with depth := s.depth + 1 } { t with depth := s.depth + 1 } :=
    ⟨rfl, hst.debug, hst.style⟩
  have hresult := h _ _ hdeeper
  rw [outcome_callFunction, outcome_callFunction, ← hst.depth]
  split_ifs
  · exact ⟨rfl, hst.alongside⟩
  generalize outcome (en.functionResult fn args scope) { s with depth := s.depth + 1 } = o
    at hresult ⊢
  generalize outcome (en.functionResult fn args scope) { t with depth := s.depth + 1 } = o'
    at hresult ⊢
  obtain ⟨r, s₁⟩ := o
  obtain ⟨r', t₁⟩ := o'
  obtain ⟨rfl, ⟨hdepth, hdebug, hstyle⟩, hreported⟩ := hresult
  have hback : Session.Agrees { s₁ with depth := s₁.depth - 1 } { t₁ with depth := t₁.depth - 1 } :=
    ⟨congrArg (· - 1) hdepth, hdebug, hstyle⟩
  rcases r' with (e | _) | v
  · exact ⟨rfl, hback, hreported⟩
  · exact ⟨rfl, ⟨hdepth, hdebug, hstyle⟩, hreported⟩
  · exact ⟨rfl, hback, hreported⟩

end Movable

theorem movable_reportFailure (file t : Text) (e : EvalError) :
    Movable (Engine.reportFailure file t e) := by
  intro s s' hst
  unfold Engine.reportFailure
  split
  · exact movable_report _ _ _ s s' hst
  · simp only [outcome_bind, outcome_get, ← hst.debug]
    split_ifs
    · exact movable_report _ _ _ s s' hst
    · exact movable_pure _ s s' hst

/-- Without values remembered, an expression is evaluated whatever happened before. -/
theorem Movable.evaluateExpr {en : Engine} {opts : Options} (hcache : opts.disableCache = true)
    {scope : Scope} {t : Text} (h : Movable (evalText (en.env opts.functions scope) t)) :
    Movable (en.evaluateExpr opts scope t) := by
  have hforget (n : Nat) : Engine.cacheable opts.disableCache n t = false := by
    rw [hcache]
    rfl
  intro s s' hst
  unfold Engine.evaluateExpr
  simp only [hforget, Bool.false_eq_true, if_false, outcome_bind (get : SessionM Session),
    outcome_get]
  refine h.bind (fun r => ?_) s s' hst
  cases r with
  | error e => exact (movable_reportFailure _ t e).bind fun _ => movable_pure _
  | ok v => exact movable_pure _

theorem congruent_movable : Congruent fun x _ => Movable x := ⟨movable_pure, Movable.bind⟩

/-! ### Computations inside a block -/

/-- A waiting fragment but for its number. -/
def Pending.unnumbered (p : Pending) : Pending := { p with id := 0 }

/-- Two endings of a block that had spawned the fragments `c` and `c'`: the same, but for the
numbers of the fragments spawned since. -/
inductive Twins (spawns : Bool) (c c' : List Pending) :
    Except Halt (α × Locals) → Except Halt (α × Locals) → Prop
  | error (e : Halt) : Twins spawns c c' (.error e) (.error e)
  | ok (a : α) (l : Locals) (new new' : List Pending)
      (same : new'.map Pending.unnumbered = new.map Pending.unnumbered)
      (none : spawns = false → new = []) :
      Twins spawns c c' (.ok (a, { l with children := c ++ new }))
        (.ok (a, { l with children := c' ++ new' }))

theorem twins_refl {spawns : Bool} (a : α) (l : Locals) (c c' : List Pending) :
    Twins spawns c c' (.ok (a, { l with children := c })) (.ok (a, { l with children := c' })) := by
  have htwins : Twins spawns c c' _ _ := .ok a l [] [] rfl fun _ => rfl
  rwa [List.append_nil, List.append_nil] at htwins

/-- A computation inside a block that does the same from sessions that agree, whatever was
spawned before. -/
def Portable (spawns : Bool) (x : ExpandM α) : Prop :=
  ∀ (l : Locals) (c c' : List Pending) (s t : Session), s.Agrees t →
    Twins spawns c c' (outcome (x.run { l with children := c }) s).1
        (outcome (x.run { l with children := c' }) t).1 ∧
      s.Alongside t (outcome (x.run { l with children := c }) s).2
        (outcome (x.run { l with children := c' }) t).2

variable {spawns : Bool}

theorem portable_pure (a : α) : Portable spawns (pure a) :=
  fun _ _ _ _ _ hst => ⟨twins_refl a _ _ _, hst.alongside⟩

theorem portable_throw (e : Halt) : Portable spawns (throw e : ExpandM α) :=
  fun _ _ _ _ _ hst => ⟨.error e, hst.alongside⟩

namespace Portable

theorem bind {x : ExpandM α} {f : α → ExpandM β} (h : Portable spawns x)
    (hf : ∀ a, Portable spawns (f a)) : Portable spawns (x >>= f) := by
  intro l c c' s t hst
  have hx := h l c c' s t hst
  change Twins spawns c c' (outcome (x.run _ >>= fun r => (f r.1).run r.2) s).1
      (outcome (x.run _ >>= fun r => (f r.1).run r.2) t).1 ∧
    s.Alongside t (outcome (x.run _ >>= fun r => (f r.1).run r.2) s).2
      (outcome (x.run _ >>= fun r => (f r.1).run r.2) t).2
  rw [outcome_bind, outcome_bind]
  generalize outcome (x.run { l with children := c }) s = o at hx ⊢
  generalize outcome (x.run { l with children := c' }) t = o' at hx ⊢
  obtain ⟨r, s₁⟩ := o
  obtain ⟨r', t₁⟩ := o'
  obtain ⟨htwins, halong⟩ := hx
  cases htwins with
  | error e => exact ⟨.error e, halong⟩
  | ok a l₁ new new' hsame hnone =>
    obtain ⟨htwins', halong'⟩ := hf a l₁ (c ++ new) (c' ++ new') s₁ t₁ halong.agrees
    -- What the two halves spawned is put one after the other, on both sides alike.
    refine ⟨?_, halong.trans halong'⟩
    dsimp only
    generalize (outcome ((f a).run { l₁ with children := c ++ new }) s₁).1 = o at htwins' ⊢
    generalize (outcome ((f a).run { l₁ with children := c' ++ new' }) t₁).1 = o' at htwins' ⊢
    cases htwins' with
    | error e => exact .error e
    | ok b l₂ later later' hsame' hnone' =>
      rw [List.append_assoc, List.append_assoc]
      refine .ok b l₂ _ _ ?_ fun h => ?_
      · rw [List.map_append, List.map_append, hsame, hsame']
      · rw [hnone h, hnone' h, List.append_nil]

/-- A computation on the session alone leaves the block as it is. -/
theorem lift {x : SessionM α} (h : Movable x) : Portable spawns (liftM x : ExpandM α) := by
  intro l c c' s t hst
  have hx := h s t hst
  change Twins spawns c c' (outcome (x >>= fun a => pure (a, _)) s).1
      (outcome (x >>= fun a => pure (a, _)) t).1 ∧
    s.Alongside t (outcome (x >>= fun a => pure (a, _)) s).2
      (outcome (x >>= fun a => pure (a, _)) t).2
  rw [outcome_bind, outcome_bind]
  generalize outcome x s = o at hx ⊢
  generalize outcome x t = o' at hx ⊢
  obtain ⟨r, s₁⟩ := o
  obtain ⟨r', t₁⟩ := o'
  obtain ⟨rfl, halong⟩ := hx
  cases r' with
  | error e => exact ⟨.error e, halong⟩
  | ok a => exact ⟨twins_refl a l c c', halong⟩

/-- What does not spawn is the same from the start. -/
theorem enter {x : ExpandM α} (h : Portable false x) (vars : Context) (registry : Registry) :
    Movable (x.run { vars, registry }) := by
  intro s t hst
  obtain ⟨htwins, halong⟩ := h { vars, registry } [] [] s t hst
  refine ⟨?_, halong⟩
  generalize (outcome (x.run { vars, registry }) s).1 = o at htwins ⊢
  generalize (outcome (x.run { vars, registry }) t).1 = o' at htwins ⊢
  cases htwins with
  | error e => rfl
  | ok a l new new' hsame hnone =>
    rw [hnone rfl, List.map_nil, List.map_eq_nil_iff] at hsame
    rw [hnone rfl, hsame]

end Portable

theorem portable_modify {u : Locals → Locals}
    (hu : ∀ l c, u { l with children := c } = { u l with children := c }) :
    Portable spawns (modify u) := by
  intro l c c' s t hst
  refine ⟨?_, hst.alongside⟩
  change Twins spawns c c' (.ok ((), u _)) (.ok ((), u _))
  rw [hu l c, hu l c']
  exact twins_refl () (u l) c c'

/-- The number of a fragment is all that depends on the session. -/
theorem portable_spawn {frame : Frame} {make : Pending → Pending}
    (hid : ∀ p id, make { p with id } = { make p with id }) : Portable true (spawn frame make) := by
  intro l c c' s t hst
  let child (id : Nat) : Pending :=
    { id, file := frame.file, dir := frame.dir, selectors := frame.selectors,
      media := frame.media, context := l.vars, registry := l.registry }
  have hunnumbered (id : Nat) : (make (child id)).unnumbered = (make (child 0)).unnumbered :=
    (congrArg Pending.unnumbered (hid (child 0) id)).trans rfl
  refine ⟨.ok () l [make (child s.nextId)] [make (child t.nextId)] ?_ fun h => (by cases h), ?_⟩
  · rw [List.map_singleton, List.map_singleton, hunnumbered, hunnumbered s.nextId]
  · exact ⟨⟨hst.depth, hst.debug, hst.style⟩, hst.alongside.reported⟩

theorem portable_expandLoaded {en : Engine} {frame : Frame} {src : Loaded}
    (h : Portable frame.spawns
      (en.expand { frame with file := src.file, dir := src.dir } (src.text.map (·.1)))) :
    Portable frame.spawns (en.expandLoaded frame src) := by
  intro l c c' s t hst
  -- Both sessions remember the file before it is entered, which the relation does not look at.
  have hrecorded : Session.Agrees { s with imports := src.text.map (·.1) :: s.imports }
      { t with imports := src.text.map (·.1) :: t.imports } := ⟨hst.depth, hst.debug, hst.style⟩
  have hx := h
    { l with registry := { l.registry with imported := src.file :: l.registry.imported } }
    c c' _ _ hrecorded
  rw [outcome_expandLoaded, outcome_expandLoaded]
  generalize outcome _ { s with imports := src.text.map (·.1) :: s.imports } = o at hx ⊢
  generalize outcome _ { t with imports := src.text.map (·.1) :: t.imports } = o' at hx ⊢
  obtain ⟨r, s₁⟩ := o
  obtain ⟨r', t₁⟩ := o'
  obtain ⟨htwins, hagrees, hreported⟩ := hx
  cases htwins with
  | error e => rcases e with e | _ <;> exact ⟨.error _, hagrees, hreported⟩
  | ok signal l₁ new new' hsame hnone => exact ⟨.ok () l₁ new new' hsame hnone, hagrees, hreported⟩

theorem portable_settleOption (frame : Frame) (pair : Text) :
    Portable spawns (settleOption frame pair) := by
  unfold settleOption
  split
  · exact portable_pure _
  · next name value _ =>
    refine .bind (portable_modify ?_) fun _ => ?_
    · exact fun _ _ => rfl
    intro l c c' s t hst
    have happly := hst.applyOption (lower (trim name)) (trim value)
    rw [outcome_run_getThe_bind, outcome_run_getThe_bind]
    generalize s.applyOption (lower (trim name)) (trim value) = o at happly ⊢
    generalize t.applyOption (lower (trim name)) (trim value) = o' at happly ⊢
    cases happly with
    | none => exact Portable.lift (movable_report _ _ _) l c c' s t hst
    | some halong => exact ⟨twins_refl _ l c c', halong⟩

theorem portable_setDebug (frame : Frame) (t : Text) :
    Portable spawns (Engine.setDebug frame t) := by
  refine .bind (.lift fun _ _ h => ?_) fun _ => .lift (movable_report _ _ _)
  exact ⟨rfl, ⟨h.depth, rfl, h.style⟩, h.alongside.reported⟩

/-- Doing the same elsewhere goes through expansion, whatever the text. -/
theorem permeating_portable {opts : Options} (hcache : opts.disableCache = true) :
    Permeating opts (fun _ => True) (fun _ => True) (fun _ _ x _ => Movable x)
      (fun _ spawns _ x _ => Portable spawns x) where
  congruent _ := congruent_movable
  exhausted := movable_throw _
  halted := portable_throw _
  report := movable_report
  count := movable_modify (fun _ => rfl) (fun _ => rfl) (fun _ => rfl) fun _ => rfl
  call := Movable.callFunction
  expression := Movable.evaluateExpr hcache
  pure := portable_pure
  throw := portable_throw
  bind := Portable.bind
  lift := Portable.lift
  enter _ hx := hx.enter _ _
  read := by
    intro _ spawns _ f _ hlocal _ hf l c c' s t hst
    have hread := hf False False.elim l.vars l.registry False.elim l c c' s t hst
    change Twins spawns c c' (outcome ((f { l with children := c }).run _) s).1
        (outcome ((f { l with children := c' }).run _) t).1 ∧
      s.Alongside t (outcome ((f { l with children := c }).run _) s).2
        (outcome ((f { l with children := c' }).run _) t).2
    rw [hlocal { l with children := c }, hlocal { l with children := c' }]
    exact hread
  modify hu := portable_modify hu.children
  spawn hid _ _ := portable_spawn hid
  imported _ hexpand := portable_expandLoaded (hexpand False False.elim)
  fits _ _ _ := by
    refine ⟨fun _ _ _ => trivial, fun _ frame => portable_setDebug frame, fun _ frame t => ?_⟩
    unfold settleOptions
    induction split (ch ',') t with
    | nil => exact portable_pure _
    | cons pair rest ih => exact (portable_settleOption frame pair).bind fun _ => ih

/-! ### Waiting fragments -/

/-- A fragment without its number and place. -/
def Fragment.unranked (f : Fragment) : Fragment := { f with id := 0, position := 0, order := 0 }

/-- An engine that expands every text to the same elsewhere. -/
def Engine.Portable (en : Engine) : Prop :=
  ∀ frame code, Stylesheet.Portable frame.spawns (en.expand frame code)

theorem portable_engine {opts : Options} (hcache : opts.disableCache = true) (fuel : Nat) :
    (engine opts fuel).Portable := by
  have hcarries := (permeating_portable hcache).engine (fun _ => trivial) fuel 0
  exact fun frame _ => hcarries.expand frame fun _ : False => trivial

/-- A fragment is expanded to the same, whatever its number and its turn. -/
theorem expandPending_elsewhere {en : Engine} (hen : en.Portable) {p p' : Pending}
    (hp : p'.unnumbered = p.unnumbered) {s s₁ t : Session} (hst : s.Agrees t) {order : Nat}
    {f : Fragment} {children : List Pending}
    (h : outcome (expandPending en order p) s = (.ok (f, children), s₁)) (order' : Nat) :
    ∃ f' children' t₁, outcome (expandPending en order' p') t = (.ok (f', children'), t₁) ∧
      f'.unranked = f.unranked ∧
      children'.map Pending.unnumbered = children.map Pending.unnumbered ∧
      s.Alongside t s₁ t₁ := by
  -- The two pending fragments differ in their numbers only.
  obtain ⟨id, rfl⟩ : ∃ id, p' = { p with id } := by
    cases p
    cases p'
    simp only [Pending.unnumbered, Pending.mk.injEq] at hp ⊢
    exact ⟨_, rfl, hp.2⟩
  rcases expandPending_cases h with ⟨hraw, rfl, rfl, rfl⟩ | ⟨hraw, signal, l, hexpand, rfl, rfl⟩
  · refine ⟨Pending.filled { p with id } order' p.locals, [], t, ?_, rfl, rfl, hst.alongside⟩
    rw [expandPending, if_pos hraw]
    rfl
  · obtain ⟨htwins, halong⟩ := hen p.frame p.code p.locals [] [] s t hst
    change Twins true [] [] (outcome ((en.expand p.frame p.code).run p.locals) s).1
      (outcome ((en.expand p.frame p.code).run p.locals) t).1 at htwins
    change s.Alongside t (outcome ((en.expand p.frame p.code).run p.locals) s).2
      (outcome ((en.expand p.frame p.code).run p.locals) t).2 at halong
    rw [hexpand] at htwins halong
    rcases hout : outcome ((en.expand p.frame p.code).run p.locals) t with ⟨r, t₁⟩
    rw [hout] at htwins halong
    cases htwins with
    | ok _ l new new' hsame _ =>
      exact ⟨_, new', t₁, outcome_expandPending (p := { p with id }) hraw hout order', rfl, hsame,
        halong⟩

/-- Waiting fragments are expanded to the same elsewhere. -/
theorem Walk.elsewhere {en : Engine} (hen : en.Portable) {order : Nat} {s s' t : Session}
    {queue queue' : List Pending} {log : SpawnLog} (h : Walk en order s queue log s')
    (hqueue : queue'.map Pending.unnumbered = queue.map Pending.unnumbered)
    (hst : s.Agrees t) (order' : Nat) :
    ∃ log' t', Walk en order' t queue' log' t' ∧
      log'.map (·.1.unranked) = log.map (·.1.unranked) ∧ s.Alongside t s' t' := by
  induction h generalizing t queue' order' with
  | done =>
    obtain rfl := List.map_eq_nil_iff.mp hqueue
    exact ⟨[], t, .done, rfl, hst.alongside⟩
  | @step order s s₁ s' p queue children f log hexpand hrest ih =>
    obtain ⟨p', rest', rfl, hp, hqueue⟩ := List.map_eq_cons_iff.mp hqueue
    obtain ⟨f', children', t₁, hexpand', hf, hchildren, halong⟩ :=
      expandPending_elsewhere hen hp hst hexpand order'
    -- The children are new, but they are alike but for their numbers, as the queues were.
    have hwaiting : (children' ++ rest').map Pending.unnumbered =
        (children ++ queue).map Pending.unnumbered := by
      rw [List.map_append, List.map_append, hchildren, hqueue]
    obtain ⟨log', t', hwalk, hlog, halong'⟩ := ih hwaiting halong.agrees (order' + 1)
    refine ⟨(f', children') :: log', t', .step hexpand' hwalk, ?_, halong.trans halong'⟩
    rw [List.map_cons, List.map_cons, hlog, hf]

end Stylesheet
