import Stylesheet.Proofs.Compile.Preorder

/-!
# Settings that stay

Two directives change how the rest of a compilation goes: one sets options, the other switches
debugging. A text without them, however deep its blocks nest, leaves the settings as they are,
and so does everything it defines and spawns. An import may have them; then it was reached, and
the imports that were reached are known at the end. This file shows that settings stay unless
the text or an import that was reached has such a directive.

That imports are never forgotten holds of any text. It is shown along with the rest, and needed
for it: what is known of the imports at the end is then known of those on the way.

## Main definitions

* `Unswitched` — texts without these directives
* `Session.Keeps` — later sessions with the same settings
* `Steady`, `Steadies` — computations that keep settings

## Main results

* `permeating_steady` — keeping settings goes through expansion
* `Walk.imports_subset` — a run forgets no import
* `Walk.settings_eq` — a run keeps the settings
-/

namespace Stylesheet

open Text

variable {α β : Type}

/-! ### Texts and sessions -/

/-- A text in which no block, however deep, sets options or switches debugging. -/
inductive Unswitched : Text → Prop
  | intro {code : Text}
      (keywords : ∀ b ∈ (locate code).1,
        (splitDirective (expandShorthand b.header)).1 ∉ [of "@debug", of "@option"])
      (bodies : ∀ b ∈ (locate code).1, ∀ body, b.body = some body → Unswitched body) :
      Unswitched code

/-- A waiting fragment without such directives in its text and in what it inherits. -/
structure Pending.Unswitched (p : Pending) : Prop where
  code : p.raw = none → Stylesheet.Unswitched p.code
  registry : p.registry.Holds Stylesheet.Unswitched

namespace Session

/-- The imports reached have no such directive. -/
def Unswitched (s : Session) : Prop := ∀ t ∈ s.imports, Stylesheet.Unswitched t

/-- The settings that directives can change. -/
def settings (s : Session) : Bool × Style := (s.debug, s.style)

/-- A session later than `s` with no import forgotten. If `fine` holds, the settings are the
same unless an import that changes them was reached. -/
structure Keeps (fine : Prop) (s s' : Session) : Prop where
  imports : s.imports ⊆ s'.imports
  settings : fine → s'.Unswitched → s'.settings = s.settings

variable {fine fine' : Prop} {s s' s'' : Session}

theorem Unswitched.mono (h : s'.Unswitched) (hsub : s.imports ⊆ s'.imports) : s.Unswitched :=
  fun t ht => h t (hsub ht)

theorem keeps_refl (s : Session) : s.Keeps fine s := ⟨List.Subset.refl _, fun _ _ => rfl⟩

theorem Keeps.trans (h : s.Keeps fine s') (h' : s'.Keeps fine s'') : s.Keeps fine s'' where
  imports := List.Subset.trans h.imports h'.imports
  settings hfine hend :=
    (h'.settings hfine hend).trans (h.settings hfine (hend.mono h'.imports))

end Session

/-! ### Computations on a session -/

variable {fine : Prop}

/-- A computation that keeps the settings if `fine` holds. -/
def Steady (fine : Prop) (x : SessionM α) : Prop :=
  ∀ s : Session, s.Keeps fine (outcome x s).2

theorem steady_pure (a : α) : Steady fine (pure a) := Session.keeps_refl

theorem steady_throw (e : Halt) : Steady fine (throw e : SessionM α) := Session.keeps_refl

theorem steady_get : Steady fine (get : SessionM Session) := Session.keeps_refl

theorem steady_modify {u : Session → Session} (himports : ∀ s, (u s).imports = s.imports)
    (hsettings : ∀ s, (u s).settings = s.settings) : Steady fine (modify u) := by
  intro s
  refine ⟨?_, fun _ _ => hsettings s⟩
  change s.imports ⊆ (u s).imports
  rw [himports]
  exact List.Subset.refl _

theorem steady_report (severity : Severity) (file message : Text) :
    Steady fine (report severity file message) :=
  steady_modify (fun _ => rfl) fun _ => rfl

namespace Steady

theorem bind {x : SessionM α} {f : α → SessionM β} (h : Steady fine x)
    (hf : ∀ a, Steady fine (f a)) : Steady fine (x >>= f) := by
  intro s
  have hx := h s
  rw [outcome_bind]
  generalize outcome x s = o at hx ⊢
  obtain ⟨r, s₁⟩ := o
  cases r with
  | error e => exact hx
  | ok a => exact hx.trans (hf a s₁)

theorem callFunction {en : Engine} {fn : Callable} {args : List Entry} {scope : Scope}
    (h : Steady fine (en.functionResult fn args scope)) :
    Steady fine (en.callFunction fn args scope) := by
  intro s
  have hresult := h { s with depth := s.depth + 1 }
  rw [outcome_callFunction]
  split_ifs
  · exact Session.keeps_refl s
  generalize outcome (en.functionResult fn args scope) { s with depth := s.depth + 1 } = o
    at hresult ⊢
  obtain ⟨(e | _) | v, s₁⟩ := o <;> exact ⟨hresult.imports, hresult.settings⟩

end Steady

theorem congruent_steady (fine : Prop) : Congruent fun x _ => Steady fine x :=
  ⟨steady_pure, Steady.bind⟩

theorem Steady.evaluateExpr {en : Engine} {opts : Options} {scope : Scope} {t : Text}
    (h : Steady fine (evalText (en.env opts.functions scope) t)) :
    Steady fine (en.evaluateExpr opts scope t) := by
  refine @Congruent.evaluateExpr _ en en scope (congruent_steady fine) steady_get steady_report
    (fun t v => steady_modify ?_ ?_) opts t h
  · exact fun _ => rfl
  · exact fun _ => rfl

/-! ### Computations inside a block -/

/-- The definitions in scope and the fragments spawned have none of these directives. -/
structure Locals.Unswitched (l : Locals) : Prop where
  registry : l.registry.Holds Stylesheet.Unswitched
  children : ∀ p ∈ l.children, p.Unswitched

/-- An ending of a block that kept the settings if it started with definitions and fragments
that have none of these directives. -/
structure Steadies (fine : Prop) (s : Session) (l : Locals)
    (o : Except Halt (α × Locals) × Session) : Prop where
  keeps : s.Keeps (fine ∧ l.Unswitched) o.2
  block : fine → l.Unswitched → o.2.Unswitched → ∀ a l', o.1 = .ok (a, l') → l'.Unswitched

/-- A computation inside a block that keeps the settings if `fine` holds. -/
def SteadyIn (fine : Prop) (x : ExpandM α) : Prop :=
  ∀ l s, Steadies fine s l (outcome (x.run l) s)

/-- Keeping the state of the block is one way to end. -/
theorem Session.Keeps.steadies {s : Session} {l : Locals}
    {o : Except Halt (α × Locals) × Session} (h : s.Keeps fine o.2)
    (hblock : ∀ a l', o.1 = .ok (a, l') → l' = l) : Steadies fine s l o where
  keeps := ⟨h.imports, fun hfine => h.settings hfine.1⟩
  block _ hl _ a l' ho := hblock a l' ho ▸ hl

theorem steadyIn_pure (a : α) : SteadyIn fine (pure a) := by
  intro l s
  refine (Session.keeps_refl s).steadies fun b l' h => ?_
  cases h
  rfl

theorem steadyIn_throw (e : Halt) : SteadyIn fine (throw e : ExpandM α) :=
  fun _ s => (Session.keeps_refl s).steadies fun _ _ h => nomatch h

/-- A change that keeps the state of the block free of these directives. -/
theorem steadyIn_modify {u : Locals → Locals}
    (hu : ∀ l, fine → l.Unswitched → (u l).Unswitched) : SteadyIn fine (modify u) := by
  intro l s
  refine ⟨Session.keeps_refl s, fun hfine hl _ a l' ho => ?_⟩
  cases ho
  exact hu l hfine hl

namespace SteadyIn

theorem bind {x : ExpandM α} {f : α → ExpandM β} (h : SteadyIn fine x)
    (hf : ∀ a, SteadyIn fine (f a)) : SteadyIn fine (x >>= f) := by
  intro l s
  have hx := h l s
  change Steadies fine s l (outcome (x.run l >>= fun r => (f r.1).run r.2) s)
  rw [outcome_bind]
  generalize outcome (x.run l) s = o at hx ⊢
  obtain ⟨r, s₁⟩ := o
  cases r with
  | error e => exact ⟨hx.keeps, fun _ _ _ _ _ ho => nomatch ho⟩
  | ok r =>
    obtain ⟨a, l₁⟩ := r
    have hrest := hf a l₁ s₁
    dsimp only
    have hnext (hfine : fine) (hl : l.Unswitched)
        (hend : (outcome ((f a).run l₁) s₁).2.Unswitched) : l₁.Unswitched :=
      hx.block hfine hl (hend.mono hrest.keeps.imports) a l₁ rfl
    refine ⟨⟨List.Subset.trans hx.keeps.imports hrest.keeps.imports, fun hfine hend => ?_⟩,
      fun hfine hl hend => hrest.block hfine (hnext hfine hl hend) hend⟩
    exact (hrest.keeps.settings ⟨hfine.1, hnext hfine.1 hfine.2 hend⟩ hend).trans
      (hx.keeps.settings hfine (hend.mono hrest.keeps.imports))

theorem lift {x : SessionM α} (h : Steady fine x) : SteadyIn fine (liftM x : ExpandM α) := by
  intro l s
  refine ((h.bind fun a => steady_pure (a, l)) s).steadies fun a l' ho => ?_
  rw [outcome_bind] at ho
  generalize outcome x s = o at ho
  obtain ⟨r, s₁⟩ := o
  cases r with
  | error e => cases ho
  | ok b =>
    cases ho
    rfl

end SteadyIn

theorem steadyIn_spawn {frame : Frame} {make : Pending → Pending}
    (hregistry : ∀ p, (make p).registry = p.registry)
    (hcode : ∀ p, (make p).raw = none → fine → Unswitched (make p).code) :
    SteadyIn fine (spawn frame make) := by
  intro l s
  refine ⟨⟨List.Subset.refl _, fun _ _ => rfl⟩, fun hfine hl _ a l' ho => ?_⟩
  cases ho
  refine ⟨hl.registry, fun p hp => ?_⟩
  rcases List.mem_append.mp hp with hp | hp
  · exact hl.children p hp
  · rw [List.mem_singleton.mp hp]
    exact ⟨fun hraw => hcode _ hraw hfine, (hregistry _).symm ▸ hl.registry⟩

/-- An import is recorded before it is expanded, so what is known of the imports at the end is
known of it. -/
theorem steadyIn_expandLoaded {en : Engine} {frame : Frame} {src : Loaded}
    (h : ∀ fine' : Prop, (fine' → Unswitched (src.text.map (·.1))) → SteadyIn fine'
      (en.expand { frame with file := src.file, dir := src.dir } (src.text.map (·.1)))) :
    SteadyIn fine (en.expandLoaded frame src) := by
  intro l s
  let l₁ : Locals :=
    { l with registry := { l.registry with imported := src.file :: l.registry.imported } }
  have hx := h (fine ∧ Unswitched (src.text.map (·.1))) And.right l₁
    { s with imports := src.text.map (·.1) :: s.imports }
  rw [outcome_expandLoaded]
  generalize outcome _ { s with imports := src.text.map (·.1) :: s.imports } = o at hx ⊢
  obtain ⟨r, s'⟩ := o
  have himports : src.text.map (·.1) :: s.imports ⊆ s'.imports := hx.keeps.imports
  have hl₁ (hl : l.Unswitched) : l₁.Unswitched :=
    ⟨⟨hl.registry.mixins, hl.registry.functions⟩, hl.children⟩
  have htext (hend : s'.Unswitched) : Unswitched (src.text.map (·.1)) :=
    hend _ (himports List.mem_cons_self)
  have hkeeps : s.Keeps (fine ∧ l.Unswitched) s' :=
    ⟨fun t ht => himports (List.mem_cons_of_mem _ ht),
      fun hfine hend => hx.keeps.settings ⟨⟨hfine.1, htext hend⟩, hl₁ hfine.2⟩ hend⟩
  rcases r with (e | _) | ⟨signal, l'⟩
  · exact ⟨hkeeps, fun _ _ _ _ _ ho => nomatch ho⟩
  · exact ⟨hkeeps, fun _ _ _ _ _ ho => nomatch ho⟩
  · refine ⟨hkeeps, fun hfine hl hend a l'' ho => ?_⟩
    cases ho
    exact hx.block ⟨hfine, htext hend⟩ (hl₁ hl) hend signal l' rfl

/-- The switch of debugging, where it is no concern. -/
theorem steadyIn_setDebug (hfine : ¬fine) (frame : Frame) (t : Text) :
    SteadyIn fine (Engine.setDebug frame t) := by
  refine .bind (.lift fun s => ⟨List.Subset.refl _, fun h => absurd h hfine⟩) fun _ => ?_
  exact .lift (steady_report _ _ _)

/-- Options, where they are no concern. -/
theorem steadyIn_settleOption (hfine : ¬fine) (frame : Frame) (pair : Text) :
    SteadyIn fine (settleOption frame pair) := by
  unfold settleOption
  split
  · exact steadyIn_pure _
  · next name value _ =>
    refine .bind (steadyIn_modify fun _ h => absurd h hfine) fun _ => ?_
    intro l s
    rw [outcome_run_getThe_bind]
    cases happly : s.applyOption (lower (trim name)) (trim value) with
    | none => exact SteadyIn.lift (steady_report _ _ _) l s
    | some s' =>
      have himports : s'.imports = s.imports := by
        unfold Session.applyOption at happly
        dsimp only at happly
        split_ifs at happly <;> cases happly <;> rfl
      refine ⟨⟨?_, fun h => absurd h.1 hfine⟩, fun h => absurd h hfine⟩
      change s.imports ⊆ s'.imports
      rw [himports]
      exact List.Subset.refl _

/-- Keeping the settings goes through the expansion of texts without these directives. -/
theorem permeating_steady (opts : Options) :
    Permeating opts (fun _ => True) Unswitched (fun fine _ x _ => Steady fine x)
      (fun fine _ _ x _ => SteadyIn fine x) where
  congruent := congruent_steady
  exhausted := steady_throw _
  halted := steadyIn_throw _
  report := steady_report
  count := steady_modify (fun _ => rfl) fun _ => rfl
  call := Steady.callFunction
  expression := Steady.evaluateExpr
  pure := steadyIn_pure
  throw := steadyIn_throw
  bind := SteadyIn.bind
  lift := SteadyIn.lift
  enter hregistry hx s := by
    refine ⟨(hx _ s).keeps.imports, fun hfine => (hx _ s).keeps.settings ⟨hfine, ?_⟩⟩
    exact ⟨hregistry hfine, fun _ hp => nomatch hp⟩
  read := by
    -- what the read is relied on for is what the registry holds
    intro fine _ _ f _ hlocal _ hf l s
    have hread := hf (fine ∧ l.registry.Holds Unswitched) And.left l.vars l.registry And.right l s
    change Steadies fine s l (outcome ((f l).run l) s)
    rw [hlocal l]
    refine ⟨⟨hread.keeps.imports, fun hfine => ?_⟩, fun hfine hl => ?_⟩
    · exact hread.keeps.settings ⟨⟨hfine.1, hfine.2.registry⟩, hfine.2⟩
    · exact hread.block ⟨hfine, hl.registry⟩ hl
  modify hu := steadyIn_modify fun l hfine hl =>
    ⟨hu.registry l hfine hl.registry, (hu.children_eq l).symm ▸ hl.children⟩
  spawn _ hregistry hcode := steadyIn_spawn hregistry hcode
  imported _ hexpand := steadyIn_expandLoaded hexpand
  fits := by
    intro fine code hcode b hb
    -- a text that switches nothing has neither directive
    have hkeyword (h : (splitDirective (expandShorthand b.header)).1 ∈
        [of "@debug", of "@option"]) : ¬fine := by
      intro hfine
      cases hcode hfine with
      | intro keywords _ => exact keywords b hb h
    refine ⟨fun body hbody hfine => ?_, fun hdebug => ?_, fun hoption frame t => ?_⟩
    · cases hcode hfine with
      | intro _ bodies => exact bodies b hb body hbody
    · exact steadyIn_setDebug (hkeyword (by simp [hdebug]))
    · unfold settleOptions
      induction split (ch ',') t with
      | nil => exact steadyIn_pure _
      | cons pair rest ih =>
        exact (steadyIn_settleOption (hkeyword (by simp [hoption])) frame pair).bind fun _ => ih

/-! ### Waiting fragments -/

theorem steadyIn_engine (opts : Options) (fuel : Nat) (frame : Frame) (code : Text) :
    SteadyIn (Unswitched code) ((engine opts fuel).expand frame code) :=
  ((permeating_steady opts).engine (fun _ => trivial) fuel 0).expand frame id

variable {opts : Options} {fuel order : Nat} {s s' : Session}

/-- What one fragment does to the settings, and what it spawns. -/
theorem expandPending_keeps {p : Pending} {f : Fragment} {children : List Pending}
    (h : outcome (expandPending (engine opts fuel) order p) s = (.ok (f, children), s')) :
    s.Keeps p.Unswitched s' ∧
      (p.Unswitched → s'.Unswitched → ∀ c ∈ children, c.Unswitched) := by
  rcases expandPending_cases h with ⟨-, -, rfl, rfl⟩ | ⟨hraw, signal, l, hexpand, -, rfl⟩
  · exact ⟨Session.keeps_refl s', fun _ _ c hc => nomatch hc⟩
  · have hsteady := steadyIn_engine opts fuel p.frame p.code p.locals s
    rw [hexpand] at hsteady
    have hlocals (hp : p.Unswitched) : p.locals.Unswitched :=
      ⟨hp.registry, by simp [Pending.locals]⟩
    refine ⟨⟨hsteady.keeps.imports, fun hp => ?_⟩, fun hp hend => ?_⟩
    · exact hsteady.keeps.settings ⟨hp.code hraw, hlocals hp⟩
    · exact (hsteady.block (hp.code hraw) (hlocals hp) hend signal l rfl).children

namespace Walk

variable {queue : List Pending} {log : SpawnLog}

/-- A run forgets no import. -/
theorem imports_subset (h : Walk (engine opts fuel) order s queue log s') :
    s.imports ⊆ s'.imports := by
  induction h with
  | done => exact List.Subset.refl _
  | step hexpand _ ih => exact List.Subset.trans (expandPending_keeps hexpand).1.imports ih

/-- A run keeps the settings, unless an import that changes them was reached. -/
theorem settings_eq (h : Walk (engine opts fuel) order s queue log s')
    (hqueue : ∀ p ∈ queue, p.Unswitched) (hend : s'.Unswitched) : s'.settings = s.settings := by
  induction h with
  | done => rfl
  | step hexpand hrest ih =>
    obtain ⟨hp, hqueue⟩ := List.forall_mem_cons.mp hqueue
    obtain ⟨hkeeps, hchildren⟩ := expandPending_keeps hexpand
    have hnext := hend.mono hrest.imports_subset
    refine (ih (fun c hc => ?_) hend).trans (hkeeps.settings hp hnext)
    exact (List.mem_append.mp hc).elim (hchildren hp hnext c) (hqueue c)

end Walk

end Stylesheet
