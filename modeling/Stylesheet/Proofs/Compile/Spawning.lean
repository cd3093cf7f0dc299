import Stylesheet.Proofs.Compile.Coupling
import Stylesheet.Proofs.Compile.Permeation

/-!
# Spawned fragments

What a block adds to the fragments that wait, and what evaluation leaves alone. Fragments
are numbered when they are spawned, by a counter of the session. This file accounts for
that counter: a block numbers the fragments it spawns one after another and appends them
in that order to those spawned before it, and nothing else moves the counter. Evaluating
an expression does not, whatever the functions it calls have in their bodies, since these
are expanded in a frame that does not spawn.

The account also follows the depth of calls, which is back where it was when a
computation ends, unless that runs out of fuel.

## Main definitions

* `Numbered` — fragments numbered one after another
* `Barren` — computations on a session that number no fragment
* `Bears` — computations inside a block that number what they spawn
* `Fertile` — engines that do so

## Main results

* `permeating_bears` — the account goes through expansion
* `Fertile.callFunction` — calling a function of the stylesheet numbers no fragment
* `fertile_engine` — the account holds of expansion and evaluation with any fuel
* `numbered_of_expandPending` — the children of a fragment are numbered as spawned
-/

namespace Stylesheet

open Text

variable {α β : Type}

/-! ### Numbers of fragments -/

/-- These fragments took the numbers from `n` up to `m`, in order. -/
structure Numbered (n : Nat) (new : List Pending) (m : Nat) : Prop where
  ids : new.map (·.id) = List.range' n new.length
  next : m = n + new.length

theorem numbered_nil (n : Nat) : Numbered n [] n := ⟨rfl, rfl⟩

theorem numbered_singleton (p : Pending) : Numbered p.id [p] (p.id + 1) := ⟨rfl, rfl⟩

theorem Numbered.append {n m k : Nat} {new new' : List Pending} (h : Numbered n new m)
    (h' : Numbered m new' k) : Numbered n (new ++ new') k := by
  obtain ⟨hids, rfl⟩ := h
  obtain ⟨hids', rfl⟩ := h'
  constructor
  · rw [List.map_append, hids, hids', List.length_append, List.range'_append_1]
  · rw [List.length_append, Nat.add_assoc]

/-! ### Computations on a session -/

/-- An ending at which no fragment was numbered and, unless the fuel is used up, calls are
as deep as at the start. -/
structure Quiet (s : Session) (o : Except Halt α × Session) : Prop where
  nextId : o.2.nextId = s.nextId
  depth : o.1 ≠ .error .exhausted → o.2.depth = s.depth

/-- A computation that numbers no fragment, however it ends. -/
def Barren (x : SessionM α) : Prop := ∀ s, Quiet s (outcome x s)

theorem barren_pure (a : α) : Barren (pure a) := fun _ => ⟨rfl, fun _ => rfl⟩

theorem barren_throw (e : Halt) : Barren (throw e : SessionM α) := fun _ => ⟨rfl, fun _ => rfl⟩

theorem barren_get : Barren (get : SessionM Session) := fun _ => ⟨rfl, fun _ => rfl⟩

theorem barren_modify {u : Session → Session} (hid : ∀ s, (u s).nextId = s.nextId)
    (hdepth : ∀ s, (u s).depth = s.depth) : Barren (modify u) :=
  fun s => ⟨hid s, fun _ => hdepth s⟩

theorem barren_report (severity : Severity) (file message : Text) :
    Barren (report severity file message) :=
  barren_modify (fun _ => rfl) fun _ => rfl

namespace Barren

theorem bind {x : SessionM α} {f : α → SessionM β} (h : Barren x) (hf : ∀ a, Barren (f a)) :
    Barren (x >>= f) := by
  intro s
  have hx := h s
  rw [outcome_bind]
  generalize outcome x s = o at hx ⊢
  obtain ⟨r, s₁⟩ := o
  cases r with
  | error e =>
    refine ⟨hx.nextId, fun he => hx.depth fun h => he ?_⟩
    cases h
    rfl
  | ok a =>
    have hrest := hf a s₁
    have hdepth : s₁.depth = s.depth := hx.depth (by simp)
    exact ⟨hrest.nextId.trans hx.nextId, fun he => (hrest.depth he).trans hdepth⟩

end Barren

/-- Numbering no fragment goes through evaluation. -/
theorem congruent_barren : Congruent fun x _ => Barren x := ⟨barren_pure, Barren.bind⟩

/-! ### Computations inside a block -/

/-- An ending of a block that spawned the fragments numbered meanwhile. In a frame that
does not spawn no fragment was numbered, even if the block fails. -/
structure Yields (spawns : Bool) (s : Session) (l : Locals)
    (o : Except Halt (α × Locals) × Session) : Prop where
  children : ∀ a l', o.1 = .ok (a, l') →
    ∃ new, l'.children = l.children ++ new ∧ Numbered s.nextId new o.2.nextId
  nextId : spawns = false → o.2.nextId = s.nextId
  depth : o.1 ≠ .error .exhausted → o.2.depth = s.depth

/-- A computation inside a block that spawns the fragments it numbers. -/
def Bears (spawns : Bool) (x : ExpandM α) : Prop :=
  ∀ l s, Yields spawns s l (outcome (x.run l) s)

variable {spawns : Bool}

/-- Leaving the fragments alone is one way to end. -/
theorem Quiet.yields {s : Session} {l : Locals} {o : Except Halt (α × Locals) × Session}
    (h : Quiet s o) (hchildren : ∀ a l', o.1 = .ok (a, l') → l'.children = l.children) :
    Yields spawns s l o where
  children a l' ho := by
    refine ⟨[], by simp [hchildren a l' ho], ?_⟩
    rw [h.nextId]
    exact numbered_nil _
  nextId _ := h.nextId
  depth := h.depth

theorem bears_pure (a : α) : Bears spawns (pure a) := by
  intro l s
  refine (barren_pure (a, l) s).yields fun b l' h => ?_
  cases h
  rfl

theorem bears_throw (e : Halt) : Bears spawns (throw e : ExpandM α) :=
  fun l s => (@barren_throw (α × Locals) e s).yields fun _ _ h => by cases h

theorem bears_modify {u : Locals → Locals} (hu : ∀ l, (u l).children = l.children) :
    Bears spawns (modify u) := by
  intro l s
  refine (barren_pure ((), u l) s).yields fun b l' h => ?_
  cases h
  exact hu l

theorem bears_getSession_bind {f : Session → ExpandM α}
    (h : ∀ l s, Yields spawns s l (outcome ((f s).run l) s)) :
    Bears spawns (getThe Session >>= f) :=
  fun l s => h l s

namespace Bears

theorem bind {x : ExpandM α} {f : α → ExpandM β} (h : Bears spawns x)
    (hf : ∀ a, Bears spawns (f a)) : Bears spawns (x >>= f) := by
  intro l s
  have hx := h l s
  change Yields spawns s l (outcome (x.run l >>= fun r => (f r.1).run r.2) s)
  rw [outcome_bind]
  generalize outcome (x.run l) s = o at hx ⊢
  obtain ⟨r, s₁⟩ := o
  cases r with
  | error e =>
    -- Nothing more runs, so nothing more is spawned and the depth is the one `x` left.
    refine ⟨fun _ _ h => ?_, hx.nextId, fun he => hx.depth fun h => he ?_⟩
    · cases h
    · cases h
      rfl
  | ok r =>
    obtain ⟨a, l₁⟩ := r
    have hrest := hf a l₁ s₁
    have hdepth : s₁.depth = s.depth := hx.depth (by simp)
    refine ⟨fun b l₂ ho => ?_, fun hspawns => ?_, fun he => (hrest.depth he).trans hdepth⟩
    · -- The numbers of the second half go on where those of the first end.
      obtain ⟨new, hnew, hnumbered⟩ := hx.children a l₁ rfl
      obtain ⟨new', hnew', hnumbered'⟩ := hrest.children b l₂ ho
      refine ⟨new ++ new', ?_, hnumbered.append hnumbered'⟩
      rw [hnew', hnew, List.append_assoc]
    · exact (hrest.nextId hspawns).trans (hx.nextId hspawns)

/-- A computation on the session alone spawns nothing. -/
theorem lift {x : SessionM α} (h : Barren x) : Bears spawns (liftM x) := by
  intro l s
  refine ((h.bind fun a => barren_pure (a, l)) s).yields fun a l' ho => ?_
  rw [outcome_bind] at ho
  generalize outcome x s = o at ho
  obtain ⟨r, s₁⟩ := o
  cases r with
  | error e => cases ho
  | ok b =>
    cases ho
    rfl

theorem forM {f : α → ExpandM Unit} (h : ∀ a, Bears spawns (f a)) (items : List α) :
    Bears spawns (items.forM f) := by
  induction items with
  | nil => exact bears_pure ()
  | cons a items ih =>
    change Bears spawns (f a >>= fun _ => items.forM f)
    exact (h a).bind fun _ => ih

end Bears

/-! ### Calls and values -/

/-- A call is one deeper while it lasts; an imbalance in the text of the function is
caught before the depth is counted down. -/
theorem Barren.callFunction {en : Engine} {fn : Callable} {args : List Entry} {scope : Scope}
    (h : Barren (en.functionResult fn args scope)) : Barren (en.callFunction fn args scope) := by
  intro s
  have hresult := h { s with depth := s.depth + 1 }
  rw [outcome_callFunction]
  split_ifs
  · exact barren_pure _ s
  generalize outcome (en.functionResult fn args scope) { s with depth := s.depth + 1 } = o
    at hresult ⊢
  obtain ⟨(e | _) | v, s₁⟩ := o
  · have hdepth : s₁.depth = s.depth + 1 := hresult.depth (by simp)
    exact ⟨hresult.nextId, fun _ => by simp [hdepth]⟩
  · -- The depth is not counted down, but nothing goes on from here.
    exact ⟨hresult.nextId, fun he => absurd rfl he⟩
  · have hdepth : s₁.depth = s.depth + 1 := hresult.depth (by simp)
    exact ⟨hresult.nextId, fun _ => by simp [hdepth]⟩

theorem Barren.evaluateExpr {en : Engine} {opts : Options} {scope : Scope} {t : Text}
    (h : Barren (evalText (en.env opts.functions scope) t)) :
    Barren (en.evaluateExpr opts scope t) := by
  refine @Congruent.evaluateExpr _ en en scope congruent_barren barren_get barren_report
    (fun t v => barren_modify ?_ ?_) opts t h
  · exact fun _ => rfl
  · exact fun _ => rfl

/-! ### The state of a block -/

theorem bears_report (severity : Severity) (file message : Text) :
    Bears spawns (liftM (report severity file message) : ExpandM Unit) :=
  .lift (barren_report severity file message)

/-- A fragment is numbered and appended in one step. -/
theorem bears_spawn {frame : Frame} {make : Pending → Pending} (hid : ∀ p, (make p).id = p.id) :
    Bears true (spawn frame make) := by
  intro l s
  refine ⟨fun a l' ho => ?_, fun h => (by cases h), fun _ => rfl⟩
  cases ho
  refine ⟨_, rfl, ?_⟩
  have hnumbered := numbered_singleton (make
    { id := s.nextId, file := frame.file, dir := frame.dir, selectors := frame.selectors,
      media := frame.media, context := l.vars, registry := l.registry })
  rw [hid] at hnumbered
  exact hnumbered

/-- Options change neither the counter nor the depth of calls. -/
theorem applyOption_eq_some {s s' : Session} {name value : Text}
    (h : s.applyOption name value = some s') : s'.nextId = s.nextId ∧ s'.depth = s.depth := by
  unfold Session.applyOption at h
  dsimp only at h
  split_ifs at h <;> cases h <;> exact ⟨rfl, rfl⟩

theorem bears_settleOption (frame : Frame) (pair : Text) :
    Bears spawns (settleOption frame pair) := by
  unfold settleOption
  split
  · exact bears_pure _
  · rename_i name value _
    refine .bind (bears_modify ?_) fun _ => bears_getSession_bind fun l s => ?_
    · exact fun _ => rfl
    cases happly : s.applyOption (lower (trim name)) (trim value) with
    | none => exact bears_report _ _ _ l s
    | some s' =>
      obtain ⟨hid, hdepth⟩ := applyOption_eq_some happly
      have hquiet : Quiet s (outcome ((set s' : ExpandM PUnit).run l) s) := ⟨hid, fun _ => hdepth⟩
      refine hquiet.yields fun a l' ho => ?_
      cases ho
      rfl

theorem bears_setDebug (frame : Frame) (t : Text) : Bears spawns (Engine.setDebug frame t) := by
  refine .bind (.lift (barren_modify ?_ ?_)) fun _ => bears_report _ _ _
  · exact fun _ => rfl
  · exact fun _ => rfl

/-- An import is expanded in place: what it spawns belongs to the block around it. -/
theorem bears_expandLoaded {en : Engine} {frame : Frame} {src : Loaded}
    (h : Bears frame.spawns
      (en.expand { frame with file := src.file, dir := src.dir } (src.text.map (·.1)))) :
    Bears frame.spawns (en.expandLoaded frame src) := by
  intro l s
  have hx := h
    { l with registry := { l.registry with imported := src.file :: l.registry.imported } }
    { s with imports := src.text.map (·.1) :: s.imports }
  rw [outcome_expandLoaded]
  generalize outcome _ { s with imports := src.text.map (·.1) :: s.imports } = o at hx ⊢
  obtain ⟨(e | _) | ⟨signal, l'⟩, s'⟩ := o
  · exact ⟨fun _ _ h => (nomatch h), hx.nextId, fun _ => hx.depth (by simp)⟩
  · exact ⟨fun _ _ h => (nomatch h), hx.nextId, fun he => absurd rfl he⟩
  · refine ⟨fun _ _ ho => ?_, hx.nextId, fun _ => hx.depth (by simp)⟩
    cases ho
    exact hx.children signal l' rfl

/-! ### Engines -/

/-- Numbering fragments only to spawn them goes through expansion, whatever the text. -/
theorem permeating_bears (opts : Options) :
    Permeating opts (fun _ => True) (fun _ => True) (fun _ _ x _ => Barren x)
      (fun _ spawns _ x _ => Bears spawns x) where
  congruent _ := congruent_barren
  exhausted := barren_throw _
  halted := bears_throw _
  report := barren_report
  count := barren_modify (fun _ => rfl) fun _ => rfl
  call := Barren.callFunction
  expression := Barren.evaluateExpr
  pure := bears_pure
  throw := bears_throw
  bind := Bears.bind
  lift := Bears.lift
  enter _ hx s := ⟨(hx _ s).nextId rfl, (hx _ s).depth⟩
  read hlocal _ hf := by
    intro l s
    have hread := hf False False.elim l.vars l.registry False.elim l s
    rw [← hlocal] at hread
    exact hread
  modify hu := bears_modify hu.children_eq
  spawn hid _ _ := bears_spawn fun p => by
    have h := congrArg Pending.id (hid p p.id)
    exact h
  imported _ hexpand := bears_expandLoaded (hexpand False False.elim)
  fits _ _ _ := ⟨fun _ _ _ => trivial, fun _ frame t => bears_setDebug frame t,
    fun _ frame _ => .forM (bears_settleOption frame) _⟩

/-- An engine that numbers fragments only to spawn them, and none while it evaluates. -/
structure Fertile (en : Engine) : Prop where
  expand : ∀ frame code, Bears frame.spawns (en.expand frame code)
  evaluate : ∀ scope t, Barren (en.evaluate scope t)

namespace Fertile

variable {en : Engine}

theorem carries (h : Fertile en) :
    Permeating.Carries (fun _ => True) (fun _ => True) (fun _ _ x _ => Barren x)
      (fun _ spawns _ x _ => Bears spawns x) en en :=
  ⟨trivial, fun frame code _ => h.expand frame code, fun _ t => h.evaluate _ t⟩

theorem calculate (h : Fertile en) (scope : Scope) (t : Text) : Barren (en.calculate scope t) :=
  @Congruent.calculate _ en en scope congruent_barren t (h.evaluate scope t)

/-- Calling a function numbers no fragment: its body is expanded in a frame that does not
spawn. -/
theorem callFunction (h : Fertile en) (fn : Callable) (args : List Entry) (scope : Scope) :
    Barren (en.callFunction fn args scope) :=
  (permeating_bears {}).callFunction h.carries (fun h : False => h.elim) args False.elim

end Fertile

/-- Expansion and evaluation account for the fragments they number, with any fuel. -/
theorem fertile_engine (opts : Options) (fuel : Nat) : Fertile (engine opts fuel) := by
  have hcarries := (permeating_bears opts).engine (fun _ => trivial) fuel 0
  exact ⟨fun frame code => hcarries.expand frame fun h : False => h.elim,
    fun scope t => hcarries.evaluate (fun h : False => h.elim) t⟩

/-- The children of a fragment are numbered as they are spawned. -/
theorem numbered_of_expandPending {en : Engine} {order : Nat} {p : Pending} {f : Fragment}
    {children : List Pending} {s s' : Session} (h : Fertile en)
    (hout : outcome (expandPending en order p) s = (.ok (f, children), s')) :
    Numbered s.nextId children s'.nextId := by
  rcases expandPending_cases hout with ⟨-, -, rfl, rfl⟩ | ⟨-, signal, l, hexpand, -, rfl⟩
  · exact numbered_nil _
  · have hyields := h.expand p.frame p.code p.locals s
    rw [hexpand] at hyields
    obtain ⟨new, hnew, hnumbered⟩ := hyields.children signal l rfl
    rw [hnew]
    exact hnumbered

end Stylesheet
