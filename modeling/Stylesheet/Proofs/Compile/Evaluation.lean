import Stylesheet.Proofs.Compile.Returning
import Stylesheet.Proofs.Compile.Spawning

/-!
# Evaluation leaves its surroundings alone

An expression can call functions of the stylesheet, and the body of a function can hold
whatever a stylesheet can: rules, definitions, imports, text that is not balanced. This file
shows that none of it gets out. A function is expanded in a state of its own, in a frame that
spawns nothing; an imbalance in it is an error of the call; and calls are as deep afterwards
as they were before.

## Main definitions

* `Contained` — computations that do not end at an imbalance
* `Undisturbed` — endings that leave the block around them as it was
* `Unspawned` — endings that add nothing to the fragments
* `Engine.callIn` — a call in a block

## Main results

* `contained_callFunction` — a call does not end at an imbalance, whatever is in the function
* `Fertile.unspawned_expand` — nor does a body in a frame that does not spawn add a fragment
* `Fertile.exists_block` — what the block of a function begins with, and what is kept of it
* `callFunction_of_definitions` — of the caller a call sees the definitions only
* `evaluation_undisturbed` — evaluation and calls leave the block around them as it was
-/

namespace Stylesheet

open Text

variable {α β : Type}

/-! ### Imbalances -/

/-- A computation that does not end at an imbalance. -/
def Contained (x : SessionM α) : Prop := ∀ s e, (outcome x s).1 ≠ .error (.unbalanced e)

theorem contained_pure (a : α) : Contained (pure a) := fun _ _ h => by cases h

theorem contained_modify (u : Session → Session) : Contained (modify u) := fun _ _ h => by cases h

theorem contained_get : Contained (get : SessionM Session) := fun _ _ h => by cases h

theorem Contained.bind {x : SessionM α} {f : α → SessionM β} (h : Contained x)
    (hf : ∀ a, Contained (f a)) : Contained (x >>= f) := by
  intro s e
  have hx := h s e
  rw [outcome_bind]
  generalize outcome x s = o at hx ⊢
  obtain ⟨r, s₁⟩ := o
  cases r with
  | error e' =>
    rintro ⟨⟩
    exact hx rfl
  | ok a => exact hf a s₁ e

/-- Not ending at an imbalance goes through evaluation. -/
theorem congruent_contained : Congruent fun x _ => Contained x :=
  ⟨contained_pure, Contained.bind⟩

/-- An imbalance is caught, and nothing else can bring one about: the handler is all there
is after the body. -/
theorem contained_callFunction (en : Engine) (fn : Callable) (args : List Entry)
    (scope : Scope) : Contained (en.callFunction fn args scope) := by
  refine contained_get.bind fun s => ?_
  by_cases hdeep : s.depth ≥ maxCallDepth
  · rw [if_pos hdeep]
    exact contained_pure _
  · rw [if_neg hdeep]
    refine (contained_modify _).bind fun _ => .bind (fun s e => ?_) fun _ =>
      (contained_modify _).bind fun _ => contained_pure _
    rw [outcome_tryCatch, outcome_bind]
    generalize outcome (en.functionResult fn args scope) s = o
    obtain ⟨r, s₁⟩ := o
    rcases r with (e' | _) | v
    · simp
    · simp
    · simp

theorem contained_evaluateExpr (en : Engine) (opts : Options) (scope : Scope) (t : Text) :
    Contained (en.evaluateExpr opts scope t) := by
  have heval : Contained (evalText (en.env opts.functions scope) t) :=
    @Congruent.evalIn _ en en scope congruent_contained
      (fun e _ args => contained_callFunction en e.2 args scope) opts.functions t
  exact @Congruent.evaluateExpr _ en en scope congruent_contained contained_get
    (fun _ _ _ => contained_modify _) (fun _ _ => contained_modify _) opts t heval

/-- Evaluation does not end at an imbalance, by induction on the fuel: what is interpolated
is evaluated with less, and calls are contained with any. -/
theorem contained_evaluate (opts : Options) (fuel : Nat) (scope : Scope) (t : Text) :
    Contained ((engine opts fuel).evaluate scope t) := by
  induction fuel generalizing t with
  | zero => exact fun _ _ h => by cases h
  | succ fuel ih =>
    exact @Congruent.evaluateWith _ (engine opts fuel) (engine opts fuel) scope
      congruent_contained ih opts (contained_evaluateExpr _ opts scope) t

/-! ### The block around -/

/-- An ending that leaves the block in which it happens, whose state was `l`, as it was. -/
structure Undisturbed (s : Session) (l : Locals) (o : Except Halt (α × Locals) × Session) :
    Prop where
  /-- No imbalance ends the block. -/
  contained : ∀ e, o.1 ≠ .error (.unbalanced e)
  /-- Variables and definitions, declarations, parents and spawned fragments are kept. -/
  locals : ∀ a l', o.1 = .ok (a, l') → l' = l
  /-- No fragment is numbered. -/
  nextId : o.2.nextId = s.nextId
  /-- Calls are as deep as before, unless the fuel is used up. -/
  depth : o.1 ≠ .error .exhausted → o.2.depth = s.depth

/-- A computation on the session is done in a block by leaving the block alone. -/
theorem Barren.undisturbed {x : SessionM α} (h : Barren x) (hx : Contained x) (l : Locals)
    (s : Session) : Undisturbed s l (outcome ((liftM x : ExpandM α).run l) s) := by
  have hquiet := h s
  have hcontained := hx s
  change Undisturbed s l (outcome (x >>= fun a => pure (a, l)) s)
  rw [outcome_bind]
  generalize outcome x s = o at hquiet hcontained ⊢
  obtain ⟨r, s₁⟩ := o
  cases r with
  | error e =>
    refine ⟨fun e' he => hcontained e' ?_, ?_, hquiet.nextId, fun he => hquiet.depth ?_⟩
    · cases he
      rfl
    · rintro a l' ⟨⟩
    · rintro ⟨⟩
      exact he rfl
  | ok a =>
    refine ⟨?_, ?_, hquiet.nextId, fun _ => hquiet.depth (by simp)⟩
    · rintro e' ⟨⟩
    · rintro b l' ⟨⟩
      rfl

/-- An ending of a block that has added nothing to the fragments, whatever else it did. -/
structure Unspawned (s : Session) (l : Locals) (o : Except Halt (α × Locals) × Session) : Prop
    extends Quiet s o where
  children : ∀ a l', o.1 = .ok (a, l') → l'.children = l.children

/-- Whatever is expanded in a frame that does not spawn adds nothing to the fragments. -/
theorem Fertile.unspawned_expand {en : Engine} (h : Fertile en) {frame : Frame}
    (hframe : frame.spawns = false) (code : Text) (l : Locals) (s : Session) :
    Unspawned s l (outcome ((en.expand frame code).run l) s) := by
  have hyields := h.expand frame code l s
  refine ⟨⟨hyields.nextId hframe, hyields.depth⟩, fun signal l' ho => ?_⟩
  obtain ⟨new, hchildren, hnumbered⟩ := hyields.children signal l' ho
  -- The fragments spawned are as many as the numbers given, and none was given.
  have hnone : new.length = 0 := by
    have hnext := hnumbered.next
    rw [hyields.nextId hframe] at hnext
    omega
  rw [hchildren, List.length_eq_zero_iff.mp hnone, List.append_nil]

/-! ### The block of a function -/

/-- The value of a function whose body ends so: what is returned, or else an empty text. -/
def Signal.result : Signal → Value
  | .returned (some v) => v
  | _ => .plain []

/-- A function that gives a value has bound its parameters and expanded its body in a block of
its own. The block begins with the parameters over the variables of the definition, with the
definitions in force where the function is called, and with nothing declared, extended or
spawned. At its end the value returned is kept of it, and no fragment is among the rest. -/
theorem Fertile.exists_block {en : Engine} (h : Fertile en) {fn : Callable} {args : List Entry}
    {scope : Scope} {s s' : Session} {v : Value}
    (hv : outcome (en.functionResult fn args scope) s = (.ok v, s')) :
    ∃ bound s₁ signal last,
      outcome (en.bindArgs fn (byPosition args) (byName args) scope.registry) s = (.ok bound, s₁) ∧
      Gives (en.expand { spawns := false, file := scope.file, dir := fn.dir } fn.body)
        ({ vars := fn.context.merge bound, registry := scope.registry }, s₁) signal (last, s') ∧
      last.children = [] ∧ v = signal.result := by
  rw [Engine.functionResult] at hv
  obtain ⟨bound, s₁, hbound, hrest⟩ := outcome_bind_eq_ok_iff.mp hv
  obtain ⟨⟨signal, last⟩, s₂, hbody, hresult⟩ := outcome_bind_eq_ok_iff.mp hrest
  -- Nothing is done after the body but to tell whether it returned a value.
  obtain ⟨rfl, rfl⟩ : v = signal.result ∧ s₂ = s' := by
    obtain _ | _ | v := signal
    all_goals
      cases hresult
      exact ⟨rfl, rfl⟩
  let frame : Frame := { spawns := false, file := scope.file, dir := fn.dir }
  let start : Locals := { vars := fn.context.merge bound, registry := scope.registry }
  have hunspawned := @h.unspawned_expand _ frame rfl fn.body start s₁
  have hbody' : outcome ((en.expand frame fn.body).run start) s₁ = (.ok (signal, last), s₂) := hbody
  refine ⟨bound, s₁, signal, last, hbound, hbody, ?_, rfl⟩
  exact hunspawned.children signal last (by rw [hbody'])

/-- Calls a function in a block. -/
def Engine.callIn (en : Engine) (frame : Frame) (fn : Callable) (args : List Entry) :
    ExpandM (Except CallError Value) := do
  en.callFunction fn args (← scopeIn frame)

/-- Of the block that calls it a function sees the definitions, and of the frame the file. In
two blocks that agree on these a call with the same arguments ends alike, whatever variables,
declarations, parents and fragments there are, and it leaves each block as it was. -/
theorem callFunction_of_definitions (en : Engine) (fn : Callable) (args : List Entry)
    {frame frame' : Frame} {l l' : Locals} (hfile : frame'.file = frame.file)
    (hregistry : l'.registry = l.registry) (s : Session) :
    ∃ (r : Except Halt (Except CallError Value)) (s' : Session),
      outcome ((en.callIn frame fn args).run l) s = (r.map (·, l), s') ∧
        outcome ((en.callIn frame' fn args).run l') s = (r.map (·, l'), s') := by
  have hcall (frame : Frame) (l : Locals) : outcome ((en.callIn frame fn args).run l) s =
      outcome (do return (← en.callFunction fn args ⟨[], l.registry, frame.file⟩, l)) s := rfl
  rw [hcall, hcall, hfile, hregistry, outcome_bind, outcome_bind]
  generalize outcome (en.callFunction fn args ⟨[], l.registry, frame.file⟩) s = o
  obtain ⟨r, s'⟩ := o
  cases r with
  | error e => exact ⟨.error e, s', rfl, rfl⟩
  | ok a => exact ⟨.ok a, s', rfl, rfl⟩

/-- Evaluating a text, and calling a function whatever its body, leave the block around them
as it was: its variables and definitions, what it has emitted and spawned, and the fragments
there are. Calls end as deep as they began, also if they fail, and expanding the body of a
function, in a frame that does not spawn, adds nothing to the fragments either. -/
theorem evaluation_undisturbed (opts : Options) (fuel : Nat) (l : Locals) (s : Session) :
    (∀ scope t, Undisturbed s l
      (outcome ((liftM ((engine opts fuel).calculate scope t) : ExpandM Value).run l) s)) ∧
    (∀ fn args scope, Undisturbed s l
      (outcome ((liftM ((engine opts fuel).callFunction fn args scope) :
        ExpandM (Except CallError Value)).run l) s)) ∧
    ∀ (frame : Frame) (code : Text),
      Unspawned s l (outcome (((engine opts fuel).expand { frame with spawns := false } code).run l)
        s) := by
  have hfertile := fertile_engine opts fuel
  refine ⟨fun scope t => ?_, fun fn args scope => ?_, fun frame code => ?_⟩
  · refine (hfertile.calculate scope t).undisturbed ?_ l s
    exact @Congruent.calculate _ (engine opts fuel) (engine opts fuel) scope congruent_contained t
      (contained_evaluate opts fuel scope t)
  · exact (hfertile.callFunction fn args scope).undisturbed
      (contained_callFunction _ fn args scope) l s
  · exact hfertile.unspawned_expand rfl code l s

end Stylesheet
