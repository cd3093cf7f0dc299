import Stylesheet.Proofs.Compile.Coupling

/-!
# Coupled engines

Two engines are coupled if they expand and evaluate alike. This file goes through
everything that evaluation does with an engine, and shows that coupled engines do it
alike. What is left to a particular coupling is how the value of an expression is
remembered, and that the bodies of blocks are texts that may be expanded.

## Main definitions

* `Coupling.Engines` — coupled engines
* `Coupling.Lawful` — what a coupling has to show

## Main results

* `Coupling.Envs.evalText` — expressions have the same value in coupled environments
* `Coupling.Engines.callFunction` — coupled engines call functions alike
* `Coupling.Engines.evaluateWith` — and evaluate texts alike
-/

namespace Stylesheet

open Text

namespace Coupling

/-- Engines that expand and evaluate alike. -/
structure Engines (C : Coupling) (en en' : Engine) : Prop where
  expand : ∀ {s : Session} {frame : Frame} {code : Text}, C.Code s code →
    C.Expands s (en.expand frame code) (en'.expand frame code) Any
  evaluate : ∀ {s : Session} {scope : Scope} {t : Text}, C.Known s scope.registry →
    C.Alike s (en.evaluate scope t) (en'.evaluate scope t) Any

/-- What a coupling has to show: both sides are given the same but for the use of values
remembered, which makes no difference, and the bodies of blocks may be expanded. -/
structure Lawful (C : Coupling) : Prop where
  right_eq : C.right = { C.left with disableCache := C.right.disableCache }
  base_body : ∀ {t body : Text} {b : Block}, b ∈ (locate t).1 → b.body = some body → C.base body
  expression : ∀ {en en' : Engine}, C.Engines en en' →
    ∀ {s : Session} {scope : Scope} {t : Text}, C.Known s scope.registry →
      C.Alike s (en.evaluateExpr C.left scope t) (en'.evaluateExpr C.right scope t) Any

variable {C : Coupling} {s : Session} {en en' : Engine}

/-! ### Expressions -/

section Expressions

variable {env env' : Env SessionM} {valueOf valueOf' : Text → SessionM Value}

/-- Environments with the same variables whose calls are alike from `s` on. -/
structure Envs (C : Coupling) (s : Session) (env env' : Env SessionM) : Prop where
  vars : env.vars = env'.vars
  call : ∀ name args s', s.Later s' → C.Alike s' (env.call name args) (env'.call name args) Any

theorem Envs.mono {s' : Session} (h : C.Envs s env env') (hlater : s.Later s') :
    C.Envs s' env env' :=
  ⟨h.vars, fun name args s'' hlater' => h.call name args s'' (hlater.trans hlater')⟩

theorem Envs.passThrough (h : C.Envs s env env') (name : Text) (source : List Piece) :
    passThrough env name source = passThrough env' name source := by
  have hpiece : Piece.expand env = Piece.expand env' := by
    funext p
    cases p with
    | text t => rfl
    | var name => simp [Piece.expand, Env.var?, h.vars]
  simp [Stylesheet.passThrough, hpiece]

theorem Envs.callValue (h : C.Envs s env env') (name : Text)
    (args : Except EvalError (List Entry)) (complete : Bool) (source : List Piece) :
    C.Alike s (callValue env name args complete source) (callValue env' name args complete source)
      Any := by
  unfold Stylesheet.callValue
  rw [h.passThrough]
  split
  · refine (h.call name _ s (.refl s)).bind fun r _ _ _ => ?_
    split <;> exact alike_pure trivial
  · exact alike_pure trivial

mutual

/-- The value of a tree, case by case as it is computed: left to right, up to the first
failure. -/
theorem Envs.eval {s : Session} (h : C.Envs s env env')
    (hvalue : ∀ name s', s.Later s' → C.Alike s' (valueOf name) (valueOf' name) Any) :
    (e : Expr) → C.Alike s (e.eval env valueOf) (e.eval env' valueOf') Any
  | .constant v => alike_pure trivial
  | .numeral n => alike_pure trivial
  | .fail cause => alike_pure trivial
  | .var name => (hvalue name s (.refl s)).bind fun _ _ _ _ => alike_pure trivial
  | .group e => by
    rw [Expr.eval, Expr.eval]
    exact h.eval hvalue e
  | .call name args complete source => by
    rw [Expr.eval, Expr.eval]
    exact (h.evalEntries hvalue args).bind fun r s' hlater _ => (h.mono hlater).callValue _ _ _ _
  | .negate e => by
    rw [Expr.eval, Expr.eval]
    refine (h.eval hvalue e).bind fun r _ _ _ => ?_
    cases r <;> exact alike_pure trivial
  | .not e => by
    rw [Expr.eval, Expr.eval]
    refine (h.eval hvalue e).bind fun r _ _ _ => ?_
    cases r <;> exact alike_pure trivial
  | .bang e => by
    rw [Expr.eval, Expr.eval]
    refine (h.eval hvalue e).bind fun r _ _ _ => ?_
    split <;> exact alike_pure trivial
  | .thenFail e cause => by
    rw [Expr.eval, Expr.eval]
    refine (h.eval hvalue e).bind fun r _ _ _ => ?_
    cases r <;> exact alike_pure trivial
  | .list sep items => by
    rw [Expr.eval, Expr.eval]
    refine (h.evalEntries hvalue items).bind fun r _ _ _ => ?_
    cases r <;> exact alike_pure trivial
  | .binary op left right => by
    rw [Expr.eval, Expr.eval]
    -- the right side is evaluated in a session that is later
    refine (h.eval hvalue left).bind fun r s' hlater _ => ?_
    cases r with
    | error x => exact alike_pure trivial
    | ok a =>
      refine ((h.mono hlater).eval (fun name s'' hl => hvalue name s'' (hlater.trans hl))
        right).bind fun r _ _ _ => ?_
      cases r <;> exact alike_pure trivial
  | .ratio left right => by
    rw [Expr.eval, Expr.eval]
    refine (h.eval hvalue left).bind fun r s' hlater _ => ?_
    cases r with
    | error x => exact alike_pure trivial
    | ok a =>
      refine ((h.mono hlater).eval (fun name s'' hl => hvalue name s'' (hlater.trans hl))
        right).bind fun r _ _ _ => ?_
      cases r <;> exact alike_pure trivial

theorem Envs.evalEntries {s : Session} (h : C.Envs s env env')
    (hvalue : ∀ name s', s.Later s' → C.Alike s' (valueOf name) (valueOf' name) Any) :
    (items : List (Text × Expr)) →
      C.Alike s (evalEntries env valueOf items) (evalEntries env' valueOf' items) Any
  | [] => alike_pure trivial
  | (k, e) :: rest => by
    rw [Stylesheet.evalEntries, Stylesheet.evalEntries]
    refine (h.eval hvalue e).bind fun r s' hlater _ => ?_
    cases r with
    | error x => exact alike_pure trivial
    | ok v =>
      refine ((h.mono hlater).evalEntries (fun name s'' hl => hvalue name s'' (hlater.trans hl))
        rest).bind fun r _ _ _ => ?_
      cases r <;> exact alike_pure trivial

end

theorem Envs.evalTextWith (h : C.Envs s env env')
    (hvalue : ∀ name s', s.Later s' → C.Alike s' (valueOf name) (valueOf' name) Any) (t : Text) :
    C.Alike s (evalTextWith env valueOf t) (evalTextWith env' valueOf' t) Any := by
  unfold Stylesheet.evalTextWith
  cases Expr.parse t with
  | error cause => exact alike_pure trivial
  | ok e => exact h.eval hvalue e

/-- The value of a variable. The induction is on the budget, which bounds how deep
variables are evaluated inside each other. -/
theorem Envs.variableValue (h : C.Envs s env env') (budget : Nat) (resolving : List Text)
    (name : Text) : C.Alike s (variableValue env budget resolving name)
      (variableValue env' budget resolving name) Any := by
  induction budget generalizing s resolving name with
  | zero =>
    simp only [Stylesheet.variableValue, Env.var?, h.vars]
    exact alike_pure trivial
  | succ budget ih =>
    simp only [Stylesheet.variableValue, Env.var?, h.vars]
    split
    · exact alike_pure trivial
    · split_ifs
      · exact alike_pure trivial
      · refine (h.evalTextWith (fun n s' hlater => ih (h.mono hlater) _ n) _).bind fun r _ _ _ => ?_
        cases r <;> exact alike_pure trivial
    · exact alike_pure trivial

/-- The value of a text. -/
theorem Envs.evalText (h : C.Envs s env env') (t : Text) :
    C.Alike s (evalText env t) (evalText env' t) Any := by
  unfold Stylesheet.evalText
  rw [h.vars]
  exact h.evalTextWith (fun n s' hlater => (h.mono hlater).variableValue _ _ n) t

end Expressions

/-! ### Evaluation in a session -/

section Evaluation

variable {scope : Scope}

theorem alike_report (severity : Severity) (file message : Text) :
    C.Alike s (report severity file message) (report severity file message) Any :=
  alike_modify (fun _ _ => rfl) ⟨fun _ h => h, Nat.le_refl _⟩

theorem alike_freshId : C.Alike s freshId freshId Any := by
  refine alike_get_bind fun t ht _ _ => ?_
  have hid : t.nextId = s.nextId := by rw [ht.rest]
  have hrelated := ht.blind (u := fun s => { s with nextId := s.nextId + 1 }) fun _ _ => rfl
  exact ⟨congrArg Except.ok hid.symm, hrelated, ⟨fun _ h => h, Nat.le_refl _⟩,
    fun _ _ => trivial, fun _ he => by cases he⟩

namespace Engines

theorem calculate (h : C.Engines en en') (hscope : C.Known s scope.registry) (t : Text) :
    C.Alike s (en.calculate scope t) (en'.calculate scope t) Any :=
  (h.evaluate hscope).bind fun _ _ _ _ => alike_pure trivial

theorem interpolate (h : C.Engines en en') (hscope : C.Known s scope.registry) (t : Text) :
    C.Alike s (en.interpolate scope t) (en'.interpolate scope t) Any := by
  refine (Alike.mapM fun i _ s' hlater => ?_).bind fun _ _ _ _ => alike_pure trivial
  cases i with
  | text t => exact alike_pure trivial
  | expr t =>
    exact (h.calculate (hscope.mono hlater) t).bind fun _ _ _ _ => alike_pure trivial

theorem resolveText (h : C.Engines en en') (hscope : C.Known s scope.registry) (t : Text) :
    C.Alike s (en.resolveText scope t) (en'.resolveText scope t) Any :=
  (h.interpolate hscope t).bind fun _ _ _ _ => alike_pure trivial

theorem bindArgs (h : C.Engines en en') {registry : Registry} (hknown : C.Known s registry)
    (fn : Callable) (positional : List Value) (keyword : Context) :
    C.Alike s (en.bindArgs fn positional keyword registry)
      (en'.bindArgs fn positional keyword registry) Any := by
  refine Alike.foldlM fun bound p _ s' hlater => ?_
  unfold Engine.bindDefault
  split
  · exact (h.calculate (hknown.mono hlater) _).bind fun _ _ _ _ => alike_pure trivial
  · exact alike_pure trivial

theorem functionResult (h : C.Engines en en') {fn : Callable} (hbody : C.Code s fn.body)
    (hscope : C.Known s scope.registry) (args : List Entry) :
    C.Alike s (en.functionResult fn args scope) (en'.functionResult fn args scope) Any := by
  refine (h.bindArgs hscope _ _ _).bind fun bound s' hlater _ => ?_
  have hsound : C.Sound s' { vars := fn.context.merge bound, registry := scope.registry } :=
    ⟨hscope.mono hlater, by simp⟩
  refine (h.expand (hbody.mono hlater) _ hsound).bind fun r _ _ _ => ?_
  obtain ⟨signal, _⟩ := r
  rcases signal with _ | _ | _ <;> exact alike_pure trivial

/-- A call counts its depth up and down again. An imbalance in the text of the function
is caught and becomes an error of the call. -/
theorem callFunction (h : C.Engines en en') {fn : Callable} (hbody : C.Code s fn.body)
    (hscope : C.Known s scope.registry) (args : List Entry) :
    C.Alike s (en.callFunction fn args scope) (en'.callFunction fn args scope) Any := by
  refine alike_get_bind fun t ht => ?_
  have hdepth : t.depth = s.depth := by rw [ht.rest]
  rw [hdepth]
  split_ifs
  · exact alike_pure trivial
  have hdeeper : C.Alike s (modify fun s => { s with depth := s.depth + 1 })
      (modify fun s => { s with depth := s.depth + 1 }) Any :=
    alike_modify (fun _ _ => rfl) ⟨fun _ h => h, Nat.le_refl _⟩
  refine hdeeper.bind fun _ s₁ hlater₁ _ => ?_
  have hresult := h.functionResult (hbody.mono hlater₁) (hscope.mono hlater₁) args
  refine (Alike.tryCatch (Q := Any) (hresult.bind fun _ _ _ _ => alike_pure trivial)
    fun e s₂ _ he => ?_).bind fun r s₂ _ _ => ?_
  · cases e with
    | unbalanced e => exact alike_pure trivial
    | exhausted => exact alike_throw he
  · exact (alike_modify (fun _ _ => rfl) ⟨fun _ h => h, Nat.le_refl _⟩).bind
      fun _ _ _ _ => alike_pure trivial

theorem env (h : C.Engines en en') {table : Table} (hscope : C.Known s scope.registry) :
    C.Envs s (en.env table scope) (en'.env table scope) := by
  refine ⟨rfl, fun name args s' hlater => ?_⟩
  simp only [Engine.env]
  cases hfn : scope.registry.function? name args.length with
  | none => exact alike_pure trivial
  | some fn =>
    have hbody := hscope.code_of_function? hfn
    exact (h.callFunction (hbody.mono hlater) (hscope.mono hlater) args).bind
      fun _ _ _ _ => alike_pure trivial

theorem reportFailure (file t : Text) (e : EvalError) :
    C.Alike s (Engine.reportFailure file t e) (Engine.reportFailure file t e) Any := by
  unfold Engine.reportFailure
  split
  · exact alike_report _ _ _
  · refine alike_get_bind fun u hu => ?_
    have hdebug : u.debug = s.debug := by rw [hu.rest]
    rw [hdebug]
    split_ifs
    · exact alike_report _ _ _
    · exact alike_pure trivial

theorem evaluateWith (h : C.Engines en en') (hC : C.Lawful) (hscope : C.Known s scope.registry)
    (t : Text) :
    C.Alike s (en.evaluateWith C.left scope t) (en'.evaluateWith C.right scope t) Any := by
  refine (h.interpolate hscope _).bind fun t s' hlater _ => ?_
  split_ifs
  · exact alike_pure trivial
  · exact hC.expression h (hscope.mono hlater)

theorem returnValue (h : C.Engines en en') (hC : C.Lawful) (hscope : C.Known s scope.registry)
    (t : Text) :
    C.Alike s (en.returnValue C.left scope t) (en'.returnValue C.right scope t) Any := by
  have htable : C.right.functions = C.left.functions := by rw [hC.right_eq]
  unfold Engine.returnValue
  rw [htable]
  dsimp only
  split_ifs
  · refine ((h.env hscope).evalText _).bind fun r s' hlater _ => ?_
    cases r with
    | ok v => exact alike_pure trivial
    | error e => exact h.calculate (hscope.mono hlater) _
  · exact h.calculate hscope _

end Engines

end Evaluation

end Coupling

end Stylesheet
