import Mathlib.Tactic.SplitIfs
import Stylesheet.Compile.Evaluate

/-!
# What goes through evaluation

Evaluating an expression puts computations one after another: variables are looked up,
functions called, and the results combined. Whatever holds of trivial computations and of
sequences therefore holds of evaluation as soon as it holds of the calls. This file shows
so once, for relations between the computations of two evaluations, such as that both end
in the same way; a property of a single computation is a relation that does not look at the
other.

## Main definitions

* `Congruent` — relations that go through sequences

## Main results

* `Congruent.evalText` — evaluating a text against environments that differ in the calls
* `Congruent.interpolate`, `Congruent.bindArgs` — what evaluates on the way
* `Congruent.evaluateExpr`, `Congruent.evaluateWith` — the values of texts
-/

namespace Stylesheet

open Text

/-- A relation between computations that holds of trivial ones, and of sequences if it holds
of their parts. -/
structure Congruent (R : ∀ {α : Type}, SessionM α → SessionM α → Prop) : Prop where
  pure : ∀ {α : Type} (a : α), R (Pure.pure a) (Pure.pure a)
  bind : ∀ {α β : Type} {x y : SessionM α} {f g : α → SessionM β},
    R x y → (∀ a, R (f a) (g a)) → R (x >>= f) (y >>= g)

namespace Congruent

variable {R : ∀ {α : Type}, SessionM α → SessionM α → Prop} {α β : Type}

theorem ite (c : Prop) [Decidable c] {x y x' y' : SessionM α} (hx : R x x') (hy : R y y') :
    R (if c then x else y) (if c then x' else y') := by
  split_ifs
  · exact hx
  · exact hy

theorem mapM (hR : Congruent R) {f g : α → SessionM β} (h : ∀ a, R (f a) (g a))
    (items : List α) : R (items.mapM f) (items.mapM g) := by
  induction items with
  | nil => exact hR.pure _
  | cons a items ih =>
    rw [List.mapM_cons, List.mapM_cons]
    exact hR.bind (h a) fun _ => hR.bind ih fun _ => hR.pure _

theorem foldlM (hR : Congruent R) {f g : β → α → SessionM β} (h : ∀ b a, R (f b a) (g b a))
    (items : List α) (init : β) : R (items.foldlM f init) (items.foldlM g init) := by
  induction items generalizing init with
  | nil => exact hR.pure _
  | cons a items ih =>
    rw [List.foldlM_cons, List.foldlM_cons]
    exact hR.bind (h init a) fun b => ih b

/-! ### Expressions -/

section Expressions

variable {vars : Context}
  {call call' : Text → List Entry → SessionM (Except CallError (Option Value))}
  {valueOf valueOf' : Text → SessionM Value}

theorem callValue (hR : Congruent R) (hcall : ∀ name args, R (call name args) (call' name args))
    (name : Text) (args : Except EvalError (List Entry)) (complete : Bool) (source : List Piece) :
    R (Stylesheet.callValue ⟨vars, call⟩ name args complete source)
      (Stylesheet.callValue ⟨vars, call'⟩ name args complete source) := by
  unfold Stylesheet.callValue
  split
  · refine hR.bind (hcall name _) fun r => ?_
    split <;> exact hR.pure _
  · exact hR.pure _

mutual

/-- The value of a tree, by its constructors. -/
theorem eval (hR : Congruent R) (hcall : ∀ name args, R (call name args) (call' name args))
    (hvalue : ∀ name, R (valueOf name) (valueOf' name)) :
    (e : Expr) → R (e.eval ⟨vars, call⟩ valueOf) (e.eval ⟨vars, call'⟩ valueOf')
  | .constant v => hR.pure _
  | .numeral n => hR.pure _
  | .fail cause => hR.pure _
  | .var name => hR.bind (hvalue name) fun _ => hR.pure _
  | .group e => by
    rw [Expr.eval, Expr.eval]
    exact eval hR hcall hvalue e
  | .call name args complete source => by
    rw [Expr.eval, Expr.eval]
    exact hR.bind (evalEntries hR hcall hvalue args) fun r => hR.callValue hcall _ r _ _
  | .negate e => by
    rw [Expr.eval, Expr.eval]
    refine hR.bind (eval hR hcall hvalue e) fun r => ?_
    cases r <;> exact hR.pure _
  | .not e => by
    rw [Expr.eval, Expr.eval]
    refine hR.bind (eval hR hcall hvalue e) fun r => ?_
    cases r <;> exact hR.pure _
  | .bang e => by
    rw [Expr.eval, Expr.eval]
    refine hR.bind (eval hR hcall hvalue e) fun r => ?_
    split <;> exact hR.pure _
  | .thenFail e cause => by
    rw [Expr.eval, Expr.eval]
    refine hR.bind (eval hR hcall hvalue e) fun r => ?_
    cases r <;> exact hR.pure _
  | .list sep items => by
    rw [Expr.eval, Expr.eval]
    refine hR.bind (evalEntries hR hcall hvalue items) fun r => ?_
    cases r <;> exact hR.pure _
  | .binary op left right => by
    rw [Expr.eval, Expr.eval]
    -- where the left side fails, the right one is not evaluated
    refine hR.bind (eval hR hcall hvalue left) fun r => ?_
    cases r with
    | error x => exact hR.pure _
    | ok a =>
      refine hR.bind (eval hR hcall hvalue right) fun r => ?_
      cases r <;> exact hR.pure _
  | .ratio left right => by
    rw [Expr.eval, Expr.eval]
    refine hR.bind (eval hR hcall hvalue left) fun r => ?_
    cases r with
    | error x => exact hR.pure _
    | ok a =>
      refine hR.bind (eval hR hcall hvalue right) fun r => ?_
      cases r <;> exact hR.pure _

theorem evalEntries (hR : Congruent R)
    (hcall : ∀ name args, R (call name args) (call' name args))
    (hvalue : ∀ name, R (valueOf name) (valueOf' name)) : (items : List (Text × Expr)) →
      R (Stylesheet.evalEntries ⟨vars, call⟩ valueOf items)
        (Stylesheet.evalEntries ⟨vars, call'⟩ valueOf' items)
  | [] => hR.pure _
  | (k, e) :: rest => by
    rw [Stylesheet.evalEntries, Stylesheet.evalEntries]
    refine hR.bind (eval hR hcall hvalue e) fun r => ?_
    cases r with
    | error x => exact hR.pure _
    | ok v =>
      refine hR.bind (evalEntries hR hcall hvalue rest) fun r => ?_
      cases r <;> exact hR.pure _

end

theorem evalTextWith (hR : Congruent R)
    (hcall : ∀ name args, R (call name args) (call' name args))
    (hvalue : ∀ name, R (valueOf name) (valueOf' name)) (t : Text) :
    R (Stylesheet.evalTextWith ⟨vars, call⟩ valueOf t)
      (Stylesheet.evalTextWith ⟨vars, call'⟩ valueOf' t) := by
  unfold Stylesheet.evalTextWith
  cases Expr.parse t with
  | error cause => exact hR.pure _
  | ok e => exact hR.eval hcall hvalue e

/-- The value of a variable, by induction on how deep variables may be evaluated inside
each other. -/
theorem variableValue (hR : Congruent R)
    (hcall : ∀ name args, R (call name args) (call' name args)) (budget : Nat)
    (resolving : List Text) (name : Text) :
    R (Stylesheet.variableValue ⟨vars, call⟩ budget resolving name)
      (Stylesheet.variableValue ⟨vars, call'⟩ budget resolving name) := by
  induction budget generalizing resolving name with
  | zero => exact hR.pure _
  | succ budget ih =>
    unfold Stylesheet.variableValue
    dsimp only [Env.var?]
    split
    · exact hR.pure _
    · refine ite _ (hR.pure _) (hR.bind (hR.evalTextWith hcall (ih _) _) fun r => ?_)
      cases r <;> exact hR.pure _
    · exact hR.pure _

theorem evalText (hR : Congruent R)
    (hcall : ∀ name args, R (call name args) (call' name args)) (t : Text) :
    R (Stylesheet.evalText ⟨vars, call⟩ t) (Stylesheet.evalText ⟨vars, call'⟩ t) :=
  hR.evalTextWith hcall (hR.variableValue hcall _ _) t

end Expressions

/-! ### Evaluation in a session -/

section Engines

variable {en en' : Engine} {scope : Scope}

theorem calculate (hR : Congruent R) {t : Text}
    (h : R (en.evaluate scope t) (en'.evaluate scope t)) :
    R (en.calculate scope t) (en'.calculate scope t) :=
  hR.bind h fun _ => hR.pure _

theorem interpolate (hR : Congruent R) (h : ∀ t, R (en.evaluate scope t) (en'.evaluate scope t))
    (t : Text) : R (en.interpolate scope t) (en'.interpolate scope t) := by
  refine hR.bind (hR.mapM (fun i => ?_) _) fun _ => hR.pure _
  cases i with
  | text t => exact hR.pure t
  | expr t => exact hR.bind (hR.calculate (h t)) fun _ => hR.pure _

theorem resolveText (hR : Congruent R) (h : ∀ t, R (en.evaluate scope t) (en'.evaluate scope t))
    (t : Text) : R (en.resolveText scope t) (en'.resolveText scope t) :=
  hR.bind (hR.interpolate h t) fun _ => hR.pure _

/-- Defaults are evaluated with the definitions that are in scope at the call. -/
theorem bindArgs (hR : Congruent R) {registry : Registry}
    (h : ∀ vars t, R (en.evaluate ⟨vars, registry, []⟩ t) (en'.evaluate ⟨vars, registry, []⟩ t))
    (fn : Callable) (positional : List Value) (keyword : Context) :
    R (en.bindArgs fn positional keyword registry)
      (en'.bindArgs fn positional keyword registry) := by
  refine hR.foldlM (fun bound p => ?_) _ _
  unfold Engine.bindDefault
  split
  · exact hR.bind (hR.calculate (h _ _)) fun _ => hR.pure _
  · exact hR.pure _

theorem env_call (hR : Congruent R)
    (hcall : ∀ e ∈ scope.registry.functions, ∀ args,
      R (en.callFunction e.2 args scope) (en'.callFunction e.2 args scope))
    (table : Table) (name : Text) (args : List Entry) :
    R ((en.env table scope).call name args) ((en'.env table scope).call name args) := by
  unfold Engine.env
  dsimp only
  split
  · next fn hfn =>
    obtain ⟨before, after, hfunctions, -⟩ := List.lookup_eq_some_iff.mp hfn
    have hmem : ((name, args.length), fn) ∈ scope.registry.functions := by simp [hfunctions]
    exact hR.bind (hcall _ hmem args) fun _ => hR.pure _
  · exact hR.pure _

/-- A text is evaluated as an expression against the definitions in scope. -/
theorem evalIn (hR : Congruent R)
    (hcall : ∀ e ∈ scope.registry.functions, ∀ args,
      R (en.callFunction e.2 args scope) (en'.callFunction e.2 args scope))
    (table : Table) (t : Text) :
    R (Stylesheet.evalText (en.env table scope) t) (Stylesheet.evalText (en'.env table scope) t) :=
  hR.evalText (hR.env_call hcall table) t

theorem returnValue (hR : Congruent R) (h : ∀ t, R (en.evaluate scope t) (en'.evaluate scope t))
    (hcall : ∀ e ∈ scope.registry.functions, ∀ args,
      R (en.callFunction e.2 args scope) (en'.callFunction e.2 args scope))
    (opts : Options) (t : Text) :
    R (en.returnValue opts scope t) (en'.returnValue opts scope t) := by
  refine ite _ (hR.bind (hR.evalIn hcall _ _) fun r => ?_) (hR.calculate (h _))
  cases r with
  | ok v => exact hR.pure v
  | error e => exact hR.calculate (h _)

/-- A failed evaluation is reported, if at all, and nothing else. -/
theorem reportFailure (hR : Congruent R) (hget : R get get)
    (hreport : ∀ severity file message,
      R (report severity file message) (report severity file message))
    (file t : Text) (e : EvalError) :
    R (Engine.reportFailure file t e) (Engine.reportFailure file t e) := by
  unfold Engine.reportFailure
  split
  · exact hreport _ _ _
  · exact hR.bind hget fun s => ite _ (hreport _ _ _) (hR.pure _)

/-- Besides what evaluation does, a value may be remembered and a failure reported. -/
theorem evaluateExpr (hR : Congruent R) (hget : R get get)
    (hreport : ∀ severity file message,
      R (report severity file message) (report severity file message))
    (hremember : ∀ t v, R (modify fun s => { s with cache := (t, v) :: s.cache })
      (modify fun s => { s with cache := (t, v) :: s.cache }))
    {opts : Options} {t : Text}
    (h : R (Stylesheet.evalText (en.env opts.functions scope) t)
      (Stylesheet.evalText (en'.env opts.functions scope) t)) :
    R (en.evaluateExpr opts scope t) (en'.evaluateExpr opts scope t) := by
  refine hR.bind hget fun s => ?_
  dsimp only
  split
  · exact hR.pure _
  refine hR.bind h fun r => ?_
  cases r with
  | error e => exact hR.bind (hR.reportFailure hget hreport _ t e) fun _ => hR.pure _
  | ok v => exact ite _ (hR.bind (hremember t v) fun _ => hR.pure _) (hR.pure _)

/-- A text without expressions is its own value. -/
theorem evaluateWith (hR : Congruent R)
    (h : ∀ t, R (en.evaluate scope t) (en'.evaluate scope t)) {opts : Options}
    (hexpr : ∀ t, R (en.evaluateExpr opts scope t) (en'.evaluateExpr opts scope t)) (t : Text) :
    R (en.evaluateWith opts scope t) (en'.evaluateWith opts scope t) :=
  hR.bind (hR.interpolate h _) fun t => ite _ (hR.pure _) (hexpr t)

end Engines

end Congruent

end Stylesheet
