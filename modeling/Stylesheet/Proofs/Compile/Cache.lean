import Stylesheet.Proofs.Compile.Expansion
import Stylesheet.Proofs.Expression.Closed

/-!
# Values remembered

The value of an expression is kept for when the same text occurs again, if the text has
no variable in it and either no parenthesis or there is no function of the stylesheet
that a call could be for. This file shows that nothing depends on it: a compilation that
remembers values and one that evaluates every expression anew do the same.

What is remembered of a text is its value against the table of functions alone. A text
is looked up only where it has no other value, even if it was remembered before the first
function was defined.

## Main definitions

* `settledValue` — the value of a text against the table of functions
* `Coupling.remembering` — compilations with and without values remembered

## Main results

* `Engine.evalText_eq_of_cacheable` — a text that may be remembered has its settled value
* `Coupling.lawful_remembering` — remembering makes no difference to an expression
* `compileWith_remembering` — nor to a compilation
-/

namespace Stylesheet

open Text

/-- How the table answers a call. -/
def Table.answer (functions : Table) (name : Text) (args : List Entry) :
    Except CallError (Option Value) :=
  (functions.call name args).mapError .refused

/-- The value of a text where no variable is bound and no function is defined. -/
def settledValue (functions : Table) (t : Text) : Except EvalError Value :=
  Id.run (evalText (Env.answering functions.answer) t)

/-- Without functions in scope every call is answered by the table. -/
theorem Engine.env_call_of_none_defined {en : Engine} {functions : Table} {scope : Scope}
    (hnone : scope.registry.functions = []) (name : Text) (args : List Entry) :
    (en.env functions scope).call name args = pure (functions.answer name args) := by
  have hfunction : scope.registry.function? name args.length = none := by
    simp [Registry.function?, hnone]
  simp only [Engine.env, hfunction, Table.answer]

theorem Engine.cacheable_iff {userFunctions : Nat} {t : Text} :
    Engine.cacheable false userFunctions t = true ↔
      ch '$' ∉ t ∧ (ch '(' ∈ t → userFunctions = 0) := by
  simp only [Engine.cacheable, hasByte]
  grind

/-- A text that may be remembered has its settled value wherever it stands. -/
theorem Engine.evalText_eq_of_cacheable {en : Engine} {functions : Table} {scope : Scope}
    {userFunctions : Nat} {t : Text} (hkeep : Engine.cacheable false userFunctions t = true)
    (hnone : userFunctions = 0 → scope.registry.functions = []) :
    evalText (en.env functions scope) t = pure (settledValue functions t) := by
  obtain ⟨hsigil, hparen⟩ := Engine.cacheable_iff.mp hkeep
  refine evalText_eq_of_plain hsigil fun hcall => ?_
  exact Engine.env_call_of_none_defined (hnone (hparen hcall))

namespace Coupling

/-- A compilation that remembers values beside one that does not. What is remembered are
settled values; any text may be expanded. -/
def remembering (opts : Options) : Coupling where
  left := { opts with disableCache := false }
  right := { opts with disableCache := true }
  caches c _ := ∀ t v, c.lookup t = some v → settledValue opts.functions t = .ok v
  base _ := True

variable {opts : Options} {s : Session}

/-- A settled value may be remembered on the left. -/
theorem Related.remember {u : Session} (hu : (remembering opts).Related s u) {t : Text} {v : Value}
    (hv : settledValue opts.functions t = .ok v) :
    (remembering opts).Related { s with cache := (t, v) :: s.cache } u := by
  refine ⟨fun t' v' hfound => ?_, hu.rest⟩
  by_cases ht : t' = t
  · subst ht
    rw [List.lookup_cons_self] at hfound
    cases hfound
    exact hv
  · rw [List.lookup_cons, beq_false_of_ne ht] at hfound
    exact hu.caches t' v' hfound

@[simp] theorem remembering_left :
    (remembering opts).left = { opts with disableCache := false } := rfl

@[simp] theorem remembering_right :
    (remembering opts).right = { opts with disableCache := true } := rfl

/-- A text that may be remembered: the left side has its value from before or remembers
it, the right side evaluates it, and both find its settled value. -/
theorem alike_evaluateExpr_of_cacheable {en en' : Engine} {scope : Scope} {t : Text}
    (hscope : (remembering opts).Known s scope.registry)
    (hkeep : Engine.cacheable false s.userFunctions t = true) :
    (remembering opts).Alike s (en.evaluateExpr { opts with disableCache := false } scope t)
      (en'.evaluateExpr { opts with disableCache := true } scope t) Any := by
  have hsettled (en : Engine) : evalText (en.env opts.functions scope) t =
      pure (settledValue opts.functions t) :=
    Engine.evalText_eq_of_cacheable hkeep hscope.none_defined
  have hforget (n : Nat) : Engine.cacheable true n t = false := rfl
  refine alike_get_bind fun u hu => ?_
  simp only [hkeep, hforget, if_true, Bool.false_eq_true, if_false, hsettled, pure_bind]
  -- What is remembered is what the text is worth, so looking it up and evaluating it agree.
  cases hfound : s.cache.lookup t with
  | some v =>
    rw [hu.caches t v hfound]
    exact alike_pure trivial
  | none =>
    cases hv : settledValue opts.functions t with
    | error e => exact (Engines.reportFailure _ _ e).bind fun _ _ _ _ => alike_pure trivial
    | ok v =>
      intro u hu
      refine ⟨rfl, hu.remember hv, ⟨fun _ h => h, Nat.le_refl _⟩, fun _ _ => trivial, ?_⟩
      exact fun _ he => by cases he

/-- Remembering makes no difference to the value of an expression. -/
theorem lawful_remembering (opts : Options) : (remembering opts).Lawful where
  right_eq := rfl
  base_body _ _ := trivial
  expression := by
    intro en en' h s scope t hscope
    rw [remembering_left, remembering_right]
    by_cases hkeep : Engine.cacheable false s.userFunctions t = true
    · exact alike_evaluateExpr_of_cacheable hscope hkeep
    · have hforget (n : Nat) : Engine.cacheable true n t = false := rfl
      refine alike_get_bind fun u hu => ?_
      simp only [hkeep, hforget, Bool.false_eq_true, if_false]
      refine ((h.env hscope).evalText t).bind fun r _ _ _ => ?_
      cases r with
      | ok v => exact alike_pure trivial
      | error e => exact (Engines.reportFailure _ _ e).bind fun _ _ _ _ => alike_pure trivial

end Coupling

/-- A compilation that remembers the values of expressions does what one does that
evaluates every expression anew: the same error, or the same text and the same fragments,
and the same diagnostics in the same order. -/
theorem compileWith_remembering (fuel : Nat) (opts : Options) (source : Text) :
    compileWith fuel { opts with disableCache := false } source =
      compileWith fuel { opts with disableCache := true } source := by
  have hstart : (Coupling.remembering opts).Related
      ({ opts with disableCache := false } : Options).session
      ({ opts with disableCache := true } : Options).session :=
    ⟨fun _ _ hfound => (by cases hfound), rfl⟩
  have hends := (Coupling.lawful_remembering opts).expandSource
    (show (Coupling.remembering opts).base (normalize source) from trivial) fuel _ hstart
  rw [compileWith_eq, compileWith_eq]
  exact hends.ofExpansion_eq

end Stylesheet
