import Stylesheet.Compile.Interpolation
import Stylesheet.Compile.Session

/-!
# Evaluation in a session

How the text of a value is evaluated while a stylesheet is compiled: interpolations
first, then the expression, with the functions of the stylesheet before the standard
ones. Text that is no expression stands for itself with its variables replaced.

Functions are expanded and the bodies of blocks evaluate, so each needs the other. The
computations here take what they need as an `Engine`, and the knot is tied where
expansion is complete.

## Main definitions

* `Engine` — expansion and evaluation
* `interpolate`, `resolveText` — text with its interpolations and references replaced
* `bindArgs` — the values of parameters
* `callFunction` — a function of the stylesheet
* `evaluateWith` — the value of a text
* `returnValue` — the value a function returns
-/

namespace Stylesheet

open Text

/-- Expansion of the blocks of a text, and evaluation of a text. Evaluation says besides
whether the text was an expression. -/
structure Engine where
  expand : Frame → Text → ExpandM Signal
  evaluate : Scope → Text → SessionM (Value × Bool)

/-- How deep functions of a stylesheet may call each other. -/
def maxCallDepth : Nat := 64

namespace Engine

/-- The value of a text. -/
def calculate (en : Engine) (scope : Scope) (t : Text) : SessionM Value := do
  return (← en.evaluate scope t).1

/-- A segment with its expression evaluated. -/
def segmentText (en : Engine) (scope : Scope) : Segment → SessionM Text
  | .text t => return t
  | .expr t => do return (← en.calculate scope t).unquoted

/-- A text with each interpolation replaced by its value. -/
def interpolate (en : Engine) (scope : Scope) (t : Text) : SessionM Text := do
  return (← (segments t).mapM (en.segmentText scope)).flatten

/-- A selector, property name or media query with its interpolations and references
replaced. -/
def resolveText (en : Engine) (scope : Scope) (t : Text) : SessionM Text := do
  return substitute scope.vars Value.unquoted (← en.interpolate scope t)

/-- The parameters that arguments give a value: by position, then by name. -/
def boundArgs (params : List Text) (positional : List Value) (keyword : Context) : Context :=
  Context.merge (Context.merge [] (params.zip positional)) keyword

/-- Gives a parameter without a value that of its default, evaluated where the function
was defined and with the parameters before it. -/
def bindDefault (en : Engine) (fn : Callable) (registry : Registry) (bound : Context) (p : Text) :
    SessionM Context := do
  match bound.lookup p, fn.defaults.lookup p with
  | none, some default =>
    return bound.set p (← en.calculate ⟨fn.context.merge bound, registry, []⟩ default)
  | _, _ => return bound

/-- The values of a callable's parameters. -/
def bindArgs (en : Engine) (fn : Callable) (positional : List Value) (keyword : Context)
    (registry : Registry) : SessionM Context :=
  fn.params.foldlM (en.bindDefault fn registry) (boundArgs fn.params positional keyword)

/-- The value a function's body returns when expanded with these arguments; an empty
text if it returns none. -/
def functionResult (en : Engine) (fn : Callable) (args : List Entry) (scope : Scope) :
    SessionM Value := do
  let positional := (args.filter fun a => a.1.isEmpty).map (·.2)
  let keyword := (args.filter fun a => !a.1.isEmpty).map fun a => (sigil a.1, a.2)
  let bound ← en.bindArgs fn positional keyword scope.registry
  let frame : Frame := { spawns := false, file := scope.file, dir := fn.dir }
  let (signal, _) ← (en.expand frame fn.body).run
    { vars := fn.context.merge bound, registry := scope.registry }
  match signal with
  | .returned (some v) => return v
  | _ => return .plain []

/-- Calls a function of the stylesheet. An imbalance in its text is an error of the
call. -/
def callFunction (en : Engine) (fn : Callable) (args : List Entry) (scope : Scope) :
    SessionM (Except CallError Value) := do
  if (← get).depth ≥ maxCallDepth then return .error (.tooDeep fn.name)
  modify fun s => { s with depth := s.depth + 1 }
  let result ← tryCatch (do return .ok (← en.functionResult fn args scope)) fun
    | .unbalanced e => return .error (.unbalanced e)
    | .exhausted => throw .exhausted
  modify fun s => { s with depth := s.depth - 1 }
  return result

/-- What expressions in a scope are evaluated against: functions of the stylesheet come
before those of the table. -/
def env (en : Engine) (functions : Table) (scope : Scope) : Env SessionM where
  vars := scope.vars
  call name args := do
    match scope.registry.function? name args.length with
    | some fn => return (← en.callFunction fn args scope).map some
    | none => return (functions.call name args).mapError .refused

/-- Reports that a text has no value: too deep a call always, other causes only when
debugging. -/
def reportFailure (file t : Text) (e : EvalError) : SessionM Unit := do
  match e with
  | .call _ (.tooDeep _) => report .error file e.message
  | _ =>
    if (← get).debug then
      report .debug file (of "cannot evaluate " ++ quoted t ++ of ": " ++ e.message)

/-- May the value of a text be kept for when it occurs again? It must not depend on
variables or on functions of the stylesheet. -/
def cacheable (disabled : Bool) (userFunctions : Nat) (t : Text) : Bool :=
  !disabled && !hasByte t (ch '$') && (userFunctions = 0 || !hasByte t (ch '('))

/-- The value of an expression, which is kept if it may be; text that is no expression
stands for itself with its variables replaced. -/
def evaluateExpr (en : Engine) (opts : Options) (scope : Scope) (t : Text) :
    SessionM (Value × Bool) := do
  let s ← get
  let keep := cacheable opts.disableCache s.userFunctions t
  match if keep then s.cache.lookup t else none with
  | some v => return (v, true)
  | none =>
    match ← evalText (en.env opts.functions scope) t with
    | .ok v =>
      if keep then modify fun s => { s with cache := (t, v) :: s.cache }
      return (v, true)
    | .error e =>
      reportFailure scope.file t e
      return (.plain (substitute scope.vars Value.text t), false)

/-- The value of a text, and whether it was plain or an expression. -/
def evaluateWith (en : Engine) (opts : Options) (scope : Scope) (t : Text) :
    SessionM (Value × Bool) := do
  let t ← en.interpolate scope (trim t)
  if isPlain t then return (.plain t, true)
  else en.evaluateExpr opts scope t

/-- The value a function returns; unlike elsewhere, plain text is an expression too. -/
def returnValue (en : Engine) (opts : Options) (scope : Scope) (t : Text) : SessionM Value := do
  let t := trim t
  if !t.isEmpty && isPlain t then
    match ← evalText (en.env opts.functions scope) t with
    | .ok v => return v
    | .error _ => en.calculate scope t
  else en.calculate scope t

end Engine

end Stylesheet
