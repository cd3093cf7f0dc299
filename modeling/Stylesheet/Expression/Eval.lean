import Stylesheet.Expression.Parser
import Stylesheet.Function
import Stylesheet.Diagnostic

/-!
# Evaluating expressions

An expression is evaluated left to right against an environment, which knows the values
of variables and calls functions. The text of a variable is itself evaluated, unless it
is quoted or the variable is being evaluated already; text that fails to evaluate
stands for itself. A call that no function answers to, or whose arguments cannot be
evaluated, stands for its source with the variables replaced.

The number of variables bounds how deep variables are evaluated inside each other, so
evaluation always ends if the calls do.

## Main definitions

* `Env` — variables and functions
* `CallError`, `EvalError` — why an expression has no value
* `Expr.eval` — the value of a tree
* `evalText` — the value of a text
-/

namespace Stylesheet

open Text

/-- Why a call has no result: the function refuses its arguments, functions call each
other too deep, or the text of the function is unbalanced. -/
inductive CallError where
  | refused (cause : FunctionError)
  | tooDeep (name : Text)
  | unbalanced (cause : SourceError)
  deriving DecidableEq

/-- The wording of a failed call. -/
def CallError.message : CallError → Text
  | .refused e => e.message
  | .tooDeep name => of "call depth exceeded: " ++ name
  | .unbalanced e => e.message

/-- Why an expression has no value. -/
inductive EvalError where
  | malformed (cause : Malformed)
  | arith (cause : ArithError)
  | call (name : Text) (cause : CallError)
  deriving DecidableEq

/-- The wording of a failed evaluation. -/
def EvalError.message : EvalError → Text
  | .malformed m => m.message
  | .arith e => e.message
  | .call name e => name ++ of "(): " ++ e.message

/-- What an expression is evaluated against. The variables carry their sigil; `call`
gives nothing if no function answers to the name and arguments. -/
structure Env (m : Type → Type) where
  vars : List (Text × Value)
  call : Text → List Entry → m (Except CallError (Option Value))

/-- The value of a variable. -/
def Env.var? {m : Type → Type} (env : Env m) (name : Text) : Option Value := env.vars.lookup name

section

variable {m : Type → Type} [Monad m]

/-- A piece of a call's source, a variable replaced by its value. -/
def Piece.expand (env : Env m) : Piece → Text
  | .text t => t
  | .var name => ((env.var? name).map Value.text).getD name

/-- The source of a call with its variables replaced. -/
def passThrough (env : Env m) (name : Text) (source : List Piece) : Value :=
  .plain (name ++ ch '(' :: source.flatMap (Piece.expand env) ++ [ch ')'])

/-- The value of an operator; both operands of `and` and `or` have been evaluated. -/
def BinaryOp.apply (op : BinaryOp) (a b : Value) : Except EvalError Value :=
  match op with
  | .or => .ok (if a.truthy then a else b)
  | .and => .ok (if a.truthy then b else a)
  | .compare op => .ok (.bool (a.compare op b))
  | .arith op => (a.arith op b).mapError .arith

/-- The value of a call whose arguments are known, or unknown. -/
def callValue (env : Env m) (name : Text) (args : Except EvalError (List Entry))
    (complete : Bool) (source : List Piece) : m (Except EvalError Value) := do
  match args, complete with
  | .ok args, true =>
    match ← env.call name args with
    | .error e => return .error (.call name e)
    | .ok (some v) => return .ok v
    | .ok none => return .ok (passThrough env name source)
  | _, _ => return .ok (passThrough env name source)

mutual

/-- The value of a tree, `valueOf` giving the values of variables. -/
def Expr.eval (env : Env m) (valueOf : Text → m Value) : Expr → m (Except EvalError Value)
  | .constant v => return .ok v
  | .numeral n => return .ok (.number n)
  | .var name => return .ok (← valueOf name)
  | .call name args complete source => do
    callValue env name (← evalEntries env valueOf args) complete source
  | .group e => e.eval env valueOf
  | .negate e => do
    match ← e.eval env valueOf with
    | .ok v => return v.negate.mapError .arith
    | .error x => return .error x
  | .not e => do
    match ← e.eval env valueOf with
    | .ok v => return .ok (.bool !v.truthy)
    | .error x => return .error x
  | .bang e => do
    match ← e.eval env valueOf with
    | .ok (.bool b) => return .ok (.bool !b)
    | .ok v => return .ok (.plain (ch '!' :: v.text))
    | .error x => return .error x
  | .binary op left right => do
    match ← left.eval env valueOf with
    | .error x => return .error x
    | .ok a =>
      match ← right.eval env valueOf with
      | .error x => return .error x
      | .ok b => return op.apply a b
  | .ratio left right => do
    match ← left.eval env valueOf with
    | .error x => return .error x
    | .ok a =>
      match ← right.eval env valueOf with
      | .error x => return .error x
      | .ok b => return .ok (.plain (a.text ++ ch '/' :: b.text))
  | .list sep items => do
    match ← evalEntries env valueOf items with
    | .ok vs => return .ok (.list sep vs)
    | .error x => return .error x
  | .thenFail e cause => do
    match ← e.eval env valueOf with
    | .ok _ => return .error (.malformed cause)
    | .error x => return .error x
  | .fail cause => return .error (.malformed cause)

/-- The values of members, left to right up to the first that fails. -/
def evalEntries (env : Env m) (valueOf : Text → m Value) :
    List (Text × Expr) → m (Except EvalError (List (Text × Value)))
  | [] => return .ok []
  | (k, e) :: rest => do
    match ← e.eval env valueOf with
    | .error x => return .error x
    | .ok v =>
      match ← evalEntries env valueOf rest with
      | .error x => return .error x
      | .ok vs => return .ok ((k, v) :: vs)

end

/-- The value of a text with the variables' values given. -/
def evalTextWith (env : Env m) (valueOf : Text → m Value) (source : Text) :
    m (Except EvalError Value) :=
  match Expr.parse source with
  | .error cause => return .error (.malformed cause)
  | .ok e => e.eval env valueOf

/-- The value of a variable while those in `resolving` are being evaluated. -/
def variableValue (env : Env m) : (budget : Nat) → (resolving : List Text) → Text → m Value
  | 0, _, name => return (env.var? name).getD (.plain name)
  | budget + 1, resolving, name =>
    match env.var? name with
    | none => return .plain name
    | some (.string t none) => do
      if resolving.contains name then return .plain t
      else match ← evalTextWith env (variableValue env budget (name :: resolving)) t with
        | .ok v => return v
        | .error _ => return .plain t
    | some v => return v

/-- The value of a text. -/
def evalText (env : Env m) (source : Text) : m (Except EvalError Value) :=
  evalTextWith env (variableValue env (env.vars.length + 1) []) source

end

end Stylesheet
