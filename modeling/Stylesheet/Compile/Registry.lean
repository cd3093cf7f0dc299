import Stylesheet.Value
import Stylesheet.Function

/-!
# Definitions in scope

Variables, and the mixins, functions, flags and imports known at a point of a
stylesheet. A mixin or function answers to every number of arguments that its defaults
make reachable, and a later definition wins over an earlier one.

## Main definitions

* `Context` — values of variables
* `Callable` — a mixin or function
* `Registry` — the definitions in scope
* `Registry.define`, `Registry.mixin?`, `Registry.function?`
-/

namespace Stylesheet

open Text

/-- Values by variable name, sigil included, in the order of the names. -/
abbrev Context := List (Text × Value)

namespace Context

/-- Binds a variable, at the place its name has in the order. -/
def set : Context → (name : Text) → Value → Context
  | [], name, v => [(name, v)]
  | (k, w) :: rest, name, v =>
    if name = k then (name, v) :: rest
    else if lt name k then (name, v) :: (k, w) :: rest
    else (k, w) :: set rest name v

/-- Binds every variable of another context. -/
def merge (c d : Context) : Context := d.foldl (fun c (name, v) => c.set name v) c

/-- Without a variable. -/
def erase (c : Context) (name : Text) : Context := c.filter (·.1 ≠ name)

end Context

/-- A name with the sigil of variables. -/
def sigil (name : Text) : Text := if starts name [ch '$'] then name else ch '$' :: name

/-- A mixin or function: its parameters, the texts of their defaults, its body, and the
variables and directory of its definition. -/
structure Callable where
  name : Text
  params : List Text := []
  defaults : List (Text × Text) := []
  body : Text
  context : Context := []
  isFunction : Bool := false
  dir : Text := []

/-- The numbers of arguments a callable answers to, all its parameters first: one less
for each parameter at the end that has a default. -/
def Callable.aritiesFrom (defaults : List (Text × Text)) : (reversed : List Text) → List Nat
  | [] => [0]
  | p :: rest =>
    (rest.length + 1) ::
      if (defaults.lookup p).isSome then aritiesFrom defaults rest else []

/-- The numbers of arguments a callable answers to. -/
def Callable.arities (c : Callable) : List Nat := aritiesFrom c.defaults c.params.reverse

/-- The definitions in scope; mixins and functions by name and number of arguments. -/
structure Registry where
  mixins : List ((Text × Nat) × Callable) := []
  functions : List ((Text × Nat) × Callable) := []
  flags : List (Text × Text) := []
  imported : List Text := []

namespace Registry

/-- Registers a callable for a list of argument counts, in place of earlier ones. -/
def insertAll (c : Callable) (arities : List Nat) (table : List ((Text × Nat) × Callable)) :
    List ((Text × Nat) × Callable) :=
  arities.foldl (fun t n => ((c.name, n), c) :: t.filter (·.1 ≠ (c.name, n))) table

/-- Adds a definition. -/
def define (r : Registry) (c : Callable) : Registry :=
  if c.isFunction then { r with functions := insertAll c c.arities r.functions }
  else { r with mixins := insertAll c c.arities r.mixins }

/-- The mixin for a name and number of arguments. -/
def mixin? (r : Registry) (name : Text) (arity : Nat) : Option Callable :=
  r.mixins.lookup (name, arity)

/-- The function for a name and number of arguments. -/
def function? (r : Registry) (name : Text) (arity : Nat) : Option Callable :=
  r.functions.lookup (name, arity)

/-- The text of a flag. -/
def flag? (r : Registry) (name : Text) : Option Text := r.flags.lookup name

/-- Sets a flag. -/
def setFlag (r : Registry) (name text : Text) : Registry :=
  { r with flags := assign name text r.flags }

end Registry

end Stylesheet
