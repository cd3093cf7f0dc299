import Stylesheet.Compile.Fragment
import Stylesheet.Diagnostic
import Stylesheet.Import
import Stylesheet.Expression.Eval
import Stylesheet.Function.Standard

/-!
# Compilation sessions

The state of one compilation and the computations on it. `SessionM` computes with the
session alone: evaluating an expression is such a computation, so by its type it cannot
touch the fragment being filled. `ExpandM` has the state of a block under expansion
besides.

## Main definitions

* `Options` — what a compilation is given
* `Session` — what lasts through a compilation
* `Locals` — what the expansion of a block changes
* `SessionM`, `ExpandM` — computations
* `Frame` — what a block is expanded in
* `Scope` — what an expression sees
-/

namespace Stylesheet

open Text

/-- What a compilation is given. `presets` are variables with the text they start with,
`magic` makes up the source of imports that are found nowhere. -/
structure Options where
  compress : Bool := true
  shortColors : Bool := true
  reverseColors : Bool := true
  presets : List (Text × Text) := []
  loadPaths : List Text := []
  tree : FileTree := {}
  magic : Option (Text → Option Text) := none
  functions : Table := Table.standard
  disableCache : Bool := false
  filename : Text := []

/-- What lasts through a compilation: diagnostics in the order reported, the normalized
texts of the imports expanded, the values of expressions evaluated before, how many
functions were defined, how deep functions call each other, and the settings that
directives can change. -/
structure Session where
  nextId : Nat := 0
  diagnostics : List Diagnostic := []
  imports : List Text := []
  cache : List (Text × Value) := []
  userFunctions : Nat := 0
  depth : Nat := 0
  debug : Bool := false
  compress : Bool := true
  shortColors : Bool := true
  reverseColors : Bool := true

/-- Why a compilation ends early: the source is unbalanced, or the fuel is used up. -/
inductive Halt where
  | unbalanced (e : SourceError)
  | exhausted
  deriving DecidableEq

/-- Computations on a session. -/
abbrev SessionM := ExceptT Halt (StateM Session)

/-- What the expansion of a block changes: variables and definitions, the declarations
and parents of the fragment it fills, and the fragments it spawns. -/
structure Locals where
  vars : Context := []
  registry : Registry := {}
  properties : List Property := []
  parents : List Text := []
  children : List Pending := []

/-- Computations that expand a block. -/
abbrev ExpandM := StateT Locals SessionM

/-- What a block is expanded in. `stem` is the name of the property block around it,
`binds` makes declarations bind variables, and without `spawns` nested rules are left
out. -/
structure Frame where
  selectors : List Text := []
  media : List Text := []
  stem : Text := []
  binds : Bool := false
  spawns : Bool := true
  file : Text := []
  dir : Text := []

/-- How the expansion of a block ended: at its end, or at a return with the value it
gave, which is lost where variables are bound. -/
inductive Signal where
  | done
  | returned (v : Option Value)

/-- What an expression sees. -/
structure Scope where
  vars : Context
  registry : Registry
  file : Text := []

/-- Reports a diagnostic. -/
def report (severity : Severity) (file message : Text) : SessionM Unit :=
  modify fun s => { s with diagnostics := s.diagnostics ++ [⟨severity, message, file, -1⟩] }

/-- Ends the compilation at an imbalance. -/
def failAt (e : SourceError) : SessionM Unit := throw (.unbalanced e)

/-- The scope of expressions in a block. -/
def scopeIn (frame : Frame) : ExpandM Scope := do
  let l ← get
  return ⟨l.vars, l.registry, frame.file⟩

/-- Adds a property to the fragment being filled. -/
def emit (p : Property) : ExpandM Unit :=
  modify fun l => { l with properties := l.properties ++ [p] }

/-- Adds a bare line. -/
def emitLine (line : Text) : ExpandM Unit := emit ⟨line, none⟩

/-- Binds a variable. -/
def bindVar (name : Text) (v : Value) : ExpandM Unit :=
  modify fun l => { l with vars := l.vars.set name v }

/-- A new number for a fragment. -/
def freshId : SessionM Nat := do
  let s ← get
  set { s with nextId := s.nextId + 1 }
  return s.nextId

/-- The place of an error in a text of a file: its offset is traced back to the source,
and the file is named. An error with a file keeps it. -/
def placeError (e : SourceError) (file : Text) (offsets : Int → Int) : SourceError :=
  if e.file.isEmpty then ⟨file, { e.cause with offset := offsets e.cause.offset }⟩ else e

end Stylesheet
