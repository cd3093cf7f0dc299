import Stylesheet.Compile.Registry

/-!
# Fragments

The unit of compiled output: one set of selectors in one media context, with the
declarations it emits. A fragment starts as pending source text with the definitions in
scope, and is filled when that text is expanded.

## Main definitions

* `Property` — a declaration, or a bare line
* `RawBlock` — an at-rule copied to the output
* `Pending` — a fragment not yet expanded
* `Fragment` — an expanded fragment
-/

namespace Stylesheet

open Text

/-- A declaration, or without a value a bare line. -/
structure Property where
  name : Text
  value : Option Text
  deriving DecidableEq

/-- How a property is shown. -/
def Property.text (p : Property) : Text :=
  match p.value with
  | some v => p.name ++ of ": " ++ v
  | none => p.name

/-- An at-rule with a body that is copied as it is. -/
structure RawBlock where
  header : Text
  body : Text
  deriving DecidableEq

/-- A fragment that waits to be expanded. -/
structure Pending where
  id : Nat
  file : Text := []
  dir : Text := []
  code : Text := []
  selectors : List Text := []
  parents : List Text := []
  media : List Text := []
  raw : Option RawBlock := none
  context : Context := []
  registry : Registry := {}

/-- An expanded fragment. `order` is its place among the fragments encountered,
`position` its rank in the output, and `deps` the ranks it must not come after, in
order. -/
structure Fragment where
  id : Nat
  file : Text := []
  selectors : List Text := []
  parents : List Text := []
  media : List Text := []
  properties : List Property := []
  raw : Option RawBlock := none
  position : Nat := 0
  order : Nat := 0
  deps : List Nat := []
  deriving DecidableEq

/-- The selectors joined by commas. -/
def Fragment.key (f : Fragment) : Text := join [ch ','] f.selectors

/-- Inserts into an ordered list without duplicates. -/
def insertNat (n : Nat) : List Nat → List Nat
  | [] => [n]
  | m :: rest =>
    if n < m then n :: m :: rest else if n = m then m :: rest else m :: insertNat n rest

/-- Records a rank the fragment must not come after. -/
def Fragment.addDep (f : Fragment) (n : Nat) : Fragment := { f with deps := insertNat n f.deps }

/-- The distinct queries of a media context joined by `and`. -/
def mediaQuery (media : List Text) : Text :=
  join (of " and ")
    (media.foldl (fun qs q => if q.isEmpty || qs.contains q then qs else qs ++ [q]) [])

end Stylesheet
