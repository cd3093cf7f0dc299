import Stylesheet.Function

/-!
# List functions

Length, members, joining and slicing of lists. A single argument is taken as a list,
several arguments as the members of one.

## Main definitions

* `listFunctions` — the registrations
-/

namespace Stylesheet

open Text

namespace ListFunction

/-- The number of members. -/
def length (a : Args) : Except FunctionError Value :=
  .ok (.ofFloat (Float.ofNat a.asEntries.2.length))

/-- The place named by an index: `first`, `last` or a number. -/
def place (size : Nat) (v : Value) : Except FunctionError Int :=
  let word := lower v.unquoted
  if word = of "first" then .ok 1
  else if word = of "last" then .ok size
  else (v.toNumber (of "n")).map fun n => Double.toWord n.value

/-- The member `$n` of `$list`, counting from one. -/
def nth (a : Args) : Except FunctionError Value := do
  let items := (← a.value 0 (of "list")).toEntries.2
  let i ← place items.length (← a.value 1 (of "n"))
  if i < 1 then throw (.indexRange i items.length)
  else match items[i.toNat - 1]? with
    | some e => return e.2
    | none => throw (.indexRange i items.length)

/-- The separator asked for by `$separator`; none for `auto` or without the argument. -/
def separator? (a : Args) (i : Int) : Except FunctionError (Option Text) :=
  match a.get? i (of "separator") with
  | none => .ok none
  | some v =>
    let word := lower v.unquoted
    if word = of "comma" || word = of "," then .ok (some [ch ','])
    else if word = of "space" || word = [] then .ok (some [])
    else if word = of "auto" then .ok none
    else .error (.unknownSeparator v.text)

/-- `$list1` followed by `$list2`; the separator of the first that has two members. -/
def joined (a : Args) : Except FunctionError Value := do
  let (sep1, items1) := (← a.value 0 (of "list1")).toEntries
  let (sep2, items2) := (← a.value 1 (of "list2")).toEntries
  let sep := (← separator? a 2).getD
    (if items1.length < 2 && items2.length > 1 then sep2 else sep1)
  return .list sep (items1 ++ items2)

/-- `$list` with `$val` as one more member. -/
def appended (a : Args) : Except FunctionError Value := do
  let l ← a.value 0 (of "list")
  let v ← a.value 1 (of "val")
  let (sep, items) := l.toEntries
  return .list ((← separator? a 2).getD sep) (items ++ [([], v)])

/-- The members that count as true. -/
def compacted (a : Args) : Except FunctionError Value :=
  .ok (.ofList [ch ','] (a.members.filter Value.truthy))

/-- The first member, or the empty text. -/
def firstValue (a : Args) : Except FunctionError Value :=
  .ok (a.members.headD (.plain []))

mutual

/-- False, blank, or a list of such. -/
def isBlankValue : Value → Bool
  | .bool b => !b
  | .string t _ => isBlank t
  | .list _ items => areBlank items
  | _ => false

/-- Only blank members. -/
def areBlank : List (Text × Value) → Bool
  | [] => true
  | (_, v) :: rest => isBlankValue v && areBlank rest

end

/-- Only blank arguments. -/
def blank (a : Args) : Except FunctionError Value := .ok (.bool (a.positional.all isBlankValue))

/-- The arguments as a list. -/
def asList (a : Args) : Except FunctionError Value :=
  let (sep, items) := a.asEntries
  .ok (.list sep items)

/-- The arguments as a list written with spaces. -/
def asSpaceList (a : Args) : Except FunctionError Value := .ok (.list [] a.asEntries.2)

/-- The members from place `$start` through place `$end`. -/
def sliced (a : Args) : Except FunctionError Value := do
  let (sep, items) := (← a.value 0 (of "list")).toEntries
  let start ← a.int 1 (of "start")
  let stop ←
    match a.get? 2 (of "end") with
    | some _ => a.int 2 (of "end")
    | none => pure (items.length : Int)
  let inside (p : Entry × Nat) : Bool := start ≤ (p.2 : Int) + 1 && (p.2 : Int) + 1 ≤ stop
  return .list sep ((items.zipIdx.filter inside).map (·.1))

end ListFunction

open ListFunction in
/-- The list functions. -/
def listFunctions : List Function :=
  [ ("length", variadic, length), ("nth", 2, nth), ("-compass-nth", 2, nth),
    ("join", 2, joined), ("join", 3, joined), ("append", 2, appended), ("append", 3, appended),
    ("compact", variadic, compacted), ("first-value-of", variadic, firstValue),
    ("blank", variadic, blank), ("-compass-list", variadic, asList),
    ("-compass-space-list", variadic, asSpaceList), ("-compass-slice", 2, sliced),
    ("-compass-slice", 3, sliced), ("-compass-list-size", variadic, length)
  ].map fun (name, arity, run) => ⟨of name, arity, of "list", run⟩

end Stylesheet
