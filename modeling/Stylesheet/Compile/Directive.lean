import Stylesheet.Compile.Evaluate
import Stylesheet.Selector
import Stylesheet.Source.Normalize

/-!
# Directives

What each directive does to the block it stands in. Conditions, loops and includes
expand their bodies in place; media blocks, raw at-rules and nested rules spawn
fragments; the rest reports, defines or emits.

## Main definitions

* `directives` — the at-rules that are not copied to the output
* `Branch` — the state of a chain of conditions
* `Engine.spawn` — a fragment below the one being filled
* `Engine.doImport`, `Engine.define`, `Engine.doInclude` — one for each directive
-/

namespace Stylesheet

open Text

/-- The at-rules that are handled here. Any other is copied to the output. -/
def directives : List Text := [
  "@debug", "@each", "@else", "@extend", "@for", "@function", "@if", "@import", "@include",
  "@media", "@mixin", "@option", "@print", "@raw", "@return", "@variables", "@vars",
  "@warn"].map of

/-- What came of the conditions before a block: there is none, one was taken, or all were
skipped. -/
inductive Branch where
  | none
  | taken
  | skipped
  deriving DecidableEq

/-- The number that a value is or spells. -/
def asNumber? : Value → Option Number
  | .number n => some n
  | .string t _ => (Double.read? (trim t)).map fun f => ⟨f, []⟩
  | _ => none

/-- The numbers a loop counts through. A first number above the last counts down; the
last belongs to the range if `through` says so. -/
def countRange (first last : Int) (through : Bool) : List Int :=
  let step : Int := if first > last then -1 else 1
  let count := (last - first).natAbs + if through then 1 else 0
  (List.range count).map fun (i : Nat) => first + step * i

/-- The source of an import: its normalized text with offsets, its name and directory. -/
structure Loaded where
  text : Tracked
  file : Text
  dir : Text

/-- Changes the output settings as an option says; false for an unknown option. -/
def Session.applyOption (s : Session) (name value : Text) : Option Session :=
  let name := replace [ch '-'] [ch '_'] name
  if name = of "compress" then some { s with compress := parseFlag value s.compress }
  else if name = of "short_colors" then some { s with shortColors := parseFlag value s.shortColors }
  else if name = of "reverse_colors" then
    some { s with reverseColors := parseFlag value s.reverseColors }
  else none

/-- Sets one option written `name: value`; a text without a colon sets none. -/
def settleOption (frame : Frame) (pair : Text) : ExpandM Unit := do
  match cut (ch ':') pair with
  | none => return
  | some (name, value) =>
    let name := lower (trim name)
    let value := trim value
    modify fun l => { l with registry := l.registry.setFlag name value }
    match (← getThe Session).applyOption name value with
    | some s => set s
    | none => report .debug frame.file (of "unknown option " ++ quoted name)

/-- Sets options for the whole compilation. -/
def settleOptions (frame : Frame) (t : Text) : ExpandM Unit :=
  (split (ch ',') t).forM (settleOption frame)

/-- Adds parents to the fragment being filled, each once. -/
def addParents (parents : List Text) : ExpandM Unit :=
  modify fun l =>
    { l with
      parents := parents.foldl (fun ps p => if ps.contains p then ps else ps ++ [p]) l.parents }

/-- Spawns a fragment that inherits the variables and definitions in force here. -/
def spawn (frame : Frame) (make : Pending → Pending) : ExpandM Unit := do
  let id ← freshId
  let l ← get
  let child : Pending :=
    { id, file := frame.file, dir := frame.dir, selectors := frame.selectors,
      media := frame.media, context := l.vars, registry := l.registry }
  set { l with children := l.children ++ [make child] }

namespace Engine

variable (en : Engine) (opts : Options) (frame : Frame)

/-- The value of a text in a block. -/
def valueIn (t : Text) : ExpandM Value := do
  en.calculate (← scopeIn frame) t

/-- A text in a block with its interpolations and references replaced. -/
def textIn (t : Text) : ExpandM Text := do
  en.resolveText (← scopeIn frame) t

/-- Reports the value of a text. -/
def announce (severity : Severity) (t : Text) : ExpandM Unit := do
  report severity frame.file (← en.valueIn frame t).unquoted

/-- Switches debugging. -/
def setDebug (t : Text) : ExpandM Unit := do
  let on := t.isEmpty || parseFlag t true
  modifyThe Session fun s => { s with debug := on }
  report .info frame.file (of "debug mode is " ++ of (if on then "on" else "off"))

/-- Copies a directive without a body to the output. -/
def bareLine (header : Text) : ExpandM Unit := do
  emitLine (trim (← en.textIn frame header))

/-- Finds and normalizes an import, or reports why that fails. -/
def load (name : Text) : ExpandM (Option Loaded) := do
  let root := if opts.filename.isEmpty then of "." else Path.dir opts.filename
  match (Resolver.standard root opts.loadPaths).resolve opts.tree name frame.dir with
  | .ok found =>
    match opts.tree.read found.path with
    | .ok source => return some ⟨normalizeTracked source, found.path, Path.dir found.path⟩
    | .error e =>
      report .warning frame.file
        (of "cannot read " ++ found.path ++ of ": " ++ opts.tree.describe e)
      return none
  | .error e =>
    match opts.magic.bind (· name) with
    | some source => return some ⟨normalizeTracked source, name, frame.dir⟩
    | none =>
      report .warning frame.file e.message
      return none

/-- Expands an imported text in place; an imbalance in it is placed in its file. -/
def expandLoaded (src : Loaded) : ExpandM Unit := do
  modify fun l =>
    { l with registry := { l.registry with imported := src.file :: l.registry.imported } }
  modifyThe Session fun s => { s with imports := src.text.map (·.1) :: s.imports }
  let inner : Frame := { frame with file := src.file, dir := src.dir }
  tryCatch (discard (en.expand inner (src.text.map (·.1)))) fun
    | .unbalanced e => throw (.unbalanced (placeError e src.file (originOf (src.text.map (·.2)))))
    | .exhausted => throw .exhausted

/-- Imports one stylesheet, unless it was imported before on the way here. An import left
to the browser is copied to the output. -/
def importOne (name : Text) : ExpandM Unit := do
  let target := dequote (restore (← en.textIn frame name))
  if isPlainImport target || starts name (of "url(") then emitLine (of "@import " ++ name)
  else
    match ← load opts frame target with
    | none => return
    | some src =>
      if (← get).registry.imported.contains src.file then return
      else en.expandLoaded frame src

/-- Imports a list of stylesheets. -/
def doImport (t : Text) : ExpandM Unit := do
  if !frame.media.isEmpty then
    report .error frame.file (of "@import is not allowed inside @media")
  else (argTexts t).forM (en.importOne opts frame)

/-- Defines a mixin or function with the variables in force here. -/
def define (isFunction : Bool) (header body : Text) : ExpandM Unit := do
  let (name, args) := splitCall header
  let name := trim (← en.textIn frame name)
  if name.isEmpty then report .warning frame.file (of "definition without a name")
  else
    let (params, defaults) := parseParams args
    modify fun l =>
      { l with
        registry := l.registry.define
          { name, params, defaults, body, isFunction, dir := frame.dir,
            context := params.foldl Context.erase l.vars } }
    if isFunction then
      modifyThe Session fun s => { s with userFunctions := s.userFunctions + 1 }

/-- The values of the arguments of an include, by position and by name. -/
def includeArgs (texts : List Text) : ExpandM (List Value × Context) :=
  texts.foldlM
    (fun (positional, keyword) a => do
      match keywordArg? a with
      | some (name, v) => return (positional, keyword.set name (← en.valueIn frame v))
      | none => return (positional ++ [← en.valueIn frame a], keyword))
    ([], [])

/-- The mixin for a call and the arguments it takes by position: one for all arguments,
or for those by position alone, or one with a single parameter that takes them all. -/
def findMixin (r : Registry) (name : Text) (positional : List Value) (keyword : Context) :
    Option (Callable × List Value) :=
  match r.mixin? name (positional.length + keyword.length) with
  | some m => some (m, positional)
  | none =>
    match if keyword.isEmpty then none else r.mixin? name positional.length with
    | some m => some (m, positional)
    | none =>
      if positional.length > 1 then
        (r.mixin? name 1).map fun m =>
          (m, [.plain (join (of ", ") (positional.map Value.text))])
      else none

/-- Expands a mixin in place, with the variables of its definition and its parameters
over those in force here. -/
def doInclude (header : Text) : ExpandM Unit := do
  let (name, args) := splitCall header
  let name := trim (← en.textIn frame name)
  let (positional, keyword) ← en.includeArgs frame (argTexts args)
  let l ← get
  match findMixin l.registry name positional keyword with
  | none =>
    report .error frame.file
      (of "mixin not found: " ++ name ++ ch ':' :: ofNat (positional.length + keyword.length))
  | some (mixin, positional) =>
    let bound ← en.bindArgs mixin positional keyword l.registry
    modify fun l => { l with vars := (l.vars.merge mixin.context).merge bound }
    discard (en.expand { frame with dir := mixin.dir } mixin.body)
    modify fun inner => { inner with vars := l.vars }

/-- Expands the body if the condition holds. -/
def doIf (cond body : Text) : ExpandM (Signal × Branch) := do
  if (← en.valueIn frame cond).truthy then return (← en.expand frame body, .taken)
  else return (.done, .skipped)

/-- The condition of `@else if`. -/
def elseCondition? (rest : Text) : Option Text :=
  (after? rest (of "if")).bind fun cond =>
    if cond.isEmpty || head0 cond = ch ' ' || head0 cond = ch '(' then some cond else none

/-- Expands the body if no condition before it held. -/
def doElse (prev : Branch) (rest body : Text) : ExpandM (Signal × Branch) := do
  match prev with
  | .none =>
    report .warning frame.file (of "@else with no @if")
    return (.done, .none)
  | .taken => return (.done, .taken)
  | .skipped =>
    match elseCondition? rest with
    | some cond => en.doIf frame cond body
    | none => return (← en.expand frame body, .none)

/-- Expands a body once for each item, up to the first return. -/
def repeatBody {α : Type} (bindItem : α → ExpandM Unit) (body : Text) : List α → ExpandM Signal
  | [] => return .done
  | a :: rest => do
    bindItem a
    match ← en.expand frame body with
    | .returned v => return .returned v
    | .done => repeatBody bindItem body rest

/-- Expands a body for each number of a range. -/
def doFor (header body : Text) : ExpandM Signal := do
  match ForHeader.parse? header with
  | none =>
    report .warning frame.file (of "malformed @for: " ++ header)
    return .done
  | some h =>
    let first ← en.valueIn frame h.first
    let last ← en.valueIn frame h.last
    match asNumber? first, asNumber? last with
    | some a, some b =>
      en.repeatBody frame
        (fun i => bindVar h.var (.ofMeasure (Double.ofInt i) a.unit)) body
        (countRange (Double.toWord (Double.round a.value)) (Double.toWord (Double.round b.value))
          h.through)
    | _, _ =>
      report .warning frame.file (of "@for bounds must be numbers: " ++ header)
      return .done

/-- Binds the variables of a loop to a member of a list: the value, or with a second
variable the key and the value. A keyed member is bound under its key as well. -/
def bindMember (h : EachHeader) (item : Entry) : ExpandM Unit := do
  if !item.1.isEmpty then bindVar (sigil item.1) item.2
  match h.second with
  | some second =>
    bindVar h.first (.plain (without item.1 [ch '$']))
    bindVar second item.2
  | none => bindVar h.first item.2

/-- Expands a body for each member of a list. -/
def doEach (header body : Text) : ExpandM Signal := do
  match EachHeader.parse? header with
  | none =>
    report .warning frame.file (of "malformed @each: " ++ header)
    return .done
  | some h =>
    let (v, known) ← en.evaluate (← scopeIn frame) h.list
    if !known then
      report .warning frame.file (of "cannot evaluate @each list: " ++ trim h.list)
    en.repeatBody frame (bindMember h) body v.toEntries.2

/-- Expands a body whose declarations bind variables. What it returns is lost. -/
def bindBlock (body : Text) : ExpandM Signal := do
  match ← en.expand { frame with binds := true } body with
  | .returned _ => return .returned none
  | .done => return .done

/-- Spawns a fragment with the same selectors under one more media query. -/
def media (query body : Text) : ExpandM Unit := do
  if frame.spawns then
    let query := collapse (← en.textIn frame query)
    spawn frame fun p => { p with code := body, media := p.media ++ [query] }

/-- Spawns an at-rule that is copied to the output. Inside a rule it moves to the top
level, with a warning. -/
def rawBlock (header body : Text) : ExpandM Unit := do
  if frame.spawns then
    let header := collapse (← en.textIn frame header)
    if frame.selectors.any fun s => !s.isEmpty then
      report .warning frame.file (header ++ of " is not allowed inside " ++
        join (of ", ") frame.selectors ++ of "; moved to the top level")
    let body := trim (← en.textIn frame body)
    spawn frame fun p => { p with selectors := [], raw := some ⟨header, body⟩ }

end Engine

end Stylesheet
