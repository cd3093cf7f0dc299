import Stylesheet.Compile.Directive
import Stylesheet.Source.Block

/-!
# Expansion

Expanding a text goes through its blocks in order: declarations are emitted or bind
variables, nested rules spawn fragments, directives do what they are for. The fragments
spawned wait in a list; each is expanded in turn, and its own children go before the
rest, so fragments are numbered in the order of a preorder walk.

Expansion and evaluation are tied together by `engine`, whose fuel bounds how deep they
nest; running out of it is an outcome of its own.

## Main definitions

* `Engine.block` — what one block does
* `Engine.expandWith` — the blocks of a text
* `engine` — expansion and evaluation with fuel
* `drain` — the fragments of a stylesheet
-/

namespace Stylesheet

open Text

namespace Engine

variable (en : Engine) (opts : Options) (frame : Frame)

/-- Does what the directive of a block with a body is for. -/
def blockDirective (prev : Branch) (code name header body : Text) :
    ExpandM (Signal × Branch) := do
  if code = of "@if" then en.doIf frame name body
  else if code = of "@else" then en.doElse frame prev name body
  else if code = of "@for" then return (← en.doFor frame name body, .none)
  else if code = of "@each" then return (← en.doEach frame name body, .none)
  else if code = of "@variables" || code = of "@vars" then
    return (← en.bindBlock frame body, .none)
  else
    if code = of "@mixin" then en.define frame false name body
    else if code = of "@function" then en.define frame true name body
    else if code = of "@media" then en.media frame name body
    else en.rawBlock frame header body
    return (.done, .none)

/-- Does what a directive is for that takes no account of a body; nothing if the
directive is not of that kind. -/
def lineDirective? (code name : Text) : Option (ExpandM Signal) :=
  let run (x : ExpandM Unit) : Option (ExpandM Signal) := some (do x; return .done)
  if code = of "@warn" then run (en.announce frame .warning name)
  else if code = of "@print" then run (en.announce frame .info name)
  else if code = of "@raw" then run (emitLine (dequote name))
  else if code = of "@debug" then run (setDebug frame name)
  else if code = of "@option" then run (settleOptions frame name)
  else if code = of "@import" then run (en.doImport opts frame name)
  else if code = of "@extend" then
    run do addParents (parseParents (← en.textIn frame name))
  else if code = of "@include" then run (en.doInclude frame name)
  else if code = of "@return" then
    some do return .returned (some (← en.returnValue opts (← scopeIn frame) name))
  else none

/-- Does what a directive is for. -/
def directive (prev : Branch) (header : Text) (body : Option Text) :
    ExpandM (Signal × Branch) := do
  let (code, name) := splitDirective header
  match en.lineDirective? opts frame code name with
  | some x => return (← x, .none)
  | none =>
    match body with
    | some body => en.blockDirective frame prev code name header body
    | none =>
      en.bareLine frame header
      return (.done, .none)

/-- Binds a variable; one marked `!default` keeps the value it has. -/
def assignVar (name t : Text) : ExpandM Unit := do
  let mark := of "!default"
  if has t mark then
    if ((← get).vars.lookup name).isNone then
      bindVar name (← en.valueIn frame (trim (replace mark [] t)))
  else bindVar name (← en.valueIn frame t)

/-- A header without a body: a variable, a property, or a line copied to the output. -/
def declaration (header : Text) : ExpandM Unit := do
  match findByte (fun c => c = ch ':' || c = ch '=') header with
  | none =>
    let line := trim (← en.textIn frame header)
    if !line.isEmpty then emitLine line
  | some i =>
    let name := trim (header.take i)
    let t := trim (header.drop (i + 1))
    if name.isEmpty then return
    else if at0 header i = ch '=' || starts name [ch '$'] || frame.binds then
      en.assignVar frame (sigil (frame.stem ++ name)) t
    else
      let name := trim (← en.textIn frame (frame.stem ++ name))
      emit ⟨name, some (← en.valueIn frame t).text⟩

/-- Expands a block of properties whose names start alike. -/
def namespaceBlock (name body : Text) : ExpandM Signal := do
  let stem := frame.stem ++ trim (← en.textIn frame name) ++ [ch '-']
  en.expand { frame with stem := stem } body

/-- Spawns a fragment for a nested rule. The header `self` stands for the rule around
it. -/
def nest (header body : Text) : ExpandM Signal := do
  if trim header = of "self" then en.expand frame body
  else if !frame.spawns then return .done
  else
    let (selectors, parents) := parseSelectors (← en.textIn frame header)
    if !selectors.isEmpty then
      spawn frame fun p =>
        { p with code := body, selectors := nestSelectors frame.selectors selectors, parents }
    return .done

/-- What one block does, and what becomes of the chain of conditions. -/
def block (prev : Branch) (b : Block) : ExpandM (Signal × Branch) := do
  let header := expandShorthand b.header
  if starts header [ch '@'] then en.directive opts frame prev header b.body
  else match b.body with
    | none =>
      en.declaration frame header
      return (.done, .none)
    | some body =>
      if ends header [ch ':'] then
        return (← en.namespaceBlock frame (withoutEnd header [ch ':']) body, .none)
      else if frame.stem.isEmpty then return (← en.nest frame header body, .none)
      else return (.done, .none)

/-- Goes through blocks up to the first return, and fails at the end if the text was
unbalanced there. -/
def blocks (failure : Option StructuralError) : Branch → List Block → ExpandM Signal
  | _, [] => do
    match failure with
    | some e => throw (.unbalanced ⟨[], e⟩)
    | none => return .done
  | prev, b :: rest => do
    match ← en.block opts frame prev b with
    | (.returned v, _) => return .returned v
    | (.done, branch) => blocks failure branch rest

/-- Expands the blocks of a text. -/
def expandWith (code : Text) : ExpandM Signal :=
  let (found, failure) := locate code
  en.blocks opts frame failure .none found

end Engine

/-- Expansion and evaluation, nested at most as deep as the fuel. -/
def engine (opts : Options) : (fuel : Nat) → Engine
  | 0 => ⟨fun _ _ => throw .exhausted, fun _ _ => throw .exhausted⟩
  | fuel + 1 =>
    { expand := fun frame code => (engine opts fuel).expandWith opts frame code
      evaluate := fun scope t => (engine opts fuel).evaluateWith opts scope t }

/-- Expands one fragment: the fragment, and the fragments it spawns. A raw at-rule is
complete as it is. -/
def expandPending (en : Engine) (order : Nat) (p : Pending) :
    SessionM (Fragment × List Pending) := do
  let fragment (parents : List Text) (properties : List Property) : Fragment :=
    { id := p.id, file := p.file, selectors := p.selectors, parents, media := p.media,
      properties, raw := p.raw, position := order, order }
  if p.raw.isSome then return (fragment p.parents [], [])
  else
    let frame : Frame :=
      { selectors := p.selectors, media := p.media, file := p.file, dir := p.dir }
    let (_, l) ← (en.expand frame p.code).run
      { vars := p.context, registry := p.registry, parents := p.parents }
    return (fragment l.parents l.properties, l.children)

/-- Expands waiting fragments in turn, the first as number `order`. The children of a
fragment come right after it. -/
def drain (en : Engine) : (fuel order : Nat) → List Pending → SessionM (List Fragment)
  | _, _, [] => return []
  | 0, _, _ :: _ => throw .exhausted
  | fuel + 1, order, p :: queue => do
    let (f, children) ← expandPending en order p
    return f :: (← drain en fuel (order + 1) (children ++ queue))

end Stylesheet
