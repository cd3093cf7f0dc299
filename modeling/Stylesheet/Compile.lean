import Stylesheet.Compile.Expand
import Stylesheet.Compile.Extend
import Stylesheet.Output.Layout

/-!
# Compilation

A stylesheet is compiled by expanding it into fragments, resolving their extends,
ordering them, and printing them. Unbalanced text ends a compilation; everything else is
reported and compilation goes on.

## Main definitions

* `Compiled` — the result of a compilation
* `Outcome` — the result, and what was reported
* `compileWith` — compilation with fuel
* `compile` — compilation
-/

namespace Stylesheet

open Text

/-- The result of a compilation: its text, and the fragments written in their order. -/
structure Compiled where
  css : Text
  fragments : List Fragment

/-- What came of a compilation, and the diagnostics in the order reported. -/
structure Outcome where
  result : Except Halt Compiled
  diagnostics : List Diagnostic

/-- An error was reported. -/
def Outcome.hasErrors (o : Outcome) : Bool := countAtLeast .error o.diagnostics > 0

/-- The variables a compilation starts with. -/
def seedContext (presets : List (Text × Text)) : Context :=
  presets.foldl (fun c (name, t) => c.set (sigil name) (.plain t)) []

/-- The session a compilation starts with; number 0 is that of the root. -/
def Options.session (opts : Options) : Session :=
  { nextId := 1, compress := opts.compress, shortColors := opts.shortColors,
    reverseColors := opts.reverseColors }

/-- The fragment of the whole stylesheet. -/
def rootFragment (opts : Options) (code : Text) : Pending :=
  { id := 0, file := opts.filename, code, selectors := [[]],
    dir := if opts.filename.isEmpty then [] else Path.dir opts.filename,
    context := seedContext opts.presets }

/-- The style that a session ends with. -/
def Session.style (s : Session) : Style := ⟨s.compress, s.shortColors, s.reverseColors⟩

/-- Expands a stylesheet into fragments numbered as encountered; an imbalance is placed in
the source. -/
def expandSource (fuel : Nat) (opts : Options) (source : Text) : SessionM (List Fragment) := do
  let code := normalizeTracked source
  tryCatch (drain (engine opts fuel) fuel 0 [rootFragment opts (code.map (·.1))]) fun
    | .unbalanced e =>
      throw (.unbalanced (placeError e opts.filename (originOf (code.map (·.2)))))
    | .exhausted => throw .exhausted

/-- Resolves the extends of fragments, orders and prints them. -/
def finishFragments (style : Style) (fragments : List Fragment) : Compiled × List Diagnostic :=
  let (linked, warnings) := resolveExtends (fragments.mergeSort fun f g => f.id ≤ g.id)
  let ordered := orderFragments linked
  (⟨restore (style.print ordered), emittedOf ordered⟩, warnings)

/-- Compiles a stylesheet. The fuel bounds how deep blocks, includes and calls nest, and
how many fragments there are. -/
def compileWith (fuel : Nat) (opts : Options) (source : Text) : Outcome :=
  let (result, session) := (expandSource fuel opts source).run.run opts.session
  match result with
  | .error halt => ⟨.error halt, session.diagnostics⟩
  | .ok fragments =>
    let (compiled, warnings) := finishFragments session.style fragments
    ⟨.ok compiled, session.diagnostics ++ warnings⟩

/-- The fuel of a compilation, more than any stylesheet needs that can be compiled in
reasonable time. -/
def defaultFuel : Nat := 1000000

/-- Compiles a stylesheet. -/
def compile (opts : Options) (source : Text) : Outcome := compileWith defaultFuel opts source

end Stylesheet
