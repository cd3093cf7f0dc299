import Stylesheet.Compile
import Stylesheet.Config
import Stylesheet.Css.Reader

/-!
# Projects

A project is a directory with a configuration. Its stylesheets are compiled with the
settings of the configuration, over which those given with a run take precedence. A file
that fails does not keep the others from being compiled.

Checking a project compiles it without writing, reads the output back, and tells what
was found.

## Main definitions

* `Overrides` — what is given with a run
* `Project`, `Project.load`, `Project.withConfig` — a project
* `Project.options` — the settings for a file
* `Project.compileFile`, `Project.compileAll` — compiling
* `Project.check` — checking
-/

namespace Stylesheet

open Text

/-- Settings given with a run. -/
structure Overrides where
  compress : Option Bool := none
  shortColors : Option Bool := none
  reverseColors : Option Bool := none
  loadPaths : List Text := []
  presets : List (Text × Text) := []
  magic : Option (Text → Option Text) := none

/-- A directory with its files, its configuration and the settings of a run. -/
structure Project where
  tree : FileTree
  root : Text
  config : Config
  overrides : Overrides := {}

/-- Why a file was not compiled. -/
inductive FileFailure where
  | canceled
  | unreadable (path : Text) (cause : FileError)
  | halted (cause : Halt)
  deriving DecidableEq

/-- The wording of a compilation that ended early. -/
def Halt.message : Halt → Text
  | .unbalanced e => e.message
  | .exhausted => of "out of fuel"

/-- The wording of a failure, in the words of a file tree. -/
def FileFailure.message (t : FileTree) : FileFailure → Text
  | .canceled => of "context canceled"
  | .unreadable path cause => of "failed to read " ++ path ++ of ": " ++ t.describe cause
  | .halted h => h.message

/-- A compiled file, and where its output goes. -/
structure FileResult where
  path : Text
  output : Text
  compiled : Compiled
  diagnostics : List Diagnostic

/-- What came of a file, and what was reported meanwhile. -/
structure FileOutcome where
  result : Except FileFailure FileResult
  reported : List Diagnostic := []

namespace Project

/-- The project in a directory, with a configuration that is given. -/
def withConfig (tree : FileTree) (root : Text) (config : Config) (overrides : Overrides) :
    Project :=
  ⟨tree, Path.absolute tree.cwd (if root.isEmpty then of "." else root), config, overrides⟩

/-- The project in a directory; without a configuration file the default one holds. -/
def load (tree : FileTree) (root : Text) (overrides : Overrides) : Except ConfigError Project :=
  let p := withConfig tree root {} overrides
  (Config.load tree p.root).map fun c => { p with config := c.getD {} }

/-- A path made absolute against the project's directory. -/
def absolute (p : Project) (path : Text) : Text := Path.absolute p.root path

/-- The configured files, patterns expanded. -/
def files (p : Project) : List Text := p.config.expandFiles p.tree p.root

/-- The settings for a file: defaults, then the configuration, then those of the run. -/
def options (p : Project) (path : Text) : Options :=
  let base := p.config.options
  { base with
    compress := p.overrides.compress.getD base.compress
    shortColors := p.overrides.shortColors.getD base.shortColors
    reverseColors := p.overrides.reverseColors.getD base.reverseColors
    loadPaths := (base.loadPaths ++ p.overrides.loadPaths).map p.absolute
    presets := p.overrides.presets.foldl (fun vs (name, t) => assign name t vs) base.presets
    tree := p.tree, magic := p.overrides.magic, filename := path }

/-- Where the output of a file goes. -/
def output (p : Project) (path : Text) : Text :=
  p.absolute (p.config.outputFor ((Path.rel? p.root path).getD path))

/-- Compiles one file. -/
def compileFile (p : Project) (canceled : Bool) (path : Text) : FileOutcome :=
  if canceled then ⟨.error .canceled, []⟩
  else
    let path := p.absolute path
    match p.tree.read path with
    | .error cause => ⟨.error (.unreadable path cause), []⟩
    | .ok source =>
      let o := compile (p.options path) source
      match o.result with
      | .error h => ⟨.error (.halted h), o.diagnostics⟩
      | .ok c => ⟨.ok ⟨path, p.output path, c, o.diagnostics⟩, o.diagnostics⟩

/-- The paths given, or the configured files if there are none. -/
def pathsOr (p : Project) (paths : List Text) : List Text :=
  if paths.isEmpty then p.files else paths

/-- Compiles the paths given, or the configured files. A canceled run stops at the first
file. -/
def compileAll (p : Project) (canceled : Bool) (paths : List Text) : List FileOutcome :=
  let paths := p.pathsOr paths
  (if canceled then paths.take 1 else paths).map (p.compileFile canceled)

/-! ### Checking -/

/-- How a check reports: strict fails on warnings, quiet shows only errors. -/
structure CheckFlags where
  strict : Bool := false
  quiet : Bool := false
  deriving DecidableEq

/-- What checking one file prints, and its problem if it has one. -/
structure Checked where
  output : Text
  problem : Option Text

/-- A line of text. -/
def lineOf (t : Text) : Text := t ++ [ch '\n']

/-- Checks the result of a compilation. -/
def checkResult (flags : CheckFlags) (path : Text) (r : FileResult) : Checked :=
  let shown : Severity := if flags.quiet then .error else .info
  let threshold : Severity := if flags.strict then .warning else .error
  let lines := (r.diagnostics.filter (·.severity.atLeast shown)).map fun d => of "  " ++ d.text
  let (report, failure) := Css.readCss r.compiled.css
  let faults := failure.toList.map fun f => of "  error: " ++ Css.describeFailure r.compiled.css f
  let failed := countAtLeast threshold r.diagnostics + faults.length
  let counts :=
    if failed > 0 || flags.quiet then []
    else
      [of "  " ++ ofNat report.rulesets ++ of " rulesets, " ++ ofNat report.declarations ++
        of " declarations, " ++ ofNat report.atRules ++ of " at-rules"]
  { output := (lines ++ faults ++ counts).flatMap lineOf
    problem :=
      if failed > 0 then some (path ++ of ": " ++ ofNat failed ++ of " problem(s)") else none }

/-- Checks one file. -/
def checkFile (p : Project) (flags : CheckFlags) (path : Text) (o : FileOutcome) : Checked :=
  let title := if flags.quiet then [] else lineOf (of "Checking " ++ path ++ of "...")
  match o.result with
  | .error e =>
    let message := e.message p.tree
    ⟨title ++ lineOf (of "  error: " ++ message), some message⟩
  | .ok r =>
    let c := checkResult flags path r
    ⟨title ++ c.output, c.problem⟩

/-- What a check printed, why it failed if it did, and what was reported meanwhile. -/
structure CheckOutcome where
  output : Text := []
  failure : Option Text := none
  reported : List Diagnostic := []

/-- Checks the paths given, or the configured files. -/
def check (p : Project) (canceled : Bool) (paths : List Text) (flags : CheckFlags) : CheckOutcome :=
  let paths := p.pathsOr paths
  if paths.isEmpty then
    { failure := some (of "no files specified and no files found in config") }
  else
    let outcomes := paths.map fun path => (path, p.compileFile canceled path)
    let checked := outcomes.map fun (path, o) => p.checkFile flags path o
    let problems := checked.filterMap (·.problem)
    let output := checked.flatMap (·.output)
    let reported := outcomes.flatMap (·.2.reported)
    if problems.isEmpty then
      ⟨output ++ (if flags.quiet then [] else of "All files compiled cleanly.\n"), none, reported⟩
    else ⟨output, some (of "check failed: " ++ join (of "; ") problems), reported⟩

end Project

end Stylesheet
