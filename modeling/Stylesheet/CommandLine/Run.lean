import Stylesheet.CommandLine.Command
import Stylesheet.Log
import Stylesheet.Output.Outline
import Stylesheet.Tools

/-!
# Running commands

What the program does with its arguments, as a function from files to files, with what is
printed on the way.

The first argument that is no flag names the command. Compiling takes the files given, or
those configured, and writes each result to the place it is to go; a file that fails does
not keep the others from being written.

## Main definitions

* `Ending` — what is left when a command has run
* `Invocation`, `findCommand` — which command arguments ask for
* `readVariables` — variables given as arguments
* `destination` — where a result goes
* `runCommand` — runs the program
-/

namespace Stylesheet

open Text

/-- What is left when a command has run: the files, what was printed on both channels,
and whether it failed. -/
structure Ending where
  tree : FileTree
  out : Text := []
  err : Text := []
  failed : Bool := false

namespace Ending

/-- The command failed for a reason. -/
def fail (e : Ending) (message : Text) : Ending :=
  { e with err := e.err ++ of "Error: " ++ message ++ [ch '\n'], failed := true }

/-- More was printed. -/
def print (e : Ending) (t : Text) : Ending := { e with out := e.out ++ t }

/-- More was logged. -/
def log (e : Ending) (t : Text) : Ending := { e with err := e.err ++ t }

end Ending

/-! ### Finding the command -/

/-- What arguments ask for: the program itself or a command, with the arguments left, or
a command that there is not. -/
inductive Invocation where
  | root (args : List Text)
  | command (verb : Verb) (args : List Text)
  | unknown (name : Text)
  deriving DecidableEq

/-- The command that arguments ask for. -/
def findCommand (args : List Text) : Invocation :=
  match withoutFlags sharedFlags false args with
  | [] => .root args
  | name :: _ =>
    match Verb.ofName? name with
    | some v => .command v (eraseFirst sharedFlags name false args)
    | none => .unknown name

/-- The wording for a command that there is not. -/
def unknownCommand (name path : Text) : Text :=
  of "unknown command " ++ quoted name ++ of " for " ++ quoted path

/-- The hint at commands that may have been meant. -/
def suggestionHint (name : Text) : Text :=
  match suggestions name with
  | [] => []
  | names =>
    of "\n\nDid you mean this?\n" ++ names.flatMap fun n => ch '\t' :: n ++ [ch '\n']

/-! ### Settings -/

/-- A variable that is not given as name and value. -/
structure VariableError where
  arg : Text
  deriving DecidableEq

/-- The wording of a variable that cannot be read. -/
def VariableError.message (e : VariableError) : Text :=
  of "invalid variable " ++ quoted e.arg ++ of ": expected name=value"

/-- A variable given as name and value, without the blanks around both. -/
def readVariable (arg : Text) : Except VariableError (Text × Text) :=
  match cut (ch '=') arg with
  | some (name, value) =>
    if (trim name).isEmpty then .error ⟨arg⟩ else .ok (trim name, trim value)
  | none => .error ⟨arg⟩

/-- Variables given as names and values; the last value of a name holds. -/
def readVariables (args : List Text) : Except VariableError (List (Text × Text)) :=
  args.foldlM (fun vars arg => (readVariable arg).map fun (name, v) => assign name v vars) []

/-- The settings of a compilation that flags give. -/
def overridesOf (p : Arguments) : Except VariableError Overrides :=
  (readVariables (p.texts "var")).map fun presets =>
    { compress := if p.isOn "no-compress" then some false else p.flag? "compress"
      shortColors := p.flag? "short-colors"
      reverseColors := p.flag? "reverse-colors"
      loadPaths := p.texts "load-path"
      presets }

/-- The project that flags name, or why it cannot be loaded. -/
def projectOf (tree : FileTree) (p : Arguments) : Except Text Project :=
  match overridesOf p with
  | .error e => .error e.message
  | .ok o =>
    (Project.load tree ((p.value? "root").getD (of ".")) o).mapError fun e =>
      of "failed to load config: " ++ e.message tree

/-! ### Compiling -/

/-- How results are written. -/
structure WriteFlags where
  output : Text := []
  outDir : Text := []
  verify : Bool := false
  explain : Bool := false
  verbose : Bool := false
  deriving DecidableEq

/-- The flags of writing that are set. -/
def writeFlagsOf (p : Arguments) : WriteFlags :=
  { output := (p.value? "output").getD [], outDir := (p.value? "out-dir").getD []
    verify := p.isOn "verify", explain := p.isOn "explain", verbose := p.isOn "verbose" }

/-- Where a result goes; nothing stands for the standard output. -/
def destination (w : WriteFlags) (printed : Bool) (r : FileResult) : Option Text :=
  if w.output = of "-" then none
  else if !w.output.isEmpty then some w.output
  else if !w.outDir.isEmpty then some (Path.join [w.outDir, Path.stem r.path ++ of ".css"])
  else if printed || r.output.isEmpty then none
  else some r.output

/-- A text that ends its last line. -/
def endLine (t : Text) : Text := if t.isEmpty || ends t [ch '\n'] then t else t ++ [ch '\n']

/-- Writes a file and the directories above it, or tells why not. -/
def writeFile (tree : FileTree) (path content : Text) : Except Text FileTree :=
  let dir := Path.dir path
  match tree.makeDir dir with
  | .error e => .error (of "error creating " ++ dir ++ of ": " ++ tree.describe e)
  | .ok tree =>
    (tree.write path content).mapError fun e =>
      of "error writing to " ++ path ++ of ": " ++ tree.describe e

/-- A run under way: what it would leave now, and the problems met. -/
structure Writing where
  ending : Ending
  problems : List Text := []

/-- One more problem. -/
def Writing.addProblem (s : Writing) (t : Text) : Writing :=
  { s with problems := s.problems ++ [t] }

/-- Writes a result to its destination. -/
def Writing.deliver (s : Writing) (w : WriteFlags) (printed : Bool) (r : FileResult) : Writing :=
  let text := endLine r.compiled.css
  match destination w printed r with
  | none => { s with ending := s.ending.print text }
  | some path =>
    match writeFile s.ending.tree path text with
    | .error problem => s.addProblem problem
    | .ok tree =>
      let ending := { s.ending with tree }
      { s with ending := ending.log (logLine w.verbose .debug (of "wrote " ++ path) []) }

/-- Shows, verifies or writes a result. -/
def Writing.step (w : WriteFlags) (printed : Bool) (s : Writing) (r : FileResult) : Writing :=
  if w.explain then
    let shown := r.path ++ ch '\n' :: drawFragments r.compiled.fragments
    { s with ending := s.ending.print shown }
  else
    match (if w.verify then (Css.readCss r.compiled.css).2 else none) with
    | some f =>
      s.addProblem
        (r.path ++ of ": invalid css: " ++ Css.describeFailure r.compiled.css f)
    | none => s.deliver w printed r

/-- Compiles the files given or configured, and writes the results. -/
def runCompile (tree : FileTree) (p : Arguments) : Ending :=
  let start : Ending := { tree }
  match projectOf tree p with
  | .error message => start.fail message
  | .ok project =>
    let w := writeFlagsOf p
    let outcomes := project.compileAll false p.args
    let e := start.log ((outcomes.flatMap (·.reported)).flatMap (Diagnostic.log w.verbose))
    if outcomes.isEmpty then e.fail (of "no files specified and no files found in config")
    else if !w.output.isEmpty && outcomes.length > 1 then
      e.fail (of "--output needs exactly one input file")
    else
      let failures := outcomes.filterMap fun o =>
        match o.result with
        | .error f => some (f.message tree)
        | .ok _ => none
      let results := outcomes.filterMap (·.result.toOption)
      let printed := !p.args.isEmpty && project.config.outDir.isEmpty
      let s := results.foldl (Writing.step w printed) ⟨e, failures⟩
      let e := s.ending.log (s.problems.flatMap fun t => logLine w.verbose .warn t [])
      if s.problems.isEmpty then e else e.fail (ofNat s.problems.length ++ of " file(s) failed")

/-! ### Other commands -/

/-- Checks the files given or configured. -/
def runCheck (tree : FileTree) (p : Arguments) : Ending :=
  let start : Ending := { tree }
  match projectOf tree p with
  | .error message => start.fail message
  | .ok project =>
    let o := project.check false p.args ⟨p.isOn "strict", p.isOn "quiet"⟩
    let e := start.print o.output
    match o.failure with
    | some message => e.fail message
    | none => e

/-- What is known about this build. -/
def thisBuild : Build := { version := of "dev" }

/-- Prints a listing, or fails for its format. -/
def printListing (tree : FileTree) (listing : Except UnknownFormat Text) : Ending :=
  let start : Ending := { tree }
  match listing with
  | .ok t => start.print t
  | .error e => start.fail e.message

/-- Words in backquotes, or in double quotes where a word has a backquote. -/
def topicText (t : Text) : Text :=
  if hasByte t (ch '\x60') then quoted t else ch '\x60' :: t ++ [ch '\x60']

/-- Prints help on the command that arguments name. -/
def runHelp (tree : FileTree) (args : List Text) : Ending :=
  let start : Ending := { tree }
  match findCommand args with
  | .root _ => start.print rootCommand.help
  | .command v _ => start.print v.command.help
  | .unknown _ =>
    let topic := of "Unknown help topic [" ++ join [ch ' '] (args.map topicText) ++ of "]\n"
    let bare : Command := { rootCommand with flags := sharedFlags }
    start.log (topic ++ bare.usage)

/-- Runs a command on the arguments and flags it was given. The tools are served over a
connection that the host keeps, so the command for it leaves everything as it is. -/
def runVerb (tree : FileTree) (p : Arguments) : Verb → Ending
  | .compile => runCompile tree p
  | .check => runCheck tree p
  | .functions =>
    printListing tree (writeFunctions Table.standard ((p.value? "format").getD (of "text")))
  | .version =>
    printListing tree (writeVersion thisBuild Table.standard ((p.value? "format").getD (of "text")))
  | .mcp => { tree }
  | .completion => Ending.print { tree } (Verb.completion.command).help
  | .help => runHelp tree p.args

/-- The commands that refuse arguments. -/
def Verb.refusesArgs : Verb → Bool
  | .functions => true
  | .mcp => true
  | _ => false

/-- Runs the program on its arguments. -/
def runCommand (tree : FileTree) (args : List Text) : Ending :=
  let start : Ending := { tree }
  match findCommand args with
  | .unknown name =>
    (start.fail (unknownCommand name programName ++ suggestionHint name)).log
      (of "Run 'cascade --help' for usage.\n")
  | .root args =>
    match parseArgs rootFlags args with
    | .error e => start.fail e.message
    | .ok _ => start.print rootCommand.help
  | .command v args =>
    match parseArgs v.flags args with
    | .error e => start.fail e.message
    | .ok p =>
      if p.isOn "help" then start.print v.command.help
      else match v.refusesArgs, p.args with
        | true, name :: _ => start.fail (unknownCommand name v.command.path)
        | _, _ => runVerb tree p v

end Stylesheet
