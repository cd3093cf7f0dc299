import Stylesheet.CommandLine.Flags
import Stylesheet.Text.Case

/-!
# Commands

The commands of the program: how each is called, what it is for, and which flags it
takes. Help is written from these descriptions.

## Main definitions

* `Verb` — the commands
* `Command`, `Verb.command`, `rootCommand` — their descriptions
* `Command.usage`, `Command.help` — help
* `suggestions` — the commands a name may have been meant for
-/

namespace Stylesheet

open Text

/-- What the program can be told to do. -/
inductive Verb where
  | compile
  | check
  | functions
  | mcp
  | version
  | completion
  | help
  deriving DecidableEq

namespace Verb

/-- Every command, in the order suggestions are made. -/
def all : List Verb := [.compile, .check, .functions, .mcp, .version, .completion, .help]

/-- The word that stands for a command. -/
def name : Verb → Text
  | .compile => of "compile"
  | .check => of "check"
  | .functions => of "functions"
  | .mcp => of "mcp"
  | .version => of "version"
  | .completion => of "completion"
  | .help => of "help"

/-- The command a word stands for. -/
def ofName? (t : Text) : Option Verb := all.find? (·.name = t)

/-- What a command is for, in a line. -/
def summary : Verb → Text
  | .compile => of "Compile stylesheets to CSS"
  | .check => of "Compile stylesheets without writing output"
  | .functions => of "List builtin functions"
  | .mcp => of "Run a Model Context Protocol server over stdio"
  | .version => of "Print version information"
  | .completion => of "Generate the autocompletion script for the specified shell"
  | .help => of "Help about any command"

end Verb

/-- The name of the program. -/
def programName : Text := of "cascade"

/-- A command as help describes it. -/
structure Command where
  /-- The words that call it. -/
  path : Text
  /-- The names of its arguments. -/
  params : Text := []
  about : Text
  flags : List Flag
  /-- The flags it shares with every command. -/
  shared : List Flag := []
  /-- The commands below it, each with its summary. -/
  subcommands : List (Text × Text) := []
  /-- It does something of its own. -/
  runs : Bool := true

/-! ### Flags -/

/-- A switch that is off unless set. -/
def offSwitch (name help : String) : Flag :=
  { name := of name, kind := .switch false, help := of help }

/-- A switch that is on unless set. -/
def onSwitch (name help : String) : Flag :=
  { name := of name, kind := .switch true, help := of help }

/-- The flags every command takes. -/
def sharedFlags : List Flag :=
  [{ name := of "verbose", letter := some (ch 'v'), kind := .switch false,
      help := of "Show debug output" },
    { name := of "root", letter := some (ch 'C'), kind := .text (of "."),
      help := of "Project directory holding .config/cascade.yaml" }]

/-- The flag that asks for help on a command. -/
def helpFlag (name : Text) : Flag :=
  { name := of "help", letter := some (ch 'h'), kind := .switch false,
    help := of "help for " ++ name }

/-- The flags of a compilation. -/
def compilationFlags : List Flag :=
  [onSwitch "compress" "Compress output",
    offSwitch "no-compress" "Pretty-print output",
    onSwitch "short-colors" "Rewrite #aabbcc as #abc",
    onSwitch "reverse-colors" "Use the shortest spelling of each color",
    { name := of "load-path", letter := some (ch 'I'), kind := .texts,
      help := of "Directory searched for imports (repeatable)" },
    { name := of "var", kind := .texts,
      help := of "Pre-seed a variable as name=value (repeatable)" }]

/-- The flag that chooses the format of a listing. -/
def formatFlag : Flag :=
  { name := of "format", letter := some (ch 'f'), kind := .text (of "text"),
    help := of "Output format (text, json)" }

/-- The flags a command has of its own. -/
def Verb.ownFlags : Verb → List Flag
  | .compile =>
    [{ name := of "output", letter := some (ch 'o'), kind := .text [],
        help := of "Output file for a single input (- for stdout)" },
      { name := of "out-dir", kind := .text [], help := of "Directory receiving compiled CSS" },
      offSwitch "verify" "Re-parse the output and fail on invalid CSS",
      offSwitch "explain" "Print the ordered fragment tree instead of CSS"] ++ compilationFlags
  | .check =>
    [offSwitch "strict" "Fail on warnings", offSwitch "quiet" "Only output errors"] ++
      compilationFlags
  | .functions => [formatFlag]
  | .version => [formatFlag]
  | _ => []

/-- Every flag that a command understands. -/
def Verb.flags (v : Verb) : List Flag := v.ownFlags ++ helpFlag v.name :: sharedFlags

/-- Every flag that is understood without a command. -/
def rootFlags : List Flag := helpFlag programName :: sharedFlags

/-! ### Descriptions -/

/-- What a command is for, at length. -/
def Verb.about : Verb → Text
  | .compile => of "Compile stylesheets to CSS.

Files named on the command line are written to stdout unless --output or
--out-dir is given. With no arguments, the files listed in
.config/cascade.yaml are compiled to their configured outputs.

Examples:
  # Compile one file to stdout
  cascade compile main.scss

  # Pretty-print with an extra import directory
  cascade compile --no-compress -I vendor main.scss

  # Compile every configured file and check the output parses
  cascade compile --verify

  # Show how fragments were ordered
  cascade compile --explain main.scss"
  | .check => of "Compile stylesheets and report diagnostics without writing any CSS."
  | .functions =>
    of "List the builtin functions available to stylesheets, grouped by category."
  | .mcp =>
    of "Run a Model Context Protocol server over stdio exposing compile and functions tools."
  | .version => of "Print the cascade version along with its builtin functions and directives."
  | .completion => of "Generate the autocompletion script for cascade for the specified shell.
See each sub-command's help for details on how to use the generated script."
  | .help => of "Help provides help for any command in the application.
Simply type cascade help [path to command] for full details."

/-- The names of the arguments of a command. -/
def Verb.params : Verb → Text
  | .compile => of "[files...]"
  | .check => of "[files...]"
  | .help => of "[command]"
  | _ => []

/-- The shells that can complete arguments, each with a summary. -/
def shells : List (Text × Text) :=
  ["bash", "fish", "powershell", "zsh"].map fun s =>
    (of s, of "Generate the autocompletion script for " ++ of s)

/-- The description of a command. -/
def Verb.command (v : Verb) : Command :=
  { path := programName ++ ch ' ' :: v.name, params := v.params, about := v.about,
    flags := v.ownFlags ++ [helpFlag v.name], shared := sharedFlags,
    subcommands := if v = .completion then shells else [], runs := v ≠ .completion }

/-- The description of the program itself. -/
def rootCommand : Command :=
  { path := programName
    about := of "cascade compiles stylesheets with variables, nesting, mixins, functions,
control flow and selector inheritance into plain CSS."
    flags := rootFlags, subcommands := Verb.all.map fun v => (v.name, v.summary), runs := false }

/-! ### Help -/

namespace Command

/-- The least width of the column of names in a list of commands. -/
def nameWidth : Nat := 11

/-- A command in a list of commands. -/
def listed (c : Text × Text) : Text :=
  of "\n  " ++ c.1 ++ List.replicate (nameWidth - c.1.length) (ch ' ') ++ ch ' ' :: c.2

/-- How a command is called. -/
def useLine (c : Command) : Text :=
  c.path ++ (if c.params.isEmpty then [] else ch ' ' :: c.params) ++ of " [flags]"

/-- A titled list of flags, if there are any. -/
def flagSection (title : String) (flags : List Flag) : Text :=
  if flags.isEmpty then [] else of "\n\n" ++ of title ++ of ":\n" ++ flagUsages flags

/-- How a command is used. -/
def usage (c : Command) : Text :=
  let below := c.subcommands.mergeSort fun a b => le a.1 b.1
  of "Usage:" ++
    (if c.runs then of "\n  " ++ c.useLine else []) ++
    (if below.isEmpty then []
      else
        of "\n  " ++ c.path ++ of " [command]" ++ of "\n\nAvailable Commands:" ++
          below.flatMap listed) ++
    flagSection "Flags" c.flags ++ flagSection "Global Flags" c.shared ++
    (if below.isEmpty then []
      else
        of "\n\nUse \"" ++ c.path ++
          of " [command] --help\" for more information about a command.") ++
    [ch '\n']

/-- What a command is for and how it is used. -/
def help (c : Command) : Text := c.about ++ of "\n\n" ++ c.usage

end Command

/-! ### Suggestions -/

/-- The next row of the table of edit distances, for one more byte `c` of the other text.
`corner` is the entry above the one before, `left` the entry before. -/
def distanceRow (c : UInt8) : (corner left : Nat) → Text → List Nat → List Nat
  | corner, left, x :: xs, above :: row =>
    let d := if x = c then corner else min (min left above) corner + 1
    d :: distanceRow c above d xs row
  | _, _, _, _ => []

/-- The rows of the table one after the other; `i` is how many bytes of the other text
are behind, and the last entry of the last row is the distance. -/
def distanceFrom (s : Text) : (i : Nat) → List Nat → Text → Nat
  | i, row, [] => row.getLast?.getD i
  | i, row, c :: t => distanceFrom s (i + 1) (distanceRow c i (i + 1) s row) t

/-- How many bytes have to be changed, added or taken away to make one text the other. -/
def editDistance (s t : Text) : Nat := distanceFrom s 0 ((List.range s.length).map (· + 1)) t

/-- The distance up to which a name is taken for a slip. -/
def slipDistance : Nat := 2

/-- The commands that a name may have been meant for: those it is close to, and those it
is the start of. Help is never suggested. -/
def suggestions (t : Text) : List Text :=
  ((Verb.all.filter (· ≠ .help)).map Verb.name).filter fun name =>
    editDistance (lower t) name ≤ slipDistance || starts name (lower t)

end Stylesheet
