import Stylesheet.Diagnostic
import Stylesheet.Text.Quoted

/-!
# Log lines

What is logged while the program runs: one line for each message, with its level, and
the file and offset of a diagnostic as fields. Messages for debugging are logged only on
request.

## Main definitions

* `LogLevel` — the level of a log line
* `logLine` — a line of the log
* `Diagnostic.log` — the line of a diagnostic
-/

namespace Stylesheet

open Text

/-- The level of a log line. -/
inductive LogLevel where
  | debug
  | info
  | warn
  | error
  deriving DecidableEq

/-- The name of a level. -/
def LogLevel.name : LogLevel → Text
  | .debug => of "debug"
  | .info => of "info"
  | .warn => of "warn"
  | .error => of "error"

/-- The level a severity is logged at. -/
def Severity.logLevel (s : Severity) : LogLevel :=
  if s = .debug then .debug else if s = .info then .info else if s = .warning then .warn else .error

/-- A byte of a quoted field, escaped where it has to be. -/
def fieldByte (c : UInt8) : Text :=
  if c = ch '"' || c = ch '\\' then [ch '\\', c]
  else if c = ch '\n' then of "\\n"
  else if c = ch '\r' then of "\\r"
  else if c = ch '\t' then of "\\t"
  else if c < 0x20 then of "\\u" ++ hexPadded 4 c.toNat
  else [c]

/-- A text as a quoted field. -/
def fieldText (t : Text) : Text := ch '"' :: t.flatMap fieldByte ++ [ch '"']

/-- A line of the log, with fields if there are any. Lines for debugging are empty unless
`verbose`. -/
def logLine (verbose : Bool) (level : LogLevel) (message : Text) (fields : List (Text × Text)) :
    Text :=
  if level = .debug && !verbose then []
  else
    level.name ++ of ": " ++ message ++
      (if fields.isEmpty then []
        else
          of ": \x7b" ++
            join (of ", ") (fields.map fun (name, v) => fieldText name ++ of ": " ++ v) ++
            of "\x7d") ++
      [ch '\n']

/-- The line of a diagnostic. -/
def Diagnostic.log (verbose : Bool) (d : Diagnostic) : Text :=
  logLine verbose d.severity.logLevel d.message
    ((if d.file.isEmpty then [] else [(of "file", fieldText d.file)]) ++
      if d.offset ≥ 0 then [(of "offset", ofInt d.offset)] else [])

end Stylesheet
