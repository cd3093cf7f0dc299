import Stylesheet.Text
import Stylesheet.Text.Quoted

/-!
# Diagnostics

What is reported about a stylesheet. A structural error, an unbalanced brace, quote or
parenthesis, ends a compilation; everything else is a diagnostic with a severity, and
compilation goes on.

## Main definitions

* `Severity`, `Diagnostic` — recoverable conditions
* `StructuralKind`, `StructuralError` — unbalanced text
* `SourceError` — a structural error with the file it was found in
-/

namespace Stylesheet

open Text

/-- How grave a diagnostic is: 0 for debugging, 1 for information, 2 for a warning, 3 for
an error. -/
structure Severity where
  level : Int
  deriving DecidableEq

namespace Severity

/-- Shown on request only. -/
def debug : Severity := ⟨0⟩

/-- For information. -/
def info : Severity := ⟨1⟩

/-- Something is probably wrong. -/
def warning : Severity := ⟨2⟩

/-- Something is wrong. -/
def error : Severity := ⟨3⟩

/-- The name of a severity. -/
def name (s : Severity) : Text :=
  if s = debug then of "debug"
  else if s = info then of "info"
  else if s = warning then of "warning"
  else if s = error then of "error"
  else of "severity(" ++ ofInt s.level ++ [ch ')']

/-- At least as grave as another. -/
def atLeast (s t : Severity) : Bool := t.level ≤ s.level

end Severity

/-- A recoverable condition. The file is empty and the offset negative where unknown. -/
structure Diagnostic where
  severity : Severity
  message : Text
  file : Text := []
  offset : Int := -1
  deriving DecidableEq

/-- A diagnostic on one line: severity, place and message. -/
def Diagnostic.text (d : Diagnostic) : Text :=
  let place :=
    if d.file.isEmpty then []
    else d.file ++ (if d.offset ≥ 0 then ch ':' :: ofInt d.offset else []) ++ of ": "
  d.severity.name ++ of ": " ++ place ++ d.message

/-- The diagnostics at least as grave as a severity. -/
def countAtLeast (s : Severity) (ds : List Diagnostic) : Nat := ds.countP (·.severity.atLeast s)

/-- What is unbalanced in a text. -/
inductive StructuralKind where
  | unclosedBlock
  | unclosedString
  | unclosedParen
  | unexpectedClose
  deriving DecidableEq

/-- How messages name an imbalance. -/
def StructuralKind.name : StructuralKind → Text
  | .unclosedBlock => of "unclosed block"
  | .unclosedString => of "unclosed string"
  | .unclosedParen => of "unclosed parenthesis"
  | .unexpectedClose => of "unexpected closing brace"

/-- An imbalance, the offset where it starts, and the header of the block it is in. -/
structure StructuralError where
  kind : StructuralKind
  offset : Int
  header : Text := []
  deriving DecidableEq

/-- The wording of a structural error. -/
def StructuralError.message (e : StructuralError) : Text :=
  e.kind.name ++ of " at offset " ++ ofInt e.offset ++
    if e.header.isEmpty then [] else of ": " ++ quoted e.header

/-- A structural error and the file it was found in; no file yet if that is empty. -/
structure SourceError where
  file : Text := []
  cause : StructuralError
  deriving DecidableEq

/-- The wording of a structural error in a file. -/
def SourceError.message (e : SourceError) : Text :=
  (if e.file.isEmpty then [] else e.file ++ of ": ") ++ e.cause.message

end Stylesheet
