import Stylesheet.Text

/-!
# Paths

Paths with slashes, handled as text: no file is looked at. A clean path has no empty
segments, no `.`, and `..` only at the start of a relative path.

## Main definitions

* `Path.clean`, `Path.join` — clean paths
* `Path.dir`, `Path.base`, `Path.ext` — parts of a path
* `Path.rel?` — a path relative to another
-/

namespace Stylesheet.Path

open Text

/-- The slash. -/
def slash : UInt8 := ch '/'

/-- The segment that stands for the directory above. -/
def up : Text := of ".."

/-- An absolute path. -/
def isAbs (p : Text) : Bool := head0 p = slash

/-- One more segment on a list of segments, last first. -/
def push (rooted : Bool) (stack : List Text) (s : Text) : List Text :=
  if s.isEmpty || s = of "." then stack
  else if s = up then
    match stack with
    | top :: rest => if top = up then up :: stack else rest
    | [] => if rooted then [] else [up]
  else s :: stack

/-- The segments of a path after cleaning. -/
def segments (p : Text) : List Text :=
  ((split slash p).foldl (push (isAbs p)) []).reverse

/-- The shortest path that means the same; `.` for the empty path. -/
def clean (p : Text) : Text :=
  let body := Text.join [slash] (segments p)
  if isAbs p then slash :: body else if body.isEmpty then of "." else body

/-- Paths one below the other, empty ones left out; empty if all are. -/
def join (parts : List Text) : Text :=
  match parts.filter fun p => !p.isEmpty with
  | [] => []
  | ps => clean (Text.join [slash] ps)

/-- The text up to and including the last slash, and the text after it. -/
def splitLast (p : Text) : Text × Text :=
  match lastIndexOf slash p with
  | some i => (p.take (i + 1), p.drop (i + 1))
  | none => ([], p)

/-- The directory a path is in. -/
def dir (p : Text) : Text := clean (splitLast p).1

/-- The last segment; `.` for the empty path and `/` for one of slashes only. -/
def base (p : Text) : Text :=
  if p.isEmpty then of "."
  else
    let q := (p.reverse.dropWhile (· = slash)).reverse
    if q.isEmpty then [slash] else (splitLast q).2

/-- The last segment from its last point on, or nothing. -/
def ext (p : Text) : Text :=
  let name := (splitLast p).2
  match lastIndexOf (ch '.') name with
  | some i => name.drop i
  | none => []

/-- The name of a path's last segment without its extension. -/
def stem (p : Text) : Text := withoutEnd (base p) (ext p)

/-- What follows the segments two paths have in common. -/
def apart : List Text → List Text → List Text × List Text
  | a :: r, b :: s => if a = b then apart r s else (a :: r, b :: s)
  | r, s => (r, s)

/-- The path that leads from directory `root` to `target`, if one can be told. -/
def rel? (root target : Text) : Option Text :=
  if clean root = clean target then some (of ".")
  else if isAbs root ≠ isAbs target then none
  else
    let (back, forth) := apart (segments root) (segments target)
    if back.head? = some up then none
    else some (Text.join [slash] (back.map (fun _ => up) ++ forth))

/-- A path made absolute against a directory. -/
def absolute (root p : Text) : Text := if isAbs p then p else join [root, p]

end Stylesheet.Path
