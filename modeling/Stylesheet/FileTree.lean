import Stylesheet.Text
import Stylesheet.Path

/-!
# File trees

A tree of files held in memory. A file is stored under its clean path from the root; a
directory exists as long as a file is below it, and an empty one is kept by a marker
file. Relative paths start at the working directory. A file can be there and yet not be
one that can be read.

## Main definitions

* `FileTree` — files, the working directory, and how errors are worded
* `FileTree.read`, `FileTree.stat`, `FileTree.exists`, `FileTree.list` — reading
* `FileTree.write`, `FileTree.makeDir` — writing
* `FileTree.walk` — every file below a directory
* `FileTree.changedFrom` — what was written
-/

namespace Stylesheet

open Text

/-- Why a file operation failed. -/
inductive FileError where
  | notFound (path : Text)
  | readDirectory (path : Text)
  | listFile (path : Text)
  | writeBelowFile (path : Text)
  | makeOverFile (path : Text)
  | readBelowFile (path : Text)
  | writeDirectory (path : Text)
  | makeBelowFile (path : Text)
  | denied (path : Text)
  deriving DecidableEq

/-- The wording for a tree in memory. -/
def FileError.message : FileError → Text
  | .notFound p => of "open " ++ p ++ of ": file does not exist"
  | .readDirectory p => of "read " ++ p ++ of ": invalid argument"
  | .listFile p => of "readdir " ++ p ++ of ": not implemented"
  | .writeBelowFile p => of "open " ++ p ++ of ": not a directory"
  | .makeOverFile p => of "mkdir " ++ p ++ of ": not a directory"
  | .readBelowFile p => of "open " ++ p ++ of ": file does not exist"
  | .writeDirectory p => of "open " ++ p ++ of ": is a directory"
  | .makeBelowFile p => of "mkdir " ++ p ++ of ": file exists"
  | .denied p => of "open " ++ p ++ of ": permission denied"

/-- The wording of an operating system. -/
def FileError.systemMessage : FileError → Text
  | .notFound p => of "open " ++ p ++ of ": no such file or directory"
  | .readDirectory p => of "read " ++ p ++ of ": is a directory"
  | .listFile p => of "fdopendir " ++ p ++ of ": not a directory"
  | .writeBelowFile p => of "open " ++ p ++ of ": not a directory"
  | .makeOverFile p => of "mkdir " ++ p ++ of ": not a directory"
  | .readBelowFile p => of "open " ++ p ++ of ": not a directory"
  | .writeDirectory p => of "open " ++ p ++ of ": is a directory"
  | .makeBelowFile p => of "mkdir " ++ p ++ of ": file exists"
  | .denied p => of "open " ++ p ++ of ": permission denied"

/-- Files by their clean path without the leading slash. -/
structure FileTree where
  files : List (Text × Text) := []
  cwd : Text := [ch '/']
  /-- The tree is that of an operating system: directories and files keep each other out,
  errors name paths as they were given and are worded as there. -/
  system : Bool := false
  /-- The keys of files that cannot be read. -/
  unreadable : List Text := []

/-- What is known about a file or directory. -/
structure FileInfo where
  name : Text
  isDir : Bool
  size : Nat
  deriving DecidableEq

namespace FileTree

/-- The name of the file that keeps an empty directory. -/
def keepFile : Text := of ".keep"

/-- The key of a path. -/
def key (t : FileTree) (p : Text) : Text :=
  without (Path.clean (if Path.isAbs p then p else t.cwd ++ ch '/' :: p)) [ch '/']

/-- The path an error about `p` names. -/
def shown (t : FileTree) (p : Text) : Text := if t.system then p else t.key p

/-- The wording of an error. -/
def describe (t : FileTree) (e : FileError) : Text :=
  if t.system then e.systemMessage else e.message

/-- The names of what is directly in the directory with this key, directories with a
flag. A name with a file of its own is that file. -/
def children (t : FileTree) (k : Text) : List (Text × Bool) :=
  let front := if k.isEmpty then [] else k ++ [ch '/']
  let below := t.files.filterMap fun (f, _) => after? f front
  let names := below.map fun r =>
    match indexOf (ch '/') r with
    | some i => (r.take i, true)
    | none => (r, false)
  (sortUnique (names.map (·.1))).map fun n => (n, !names.contains (n, false))

/-- The content of the file with a key. -/
def content? (t : FileTree) (k : Text) : Option Text := t.files.lookup k

/-- Every key below this one. -/
def hasBelow (t : FileTree) (k : Text) : Bool :=
  t.files.any fun (f, _) => starts f (k ++ [ch '/'])

/-- The root of a tree in memory has no name that can be opened. -/
def openable (t : FileTree) (k : Text) : Bool := t.system || !k.isEmpty

/-- The keys of the directories above a key, nearest first. -/
def above : (fuel : Nat) → Text → List Text
  | 0, _ => []
  | fuel + 1, k =>
    match lastIndexOf (ch '/') k with
    | some i => k.take i :: above fuel (k.take i)
    | none => []

/-- One of the directories above a key is a file. -/
def belowFile (t : FileTree) (k : Text) : Bool :=
  (above k.length k).any fun d => (t.content? d).isSome

/-- The key is that of a directory. -/
def isDirKey (t : FileTree) (k : Text) : Bool :=
  (k.isEmpty || t.hasBelow k) && (t.content? k).isNone

/-- The text of a file. -/
def read (t : FileTree) (p : Text) : Except FileError Text :=
  let k := t.key p
  match t.content? k with
  | some c =>
    if t.openable k then
      if t.unreadable.contains k then .error (.denied (t.shown p)) else .ok c
    else .error (.notFound (t.shown p))
  | none =>
    if t.openable k && (k.isEmpty || t.hasBelow k) then .error (.readDirectory (t.shown p))
    else if t.belowFile k then .error (.readBelowFile (t.shown p))
    else .error (.notFound (t.shown p))

/-- What a path names. -/
def stat (t : FileTree) (p : Text) : Except FileError FileInfo :=
  let k := t.key p
  if !t.openable k then .error (.notFound (t.shown p))
  else match t.content? k with
    | some c => .ok ⟨Path.base k, false, c.length⟩
    | none =>
      if k.isEmpty || t.hasBelow k then .ok ⟨Path.base k, true, 0⟩
      else .error (.notFound (t.shown p))

/-- The path names a file that is no directory. Nothing else is asked of it: a file that
cannot be read is a file too. -/
def isFile (t : FileTree) (p : Text) : Bool :=
  match t.stat p with
  | .ok info => !info.isDir
  | .error _ => false

/-- The path names a file or directory. -/
def exists' (t : FileTree) (p : Text) : Bool :=
  let k := t.key p
  (t.content? k).isSome || t.hasBelow k || (t.system && k.isEmpty)

/-- What is directly in a directory, in order of names. -/
def list (t : FileTree) (p : Text) : Except FileError (List (Text × Bool)) :=
  let k := t.key p
  match t.stat p with
  | .error e => .error e
  | .ok info => if info.isDir then .ok (t.children k) else .error (.listFile (t.shown p))

/-- Stores a text under a key. -/
def put (t : FileTree) (k content : Text) : FileTree :=
  { t with files := (k, content) :: t.files.filter (·.1 ≠ k) }

/-- Adds a file whatever is there. -/
def add (t : FileTree) (p content : Text) : FileTree := t.put (t.key p) content

/-- Adds a file with its text, if that can be read. -/
def addFound (t : FileTree) (p : Text) (content : Option Text) : FileTree :=
  match content with
  | some c => t.add p c
  | none => { t.add p [] with unreadable := t.key p :: t.unreadable }

/-- A tree of files given by path. -/
def ofList (files : List (Text × Text)) : FileTree :=
  files.foldl (fun t (p, c) => t.add p c) {}

/-- The key of the directory a key is in. -/
def parentKey (k : Text) : Text := Path.dir k

/-- Writes a file, in a directory that need not exist. -/
def write (t : FileTree) (p content : Text) : Except FileError FileTree :=
  let k := t.key p
  if (t.content? (parentKey k)).isSome then .error (.writeBelowFile (t.shown p))
  else if t.system && t.isDirKey k then .error (.writeDirectory (t.shown p))
  else .ok (t.put k content)

/-- The paths a path leads through, longest first, each with a slash at its end. -/
def leading : (fuel : Nat) → Text → List Text
  | 0, _ => []
  | fuel + 1, p =>
    match lastIndexOf (ch '/') p with
    | some i => p.take (i + 1) :: leading fuel (p.take i)
    | none => []

/-- Makes a directory. -/
def makeDir (t : FileTree) (p : Text) : Except FileError FileTree :=
  let k := t.key p
  if (t.content? k).isSome then .error (.makeOverFile (t.shown p))
  else if t.system then
    match (leading p.length p).find? fun q => (t.content? (t.key q)).isSome with
    | some q => .error (.makeBelowFile q)
    | none => .ok t
  else .ok (t.put (Path.join [k, keepFile]) [])

/-- The files of a tree that are new or other than before, by key. -/
def changedFrom (t old : FileTree) : List (Text × Text) :=
  t.files.filter fun (k, c) => old.content? k ≠ some c

/-- The absolute paths of all files but those that keep directories, in order. -/
def paths (t : FileTree) : List Text :=
  sort ((t.files.filter fun (k, _) => Path.base k ≠ keepFile).map fun (k, _) => ch '/' :: k)

/-- The paths of all files at or below a path, each written from that path on. -/
def walk (t : FileTree) (p : Text) : List Text :=
  if !t.openable (t.key p) then []
  else match t.content? (t.key p) with
  | some _ => [p]
  | none =>
    let k := t.key p
    let front := if k.isEmpty then [] else k ++ [ch '/']
    t.files.filterMap fun (f, _) => (after? f front).map fun r => Path.join [p, r]

end FileTree

end Stylesheet
