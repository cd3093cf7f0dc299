import Stylesheet.FileTree

/-!
# Imports

How the name after `@import` is found among the files. A name that starts with `npm:`
is looked for in the package of that name, in the `node_modules` of the importing
directory or of one above it. Any other name is looked for in the importing directory
and in the load paths, but never outside them. A name is tried with an underscore before
it and with the extension after it.

## Main definitions

* `candidates` — the spellings of a name that are tried
* `isPlainImport` — an import left to the browser
* `Package.parse?` — package and file of a package import
* `Resolver` — where names are looked for
* `Resolver.resolve` — the file a name stands for, or why there is none
-/

namespace Stylesheet

open Text

/-- The extension of stylesheets. -/
def extension : Text := of ".scss"

/-- What package imports start with. -/
def packageMark : Text := of "npm:"

/-- How a name was found. -/
inductive ImportKind where
  | loadPath
  | package
  deriving DecidableEq

/-- The name of a kind of import. -/
def ImportKind.name : ImportKind → Text
  | .loadPath => of "load-path"
  | .package => of "npm"

/-- An import name, the file found for it, and how. -/
structure Resolved where
  name : Text
  path : Text
  kind : ImportKind
  deriving DecidableEq

/-- Why no file was found. -/
inductive ImportError where
  | noResolver (name : Text)
  | outside (name : Text)
  | notFound (name : Text) (searched : List Text)
  | notPackage (name : Text)
  | noPackage (name start : Text)
  deriving DecidableEq

/-- The wording of a failed import. -/
def ImportError.message (e : ImportError) : Text :=
  of "import not found: " ++
    match e with
    | .noResolver name => of "no resolver for " ++ name
    | .outside name => name ++ of " reaches outside the load paths"
    | .notFound name searched =>
      name ++ of " (looked in " ++ join (of ", ") searched ++ [ch ')']
    | .notPackage name => of "not an npm import: " ++ name
    | .noPackage name start =>
      name ++ of " (looked in node_modules starting from " ++ start ++ [ch ')']

/-- The spellings of a name in the order they are tried. -/
def candidates (name : Text) : List Text :=
  let (dir, file) := Path.splitLast name
  [dir ++ ch '_' :: file ++ extension, dir ++ file ++ extension, dir ++ ch '_' :: file, dir ++ file]

/-- An import that stays as it is: another address, a `url()`, or a style sheet that needs
no compiling. -/
def isPlainImport (name : Text) : Bool :=
  has name (of "://") || starts name (of "url(") || ends name (of ".css")

/-- A package and a file in it. -/
structure Package where
  name : Text
  file : Text
  deriving DecidableEq

/-- The first segment of a text, which must not be empty, and the rest from the slash on. -/
def segment? (t : Text) : Option (Text × Text) :=
  let name := t.takeWhile (· ≠ ch '/')
  if name.isEmpty then none else some (name, t.drop name.length)

/-- The package name at the start of a text: one segment, or a scope and a segment. -/
def packageName? (t : Text) : Option (Text × Text) :=
  let single := segment? t
  if head0 t = ch '@' then
    match segment? (t.drop 1) with
    | some (scope, rest) =>
      match segment? (rest.drop 1) with
      | some (name, rest) => some (ch '@' :: scope ++ ch '/' :: name, rest)
      | none => single
    | none => single
  else single

/-- Package and file of a package import. -/
def Package.parse? (name : Text) : Option Package :=
  (after? name packageMark).bind fun body =>
    (packageName? body).bind fun (package, rest) =>
      let file := rest.drop 1
      if hasByte file (ch '\n') then none else some ⟨package, file⟩

/-- A place to look for imports. -/
inductive Resolver where
  /-- In the importing directory and these load paths. -/
  | loadPath (paths : List Text)
  /-- In packages, from the importing directory or else this one upwards. -/
  | package (root : Text)
  /-- In the first of these that takes the name. -/
  | chain (resolvers : List Resolver)

namespace Resolver

/-- Packages first, then the load paths. -/
def standard (root : Text) (paths : List Text) : Resolver := .chain [.package root, .loadPath paths]

mutual

/-- Does the resolver take such a name? -/
def takes (name : Text) : Resolver → Bool
  | .loadPath _ => !starts name packageMark
  | .package _ => starts name packageMark
  | .chain rs => anyTakes name rs

/-- Does one of the resolvers take such a name? -/
def anyTakes (name : Text) : List Resolver → Bool
  | [] => false
  | r :: rs => takes name r || anyTakes name rs

end

/-- The directories searched from `src`: that one and the load paths, the working
directory if there are none, each once. -/
def searchDirs (paths : List Text) (src : Text) : List Text :=
  let dirs := (if src.isEmpty then [] else [Path.clean src]) ++ paths.map Path.clean
  (if dirs.isEmpty then [of "."] else dirs).foldl
    (fun seen d => if seen.contains d then seen else seen ++ [d]) []

/-- The first spelling that is a file, in the first directory that has one. -/
def firstFile? (tree : FileTree) (dirs names : List Text) : Option Text :=
  (dirs.flatMap fun d => names.map fun n => Path.join [d, n]).find? tree.isFile

/-- A name in the importing directory and the load paths. -/
def byLoadPath (tree : FileTree) (paths : List Text) (name src : Text) :
    Except ImportError Resolved :=
  if (split (ch '/') name).contains Path.up then .error (.outside name)
  else
    let dirs := searchDirs paths src
    match firstFile? tree dirs (candidates name) with
    | some p => .ok ⟨name, p, .loadPath⟩
    | none => .error (.notFound name dirs)

/-- A directory and those above it. -/
def upwards : (fuel : Nat) → Text → List Text
  | 0, dir => [dir]
  | fuel + 1, dir =>
    let above := Path.dir dir
    if above = dir then [dir] else dir :: upwards fuel above

/-- A name in the packages of a directory and those above it. -/
def byPackage (tree : FileTree) (root name src : Text) : Except ImportError Resolved :=
  match Package.parse? name with
  | none => .error (.notPackage name)
  | some pkg =>
    let file := if pkg.file.isEmpty then of "index" else pkg.file
    let start := if src.isEmpty then root else src
    let start := Path.absolute tree.cwd start
    let dirs := (upwards start.length start).map fun d =>
      Path.join [d, of "node_modules", pkg.name]
    match firstFile? tree (dirs.filter tree.exists') (candidates file) with
    | some p => .ok ⟨name, p, .package⟩
    | none => .error (.noPackage name start)

mutual

/-- The file a name stands for when imported from a directory, which is empty for text
without a place of its own. -/
def resolve (tree : FileTree) (name src : Text) : Resolver → Except ImportError Resolved
  | .loadPath paths => byLoadPath tree paths name src
  | .package root => byPackage tree root name src
  | .chain rs => resolveFirst tree name src rs

/-- The answer of the first resolver that takes the name. -/
def resolveFirst (tree : FileTree) (name src : Text) :
    List Resolver → Except ImportError Resolved
  | [] => .error (.noResolver name)
  | r :: rs => if takes name r then resolve tree name src r else resolveFirst tree name src rs

end

end Resolver

end Stylesheet
