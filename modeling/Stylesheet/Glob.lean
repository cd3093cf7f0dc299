import Stylesheet.FileTree

/-!
# Globs

Patterns of paths: `*` and `?` match within a segment, a class in brackets matches one
character of a set, a segment `**` matches any number of segments, and braces list
alternatives. A backslash takes the character after it literally. These are the rules of a
shell, with `**` added; a pattern with a brace that is not closed matches nothing, and so
does a class that is not closed.

## Main definitions

* `isGlob` — a path with a pattern in it
* `expandBraces` — the alternatives of a pattern
* `matchSegment`, `matchPath` — one segment, and whole paths
* `FileTree.glob` — the files a pattern matches
-/

namespace Stylesheet

open Text

/-- Is the path a pattern? -/
def isGlob (p : Text) : Bool :=
  p.any fun c => c = ch '*' || c = ch '?' || c = ch '[' || c = ch '\x7b'

namespace Glob

/-- A pattern cut at its first brace: before it, the alternatives, and after them. -/
structure Cut where
  before : List Char
  alternatives : List (List Char)
  after : List Char

/-- The alternatives up to the closing brace and what follows it, `part` being the one
under way, last character first, and `depth` the number of braces open inside. -/
def alternativesFrom : (depth : Nat) → (part : List Char) → List Char →
    Option (List (List Char) × List Char)
  | _, _, [] => none
  | _, _, ['\\'] => none
  | depth, part, '\\' :: c :: r => alternativesFrom depth (c :: '\\' :: part) r
  | depth, part, c :: r =>
    if c = '\x7b' then alternativesFrom (depth + 1) (c :: part) r
    else if c = '\x7d' then
      match depth with
      | 0 => some ([part.reverse], r)
      | d + 1 => alternativesFrom d (c :: part) r
    else if c = ',' && depth = 0 then
      (alternativesFrom 0 [] r).map fun (more, rest) => (part.reverse :: more, rest)
    else alternativesFrom depth (c :: part) r

/-- Cuts a pattern at its first brace; nothing is cut if there is none, and there is no
result if the brace is not closed. -/
def cutFrom : (before : List Char) → List Char → Option (Option Cut)
  | _, [] => some none
  | before, '\\' :: c :: r => cutFrom (c :: '\\' :: before) r
  | before, c :: r =>
    if c = '\x7b' then
      (alternativesFrom 0 [] r).map fun (alternatives, after) =>
        some ⟨before.reverse, alternatives, after⟩
    else cutFrom (c :: before) r

/-- A pattern with one of each of its alternatives, in every combination; nothing if a
brace is not closed. -/
def expandBraces : (fuel : Nat) → List Char → List (List Char)
  | 0, p => [p]
  | fuel + 1, p =>
    match cutFrom [] p with
    | none => []
    | some none => [p]
    | some (some c) => c.alternatives.flatMap fun a => expandBraces fuel (c.before ++ a ++ c.after)

/-- Does a class, given after its bracket and mark, have a character? `last` is the
character that a range may start with. Gives also what follows the class; nothing if it
is not closed. -/
def classFrom (x : Char) : (found : Bool) → (last : Option Char) → (skip : Nat) → List Char →
    Option (Bool × List Char)
  | _, _, _, [] => none
  | found, last, skip + 1, _ :: r => classFrom x found last skip r
  | found, last, 0, c :: r =>
    if c = ']' then some (found, r)
    else match last, c, r with
      | some a, '-', b :: more =>
        if b = ']' then classFrom x (found || x = c) (some c) 0 r
        else
          let (b, width) := if b = '\\' then (more.headD b, 2) else (b, 1)
          classFrom x (found || (a ≤ x && x ≤ b)) none width r
      | _, '\\', b :: _ => classFrom x (found || x = b) (some b) 1 r
      | _, _, _ => classFrom x (found || x = c) (some c) 0 r

/-- Does a class, given after its bracket, match a character? Gives also what follows
it. -/
def matchClass (x : Char) (p : List Char) : Option (Bool × List Char) :=
  match p with
  | c :: r =>
    let negated := c = '!' || c = '^'
    let body := if negated then r else c :: r
    if body.head? = some ']' then none
    else (classFrom x false none 0 body).map fun (found, rest) => (found != negated, rest)
  | [] => none

/-- Does a pattern match a segment? The fuel is at least the length of both. -/
def matchSegment : (fuel : Nat) → List Char → List Char → Bool
  | 0, p, n => p.isEmpty && n.isEmpty
  | _ + 1, [], n => n.isEmpty
  | fuel + 1, c :: p, n =>
    if c = '*' then
      matchSegment fuel p n ||
        match n with
        | [] => false
        | _ :: n => matchSegment fuel (c :: p) n
    else match n with
      | [] => false
      | x :: n =>
        if c = '?' then matchSegment fuel p n
        else if c = '[' then
          match matchClass x p with
          | some (true, rest) => matchSegment fuel rest n
          | _ => false
        else if c = '\\' then
          match p with
          | d :: p => d = x && matchSegment fuel p n
          | [] => false
        else c = x && matchSegment fuel p n

/-- The segment that stands for any number of segments. -/
def anyDepth : List Char := ['*', '*']

/-- Do the segments of a pattern match those of a path? -/
def matchPath : (fuel : Nat) → List (List Char) → List (List Char) → Bool
  | 0, p, n => p.isEmpty && n.isEmpty
  | _ + 1, [], n => n.isEmpty
  | fuel + 1, s :: p, n =>
    if s = anyDepth then
      matchPath fuel p n ||
        match n with
        | [] => false
        | _ :: n => matchPath fuel (s :: p) n
    else match n with
      | [] => false
      | x :: n => matchSegment (s.length + x.length + 1) s x && matchPath fuel p n

/-- The segments of characters between slashes. -/
def charSegments (t : List Char) : List (List Char) :=
  (split (ch '/') (of (String.ofList t))).map fun s => (Text.asString s).toList

/-- Does a pattern match a path? -/
def isMatch (pattern path : Text) : Bool :=
  let name := charSegments path.asString.toList
  (expandBraces pattern.length pattern.asString.toList).any fun p =>
    let p := charSegments p
    matchPath (p.length + name.length + 1) p name

/-- The directory a pattern starts from: the part before the first segment that is one. -/
def baseDir : (fuel : Nat) → Text → Text
  | 0, p => p
  | fuel + 1, p => if isGlob p then baseDir fuel (Path.dir p) else p

end Glob

/-- The files that a pattern matches, in order. Files whose name starts with an
underscore are left out. -/
def FileTree.glob (t : FileTree) (pattern : Text) : List Text :=
  let base := Glob.baseDir (pattern.length + 1) pattern
  let below (p : Text) : Text := without (without p base) [ch '/']
  sort ((t.walk base).filter fun p =>
    !starts (Path.base p) [ch '_'] && Glob.isMatch (below pattern) (below p))

end Stylesheet
