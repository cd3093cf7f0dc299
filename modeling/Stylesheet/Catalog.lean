import Stylesheet.Compile.Directive
import Stylesheet.Data.Json

/-!
# What the language offers

Listings of the functions and directives of the language, as text for people and as JSON
for programs.

## Main definitions

* `Listed`, `catalog` — functions as they are listed
* `writeFunctions` — the listing
* `Build`, `VersionReport`, `writeVersion` — the version and what it offers
-/

namespace Stylesheet

open Text

/-- A function as it is listed. -/
structure Listed where
  name : Text
  arity : Int
  category : Text
  usage : Text
  deriving DecidableEq

/-- A call with parameters named by letters, or dots for any number of them. -/
def Function.usage (f : Function) : Text :=
  let params :=
    if f.arity = variadic then of "..."
    else
      join (of ", ")
        ((List.range f.arity.toNat).map fun (i : Nat) => of (Char.ofNat ('a'.toNat + i)).toString)
  f.name ++ ch '(' :: params ++ [ch ')']

/-- The functions of a table by category, name and arity. -/
def catalog (t : Table) : List Listed :=
  t.entries.map fun f => ⟨f.name, f.arity, f.category, f.usage⟩

/-- The functions of one category, or all of them for the empty one. -/
def catalogOf (t : Table) (category : Text) : List Listed :=
  (catalog t).filter fun f => category.isEmpty || f.category = category

/-- The listing formats that are known. -/
inductive ListFormat where
  | text
  | json
  deriving DecidableEq

/-- The format with a name; the empty name means text. -/
def ListFormat.ofName? (t : Text) : Option ListFormat :=
  if t.isEmpty || t = of "text" then some .text else if t = of "json" then some .json else none

/-- A letter with two cases. -/
def isCased (c : Char) : Bool :=
  let t := of c.toString
  c.isAlpha || upper t ≠ t || lower t ≠ t

/-- A mark that can stand inside a word, one at a time. -/
def isMidWord (c : Char) : Bool :=
  c = '\'' || c = '.' || c = ':' || c = '·' || c = '‘' || c = '’'

/-- A character between words: no digit or underscore, no combining mark, and no mark
that can stand inside a word. -/
def isWordBreak (c : Char) : Bool :=
  !(c.isDigit || c = '_' || isMidWord c || (0x300 ≤ c.toNat && c.toNat < 0x370))

/-- The first letter of each word as a capital and the others small. `inside` says that
the word has had its first letter, and `mid` that a mark inside a word came last. -/
def capitalizeFrom : (inside mid : Bool) → List Char → List Char
  | _, _, [] => []
  | inside, mid, c :: r =>
    let inside := inside && !(mid && isMidWord c)
    if isCased c then
      let t := of c.toString
      (if inside then lower t else upper t).asString.toList ++ capitalizeFrom true false r
    else c :: capitalizeFrom (inside && !isWordBreak c) (isMidWord c) r

/-- Each word with a capital letter. -/
def capitalize (t : Text) : Text :=
  of (String.ofList (capitalizeFrom false false t.asString.toList))

/-- The lines of a listing: functions under their category, categories apart. -/
def listingLines : (category : Option Text) → List Listed → List Text
  | _, [] => []
  | category, f :: rest =>
    let usage := of "  " ++ f.usage
    match category with
    | none => capitalize f.category :: usage :: listingLines (some f.category) rest
    | some c =>
      if c = f.category then usage :: listingLines (some c) rest
      else [] :: capitalize f.category :: usage :: listingLines (some f.category) rest

/-- A function as JSON. -/
def Listed.json (f : Listed) : Json :=
  .object [(of "name", .string f.name), (of "arity", .ofInt f.arity),
    (of "category", .string f.category), (of "usage", .string f.usage)]

/-- A format that is not known, and the formats that are, if they are to be named. -/
structure UnknownFormat where
  name : Text
  hint : Bool
  deriving DecidableEq

/-- The wording of an unknown format. -/
def UnknownFormat.message (e : UnknownFormat) : Text :=
  of "unknown format " ++ quoted e.name ++ if e.hint then of " (want text or json)" else []

/-- The listing of a table in a format. -/
def writeFunctions (t : Table) (format : Text) : Except UnknownFormat Text :=
  match ListFormat.ofName? format with
  | some .text => .ok ((listingLines none (catalog t)).flatMap (· ++ [ch '\n']))
  | some .json => .ok ((Json.array ((catalog t).map Listed.json)).indented ++ [ch '\n'])
  | none => .error ⟨format, true⟩

/-- What is known about how the program was built. -/
structure Build where
  version : Text
  commit : Text := []
  modified : Bool := false
  time : Text := []
  tools : Text := []
  deriving DecidableEq

/-- The version, with the start of the commit if there is one. -/
def Build.text (b : Build) : Text :=
  if b.commit.isEmpty then b.version
  else
    b.version ++ of " (" ++ b.commit.take 7 ++ (if b.modified then of "-dirty" else []) ++ [ch ')']

/-- How many functions each category has, by category. -/
def categoryCounts (t : Table) : List (Text × Nat) :=
  (sortUnique (t.functions.map (·.category))).map fun c =>
    (c, t.functions.countP fun f => f.category = c)

/-- The version and what it offers as JSON. What is not known is left out. -/
def versionJson (b : Build) (t : Table) : Json :=
  let known (name : String) (v : Text) : List (Text × Json) :=
    if v.isEmpty then [] else [(of name, .string v)]
  .object
    ([(of "version", .string b.version)] ++ known "commit" b.commit ++
      (if b.modified then [(of "modified", .bool true)] else []) ++ known "buildTime" b.time ++
      known "goVersion" b.tools ++
      [(of "functions", .ofNat t.functions.length),
        (of "categories", .object ((categoryCounts t).map fun (c, n) => (c, .ofNat n))),
        (of "directives", .array (directives.map .string))])

/-- The version and what it offers in a format. -/
def writeVersion (b : Build) (t : Table) (format : Text) : Except UnknownFormat Text :=
  match ListFormat.ofName? format with
  | some .text =>
    let counts := (categoryCounts t).map fun (c, n) => c ++ ch ' ' :: ofNat n
    .ok (of "cascade " ++ b.text ++ of "\n  " ++ ofNat t.functions.length ++
      of " builtin functions (" ++ join (of ", ") counts ++ of ")\n  " ++
      ofNat directives.length ++ of " directives\n")
  | some .json => .ok ((versionJson b t).indented ++ [ch '\n'])
  | none => .error ⟨format, false⟩

end Stylesheet
