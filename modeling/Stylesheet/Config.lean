import Stylesheet.Data.Json
import Stylesheet.Data.Yaml.Reader
import Stylesheet.Glob
import Stylesheet.Compile.Session

/-!
# Project configuration

A project can list its stylesheets, where their output goes, and how they are compiled,
in a file in its configuration directory: in YAML, or in JSON with comments. The first
file that exists is read. Fields that are not known are passed over; in JSON a field is
known whatever the case of its letters.

## Main definitions

* `FileSpec`, `Config` — what is configured
* `ConfigError` — why a configuration cannot be read
* `Config.ofJson`, `Config.ofYaml` — configurations from both
* `Config.load` — the configuration of a project
* `Config.options`, `Config.outputFor`, `Config.expandFiles` — what follows from it
-/

namespace Stylesheet

open Text

/-- A stylesheet, or a pattern of several, and where its output goes. -/
structure FileSpec where
  path : Text := []
  output : Text := []
  deriving DecidableEq

/-- What is configured for a project. -/
structure Config where
  files : List FileSpec := []
  outDir : Text := []
  loadPaths : List Text := []
  compress : Option Bool := none
  shortColors : Option Bool := none
  reverseColors : Option Bool := none
  presets : List (Text × Text) := []
  deriving DecidableEq

/-- A node of a configuration file that is not what its place asks for, or a key that its
mapping already has. -/
inductive Mismatch where
  | kind (line : Nat) (found : Yaml.Tag) (value expected : Text)
  | repeated (key : Text) (line first : Nat)
  deriving DecidableEq

/-- How messages show the text of a scalar: a long one is cut. -/
def excerpt (value : Text) : Text :=
  of " `" ++ (if value.length > 10 then value.take 7 ++ of "..." else value) ++ of "`"

/-- How messages tell a mismatch. -/
def Mismatch.message : Mismatch → Text
  | .kind line found value expected =>
    of "line " ++ ofNat line ++ of ": cannot unmarshal " ++ found.name ++
      (if found = .seq || found = .map then [] else excerpt value) ++ of " into " ++ expected
  | .repeated key line first =>
    of "line " ++ ofNat line ++ of ": mapping key " ++ quoted key ++
      of " already defined at line " ++ ofNat first

/-- Why a configuration cannot be read. -/
inductive ConfigFault where
  | json (e : Json.ReadError)
  | jsonType (found field expected : Text)
  | yaml (e : Yaml.ReadError)
  | yamlTypes (mismatches : List Mismatch)
  deriving DecidableEq

/-- The wording of a fault. -/
def ConfigFault.message : ConfigFault → Text
  | .json e => e.message
  | .jsonType found field expected =>
    of "json: cannot unmarshal " ++ found ++
      (if field.isEmpty then of " into Go value of type " ++ expected
        else of " into Go struct field Config." ++ field ++ of " of type " ++ expected)
  | .yaml e => e.message
  | .yamlTypes ms =>
    of "yaml: unmarshal errors:" ++ ms.flatMap fun m => of "\n  " ++ m.message

/-- Why a project has no configuration. -/
inductive ConfigError where
  | unreadable (cause : FileError)
  | malformed (path : Text) (cause : ConfigFault)
  deriving DecidableEq

/-- The wording of a failure, in the words of a file tree. -/
def ConfigError.message (t : FileTree) : ConfigError → Text
  | .unreadable e => t.describe e
  | .malformed path cause => path ++ of ": " ++ cause.message

namespace Config

/-! ### From JSON -/

/-- How messages name a kind of value. -/
def jsonKind : Json → Text
  | .null => of "null"
  | .bool _ => of "bool"
  | .number _ => of "number"
  | .string _ => of "string"
  | .array _ => of "array"
  | .object _ => of "object"

/-- The failure of a value in a field. -/
def jsonFault {α : Type} (j : Json) (field : Text) (expected : String) : Except ConfigFault α :=
  .error (.jsonType (jsonKind j) field (of expected))

/-- A text; a null leaves what is there. -/
def jsonText (field old : Text) : Json → Except ConfigFault Text
  | .string t => .ok t
  | .null => .ok old
  | j => jsonFault j field "string"

/-- A switch; a null unsets it. -/
def jsonFlag (field : Text) : Json → Except ConfigFault (Option Bool)
  | .bool b => .ok (some b)
  | .null => .ok none
  | j => jsonFault j field "bool"

/-- The items of an array, each read over the one that was in its place before, or over
`fresh` where there was none. -/
def jsonItems {α : Type} (read : α → Json → Except ConfigFault α) (fresh : α) :
    (old : List α) → List Json → Except ConfigFault (List α)
  | _, [] => .ok []
  | old, j :: rest => do
    let v ← read (old.headD fresh) j
    let vs ← jsonItems read fresh (old.drop 1) rest
    return v :: vs

/-- A list of texts. -/
def jsonTexts (field : Text) (old : List Text) : Json → Except ConfigFault (List Text)
  | .array items => jsonItems (jsonText field) [] old items
  | .null => .ok []
  | j => jsonFault j field "[]string"

/-- Texts by name, over those already there. -/
def jsonVariables (field : Text) (old : List (Text × Text)) :
    Json → Except ConfigFault (List (Text × Text))
  | .object fields =>
    fields.foldlM (fun vars (name, j) => (jsonText field [] j).map (assign name · vars)) old
  | .null => .ok []
  | j => jsonFault j field "map[string]string"

/-- The value of the last field with a name, whatever the case of its letters. -/
def sameField (name : String) (key : Text) : Bool := sameFold key (of name)

/-- A file to compile: its path, or an object with path and output. -/
def jsonFile (field : Text) (old : FileSpec) : Json → Except ConfigFault FileSpec
  | .string t => .ok { old with path := t }
  | .null => .ok { old with path := [] }
  | .object fields =>
    fields.foldlM
      (fun spec (key, j) =>
        if sameField "path" key then
          (jsonText (field ++ of ".path") spec.path j).map fun t => { spec with path := t }
        else if sameField "output" key then
          (jsonText (field ++ of ".output") spec.output j).map fun t => { spec with output := t }
        else .ok spec)
      old
  | j => jsonFault j field "config.rawFileSpec"

/-- The files to compile. -/
def jsonFiles (field : Text) (old : List FileSpec) : Json → Except ConfigFault (List FileSpec)
  | .array items => jsonItems (jsonFile field) {} old items
  | .null => .ok []
  | j => jsonFault j field "[]config.FileSpec"

/-- A configuration with one more field set. -/
def jsonField (c : Config) (key : Text) (j : Json) : Except ConfigFault Config :=
  if sameField "files" key then
    (jsonFiles (of "files") c.files j).map fun v => { c with files := v }
  else if sameField "outDir" key then
    (jsonText (of "outDir") c.outDir j).map fun v => { c with outDir := v }
  else if sameField "loadPaths" key then
    (jsonTexts (of "loadPaths") c.loadPaths j).map fun v => { c with loadPaths := v }
  else if sameField "compress" key then
    (jsonFlag (of "compress") j).map fun v => { c with compress := v }
  else if sameField "shortColors" key then
    (jsonFlag (of "shortColors") j).map fun v => { c with shortColors := v }
  else if sameField "reverseColors" key then
    (jsonFlag (of "reverseColors") j).map fun v => { c with reverseColors := v }
  else if sameField "variables" key then
    (jsonVariables (of "variables") c.presets j).map fun v => { c with presets := v }
  else .ok c

/-- A configuration from a JSON value. -/
def ofJson : Json → Except ConfigFault Config
  | .object fields => fields.foldlM (fun c (key, j) => c.jsonField key j) {}
  | .null => .ok {}
  | j => jsonFault j [] "config.Config"

/-! ### From YAML -/

/-- A node that is not what its place asks for. -/
def mismatch (y : Yaml) (expected : String) : Mismatch :=
  .kind y.line y.tag y.text (of expected)

/-- A value read from a node, and the mismatches met on the way. -/
abbrev Read (α : Type) := α × List Mismatch

/-- A text: any scalar, as it is written. -/
def yamlText (y : Yaml) : Read Text :=
  match y with
  | .scalar _ t _ => if y.isNull then ([], []) else (t, [])
  | _ => ([], [mismatch y "string"])

/-- A switch. Words for on and off are understood besides true and false. -/
def yamlFlag (y : Yaml) : Read (Option Bool) :=
  match y, y.tag with
  | _, .null => (none, [])
  | _, .bool b => (some b, [])
  | .scalar _ t _, .str =>
    if Yaml.oneOf ["y", "Y", "yes", "on"] t then (some true, [])
    else if Yaml.oneOf ["n", "N", "no", "off"] t then (some false, [])
    else (none, [mismatch y "bool"])
  | _, _ => (none, [mismatch y "bool"])

/-- The items of a sequence read one after the other, nulls left out. -/
def readItems {α : Type} (read : Yaml → Read α) (items : List Yaml) : Read (List α) :=
  (items.filter (!·.isNull)).foldl
    (fun (vs, ms) y => let (v, m) := read y; (vs ++ [v], ms ++ m)) ([], [])

/-- A list of texts. -/
def yamlTexts (y : Yaml) : Read (List Text) :=
  match y with
  | .sequence _ items => readItems yamlText items
  | _ => if y.isNull then ([], []) else ([], [mismatch y "[]string"])

/-- The keys of a mapping that it already has further up, each with the line of both. -/
def repeatedKeys : List (Yaml × Yaml) → List Mismatch
  | [] => []
  | (key, _) :: rest =>
    (rest.filter fun (later, _) => later.text = key.text).map
        (fun (later, _) => .repeated key.text later.line key.line) ++
      repeatedKeys rest

/-- What the fields of a mapping make of a value, one after the other, those without a key
left out. A mapping with a repeated key is not read. -/
def readFields {α : Type} (read : α → Text → Yaml → Read α) (start : α)
    (fields : List (Yaml × Yaml)) : Read α :=
  match repeatedKeys fields with
  | [] =>
    (fields.filter (!·.1.isNull)).foldl
      (fun (a, ms) (key, y) =>
        let (name, ns) := yamlText key
        let (a, m) := if ns.isEmpty then read a name y else (a, [])
        (a, ms ++ ns ++ m))
      (start, [])
  | repeated => (start, repeated)

/-- Texts by name. -/
def yamlVariables (y : Yaml) : Read (List (Text × Text)) :=
  match y with
  | .mapping _ fields =>
    readFields (fun vs name v => let (t, ms) := yamlText v; (vs ++ [(name, t)], ms)) [] fields
  | _ => if y.isNull then ([], []) else ([], [mismatch y "map[string]string"])

/-- A value changed by what is read from a node. -/
def setting {α β : Type} (set : β → α) (r : Read β) : Read α := (set r.1, r.2)

/-- A file entry with one more field set. -/
def yamlFileField (f : FileSpec) (key : Text) (y : Yaml) : Read FileSpec :=
  if key = of "path" then setting (fun v => { f with path := v }) (yamlText y)
  else if key = of "output" then setting (fun v => { f with output := v }) (yamlText y)
  else (f, [])

/-- A file to compile: its path, or a mapping with path and output. -/
def yamlFile (y : Yaml) : Read FileSpec :=
  match y with
  | .scalar _ t _ => if y.isNull then ({}, []) else ({ path := t }, [])
  | .mapping _ fields => readFields yamlFileField {} fields
  | .sequence _ _ => ({}, [mismatch y "config.rawFileSpec"])

/-- The files to compile. -/
def yamlFiles (y : Yaml) : Read (List FileSpec) :=
  match y with
  | .sequence _ items => readItems yamlFile items
  | _ => if y.isNull then ([], []) else ([], [mismatch y "[]config.FileSpec"])

/-- A configuration with one more field set. -/
def yamlField (c : Config) (key : Text) (y : Yaml) : Read Config :=
  if key = of "files" then setting (fun v => { c with files := v }) (yamlFiles y)
  else if key = of "outDir" then setting (fun v => { c with outDir := v }) (yamlText y)
  else if key = of "loadPaths" then setting (fun v => { c with loadPaths := v }) (yamlTexts y)
  else if key = of "compress" then setting (fun v => { c with compress := v }) (yamlFlag y)
  else if key = of "shortColors" then setting (fun v => { c with shortColors := v }) (yamlFlag y)
  else if key = of "reverseColors" then
    setting (fun v => { c with reverseColors := v }) (yamlFlag y)
  else if key = of "variables" then setting (fun v => { c with presets := v }) (yamlVariables y)
  else (c, [])

/-- A configuration from a YAML node. -/
def ofYaml (y : Yaml) : Except ConfigFault Config :=
  let (config, mismatches) : Read Config :=
    match y with
    | .mapping _ fields => readFields yamlField {} fields
    | _ => if y.isNull then ({}, []) else ({}, [mismatch y "config.Config"])
  if mismatches.isEmpty then .ok config else .error (.yamlTypes mismatches)

/-! ### Of a project -/

/-- How configuration files are written. -/
inductive Format where
  | yaml
  | json
  deriving DecidableEq

/-- The extensions of configuration files, in the order they are looked for. -/
def extensions : List (Text × Format) :=
  [(of ".yaml", .yaml), (of ".yml", .yaml), (of ".json", .json)]

/-- The configuration in a text. -/
def ofText (n : Format) (t : Text) : Except ConfigFault Config :=
  match n with
  | .yaml =>
    match Yaml.parse t with
    | .ok y => ofYaml y
    | .error e => .error (.yaml e)
  | .json =>
    match Json.parse (Json.blankComments t) with
    | .ok j => ofJson j
    | .error e => .error (.json e)

/-- The configuration file of a project with an extension. -/
def pathIn (root extension : Text) : Text :=
  Path.join [root, of ".config", of "cascade" ++ extension]

/-- The configuration of the project in a directory, if there is one. -/
def load (tree : FileTree) (root : Text) : Except ConfigError (Option Config) :=
  match extensions.find? fun (e, _) => tree.exists' (pathIn root e) with
  | none => .ok none
  | some (e, n) =>
    let path := pathIn root e
    match tree.read path with
    | .error cause => .error (.unreadable cause)
    | .ok t => ((ofText n t).mapError (.malformed path)).map some

/-- The configuration of a project, or the default one if there is none to be read. -/
def loadOrDefault (tree : FileTree) (root : Text) : Config :=
  match load tree root with
  | .ok (some c) => c
  | _ => {}

/-- The compilation that is configured. -/
def options (c : Config) : Options :=
  { compress := c.compress.getD true, shortColors := c.shortColors.getD true,
    reverseColors := c.reverseColors.getD true, loadPaths := c.loadPaths,
    presets := c.presets }

/-- Where the output of a file goes: where its entry says, or else next to it or in the
output directory. -/
def outputFor (c : Config) (path : Text) : Text :=
  match c.files.find? fun f => !f.output.isEmpty && Path.clean f.path = Path.clean path with
  | some f => f.output
  | none =>
    let name := Path.stem path ++ of ".css"
    if c.outDir.isEmpty then Path.join [Path.dir path, name] else Path.join [c.outDir, name]

/-- The configured paths. -/
def filePaths (c : Config) : List Text := c.files.map (·.path)

/-- The files that a configured path stands for. -/
def expandPath (tree : FileTree) (root path : Text) : List Text :=
  let path := Path.absolute root path
  if isGlob path then tree.glob path else [path]

/-- The files that are configured, patterns expanded. -/
def expandFiles (c : Config) (tree : FileTree) (root : Text) : List Text :=
  c.files.flatMap fun f => expandPath tree root f.path

end Config

end Stylesheet
