import Stylesheet.Text.Quoted

/-!
# YAML

The part of YAML that configuration files are written in: mappings and sequences by
indentation or in brackets, plain and quoted scalars, and comments. A plain scalar is
taken for a null, a truth value, a number or a text by how it is written, as in the core
schema of YAML 1.2: `yes` and `no` are texts. Binary integers and underscores between
digits are numbers besides.

## Main definitions

* `Yaml` — nodes with the line they start on
* `Yaml.Tag`, `Yaml.tag` — what a node is taken for
* `Yaml.Problem`, `Yaml.ReadError` — why a text is not a node
-/

namespace Stylesheet

open Text

/-- A node and the line it starts on. A scalar says whether it is written without
quotes, and a field has a key and a value. -/
inductive Yaml where
  | scalar (line : Nat) (text : Text) (plain : Bool)
  | sequence (line : Nat) (items : List Yaml)
  | mapping (line : Nat) (fields : List (Yaml × Yaml))

namespace Yaml

/-- The line a node starts on. -/
def line : Yaml → Nat
  | .scalar n _ _ => n
  | .sequence n _ => n
  | .mapping n _ => n

/-- The text of a scalar; other nodes have none. -/
def text : Yaml → Text
  | .scalar _ t _ => t
  | _ => []

/-- The node that stands where nothing is written. -/
def empty (line : Nat) : Yaml := .scalar line [] true

/-- What a node is taken for. -/
inductive Tag where
  | null
  | bool (b : Bool)
  | int
  | float
  | str
  | seq
  | map
  deriving DecidableEq

/-- The name of a tag. -/
def Tag.name : Tag → Text
  | .null => of "!!null"
  | .bool _ => of "!!bool"
  | .int => of "!!int"
  | .float => of "!!float"
  | .str => of "!!str"
  | .seq => of "!!seq"
  | .map => of "!!map"

/-- Is the text one of these words? -/
def oneOf (words : List String) (t : Text) : Bool := words.any (of · = t)

/-- An integer: decimal digits with a sign, or digits of another base. -/
def isInt (t : Text) : Bool :=
  let digits := if head0 t = ch '-' || head0 t = ch '+' then t.drop 1 else t
  let based (mark : String) (p : UInt8 → Bool) : Bool :=
    match after? digits (of mark) with
    | some r => !r.isEmpty && r.all p
    | none => false
  (!digits.isEmpty && digits.all fun c => isDigit c || c = ch '_') && isDigit (head0 digits) ||
    based "0x" isHex || based "0o" (fun c => ch '0' ≤ c && c ≤ ch '7') ||
    based "0b" fun c => c = ch '0' || c = ch '1'

/-- A number with a fraction or an exponent, or one that is not finite. -/
def isFloat (t : Text) : Bool :=
  if oneOf [".inf", ".Inf", ".INF", "+.inf", "+.Inf", "+.INF", "-.inf", "-.Inf", "-.INF", ".nan",
      ".NaN", ".NAN"] t then true
  else
    let body := if head0 t = ch '-' || head0 t = ch '+' then t.drop 1 else t
    let whole := body.takeWhile isDigit
    let rest := body.drop whole.length
    let fraction := if head0 rest = ch '.' then (rest.drop 1).takeWhile isDigit else []
    let rest := if head0 rest = ch '.' then rest.drop (1 + fraction.length) else rest
    let exponent :=
      if head0 rest = ch 'e' || head0 rest = ch 'E' then
        let signed := at0 rest 1 = ch '+' || at0 rest 1 = ch '-'
        let digits := if signed then rest.drop 2 else rest.drop 1
        !digits.isEmpty && digits.all isDigit
      else rest.isEmpty
    (!whole.isEmpty || !fraction.isEmpty) && exponent

/-- What a plain scalar is taken for. -/
def plainTag (t : Text) : Tag :=
  if t.isEmpty || oneOf ["~", "null", "Null", "NULL"] t then .null
  else if oneOf ["true", "True", "TRUE"] t then .bool true
  else if oneOf ["false", "False", "FALSE"] t then .bool false
  else if isInt t then .int
  else if isFloat t then .float
  else .str

/-- What a node is taken for. -/
def tag : Yaml → Tag
  | .scalar _ t plain => if plain then plainTag t else .str
  | .sequence _ _ => .seq
  | .mapping _ _ => .map

/-- The node is a null, written or left out. -/
def isNull (y : Yaml) : Bool := y.tag = .null

/-! ### Failures -/

/-- What is wrong with a text. -/
inductive Problem where
  | noCommaOrBrace
  | noCommaOrBracket
  | noContent
  | noKey
  | noDash
  | noDocument
  | unclosedQuote
  | noColon
  | strayColon
  | strayDash
  | strayCharacter
  | badAlias
  | unknownAnchor (name : Text)
  deriving DecidableEq

/-- The problem is met while a token is read, not while tokens are put together. -/
def Problem.isLexical : Problem → Bool
  | .unclosedQuote | .noColon | .strayColon | .strayDash | .strayCharacter | .badAlias => true
  | _ => false

/-- The wording of a problem. -/
def Problem.message : Problem → Text
  | .noCommaOrBrace => of "did not find expected ',' or '\x7d'"
  | .noCommaOrBracket => of "did not find expected ',' or ']'"
  | .noContent => of "did not find expected node content"
  | .noKey => of "did not find expected key"
  | .noDash => of "did not find expected '-' indicator"
  | .noDocument => of "did not find expected <document start>"
  | .unclosedQuote => of "found unexpected end of stream"
  | .noColon => of "could not find expected ':'"
  | .strayColon => of "mapping values are not allowed in this context"
  | .strayDash => of "block sequence entries are not allowed in this context"
  | .strayCharacter => of "found character that cannot start any token"
  | .badAlias => of "did not find expected alphabetic or numeric character"
  | .unknownAnchor name => of "unknown anchor '" ++ name ++ of "' referenced"

/-- A problem, the line where what it is in starts, and the line where it is met. -/
structure ReadError where
  problem : Problem
  start : Nat
  met : Nat
  deriving DecidableEq

/-- The line a message names, if it names one. The first line is never named, and lines
are counted from zero unless a token could not be read. -/
def ReadError.shownLine (e : ReadError) : Nat :=
  let line := if e.start > 1 then e.start else e.met
  if line > 1 then if e.problem.isLexical then line else line - 1 else 0

/-- The wording of a failure to read. -/
def ReadError.message (e : ReadError) : Text :=
  let line :=
    match e.problem with
    | .unknownAnchor _ => 0
    | _ => e.shownLine
  of "yaml: " ++ (if line = 0 then [] else of "line " ++ ofNat line ++ of ": ") ++
    e.problem.message

end Yaml

end Stylesheet
