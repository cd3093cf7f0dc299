import Stylesheet.Text.Quoted

/-!
# JSON

Values, how they are written over several lines, and how they are read. Reading fails
at the first character that no value can have there. The grammar is that of JSON and
nothing more; half of a surrogate pair is read as the replacement character, and a byte
that belongs to no character is written as it.

Configuration files may have comments and trailing commas as well; these are blanked out
before reading.

## Main definitions

* `Json` — values
* `Json.indented` — writing
* `blankComments` — comments and trailing commas replaced by blanks
* `Json.parse` — reading
-/

namespace Stylesheet

open Text

/-- A JSON value; a number is kept as it is written. -/
inductive Json where
  | null
  | bool (b : Bool)
  | number (t : Text)
  | string (t : Text)
  | array (items : List Json)
  | object (fields : List (Text × Json))

namespace Json

/-! ### Writing -/

/-- A character of a string, escaped where it has to be. Characters with a meaning in
markup are escaped as well. -/
def escapeChar (c : Char) : Text :=
  if c = '"' then of "\\\""
  else if c = '\\' then of "\\\\"
  else if c = '\n' then of "\\n"
  else if c = '\r' then of "\\r"
  else if c = '\t' then of "\\t"
  else if c.toNat = 8 then of "\\b"
  else if c.toNat = 12 then of "\\f"
  else if c.toNat < 0x20 || c = '<' || c = '>' || c = '&' ||
      c.toNat = 0x2028 || c.toNat = 0x2029 then
    of "\\u" ++ hexPadded 4 c.toNat
  else of c.toString

/-- A unit of a string. A byte that belongs to no character is written as the replacement
character, escaped. -/
def escapeUnit : Char ⊕ UInt8 → Text
  | .inl c => escapeChar c
  | .inr _ => of "\\ufffd"

/-- A text as a string. -/
def quote (t : Text) : Text := ch '"' :: t.units.flatMap escapeUnit ++ [ch '"']

/-- A new line at a level of indentation. -/
def newline (level : Nat) : Text := ch '\n' :: List.replicate (2 * level) (ch ' ')

/-- Members between brackets, each on a line of its own. -/
def bracketed (left right : Char) (level : Nat) (members : List Text) : Text :=
  if members.isEmpty then [ch left, ch right]
  else
    ch left :: newline (level + 1) ++ join (ch ',' :: newline (level + 1)) members ++
      newline level ++ [ch right]

mutual

/-- A value over several lines, from a level of indentation on. -/
def indentedAt (level : Nat) : Json → Text
  | .null => of "null"
  | .bool b => of (if b then "true" else "false")
  | .number t => t
  | .string t => quote t
  | .array items => bracketed '[' ']' level (indentedItems (level + 1) items)
  | .object fields => bracketed '\x7b' '\x7d' level (indentedFields (level + 1) fields)

/-- The texts of items. -/
def indentedItems (level : Nat) : List Json → List Text
  | [] => []
  | j :: rest => indentedAt level j :: indentedItems level rest

/-- The texts of fields. -/
def indentedFields (level : Nat) : List (Text × Json) → List Text
  | [] => []
  | (k, j) :: rest => (quote k ++ of ": " ++ indentedAt level j) :: indentedFields level rest

end

/-- A value over several lines. -/
def indented (j : Json) : Text := indentedAt 0 j

/-- A natural number. -/
def ofNat (n : Nat) : Json := .number (Text.ofNat n)

/-- An integer. -/
def ofInt (n : Int) : Json := .number (Text.ofInt n)

/-! ### Reading -/

/-- What a text is not right for. -/
inductive Place where
  | value
  | key
  | afterKey
  | afterField
  | afterItem
  | inString
  | inEscape
  | inUnicodeEscape
  | inNumber
  | afterPoint
  | inExponent
  | inWord (word : Text) (expected : UInt8)
  | afterValue
  deriving DecidableEq

/-- How messages name a place. -/
def Place.name : Place → Text
  | .value => of "looking for beginning of value"
  | .key => of "looking for beginning of object key string"
  | .afterKey => of "after object key"
  | .afterField => of "after object key:value pair"
  | .afterItem => of "after array element"
  | .inString => of "in string literal"
  | .inEscape => of "in string escape code"
  | .inUnicodeEscape => of "in \\u hexadecimal character escape"
  | .inNumber => of "in numeric literal"
  | .afterPoint => of "after decimal point in numeric literal"
  | .inExponent => of "in exponent of numeric literal"
  | .inWord word expected => of "in literal " ++ word ++ of " (expecting '" ++ expected :: of "')"
  | .afterValue => of "after top-level value"

/-- Why a text is no JSON. -/
inductive ReadError where
  | unexpectedEnd
  | invalid (c : UInt8) (place : Place)
  deriving DecidableEq

/-- A byte in single quotes. -/
def quotedByte (c : UInt8) : Text :=
  let body :=
    if c = ch '\'' then of "\\'"
    else if c = ch '"' then [c]
    else ((quoted (of (Char.ofNat c.toNat).toString)).drop 1).dropLast
  ch '\'' :: body ++ [ch '\'']

/-- The wording of a failure to read. -/
def ReadError.message : ReadError → Text
  | .unexpectedEnd => of "unexpected end of JSON input"
  | .invalid c place => of "invalid character " ++ quotedByte c ++ ch ' ' :: place.name

/-- The failure at the start of a text. -/
def failAt {α : Type} (place : Place) : Text → Except ReadError α
  | [] => .error .unexpectedEnd
  | c :: _ => .error (.invalid c place)

/-- White space between tokens. -/
def isBlankByte (c : UInt8) : Bool := c = ch ' ' || c = ch '\t' || c = ch '\n' || c = ch '\r'

/-- Without leading white space. -/
def skip (t : Text) : Text := t.dropWhile isBlankByte

/-- What follows a word that must go on with `rest`. -/
def readWord (word : Text) : (rest : Text) → Text → Except ReadError Text
  | [], t => .ok t
  | e :: more, c :: r =>
    if c = e then readWord word more r else .error (.invalid c (.inWord word e))
  | _ :: _, [] => .error .unexpectedEnd

/-- The digits a text starts with, of which there must be one, and the rest. -/
def readDigits (place : Place) (t : Text) : Except ReadError (Text × Text) :=
  let digits := t.takeWhile isDigit
  if digits.isEmpty then failAt place t else .ok (digits, t.drop digits.length)

/-- The integer part of a number: a zero or digits. -/
def readWhole (t : Text) : Except ReadError (Text × Text) :=
  match t with
  | c :: r => if c = ch '0' then .ok ([c], r) else readDigits .inNumber t
  | [] => .error .unexpectedEnd

/-- The fraction of a number, if there is one. -/
def readFraction (t : Text) : Except ReadError (Text × Text) :=
  match t with
  | c :: r =>
    if c = ch '.' then (readDigits .afterPoint r).map fun (d, rest) => (c :: d, rest)
    else .ok ([], t)
  | [] => .ok ([], t)

/-- The exponent of a number, if there is one. -/
def readExponent (t : Text) : Except ReadError (Text × Text) :=
  match t with
  | c :: r =>
    if c = ch 'e' || c = ch 'E' then
      let sign := r.takeWhile fun d => d = ch '+' || d = ch '-'
      let sign := sign.take 1
      (readDigits .inExponent (r.drop sign.length)).map fun (d, rest) => (c :: sign ++ d, rest)
    else .ok ([], t)
  | [] => .ok ([], t)

/-- The number a text starts with, and the rest. -/
def readNumber (t : Text) : Except ReadError (Text × Text) := do
  let sign := if head0 t = ch '-' then [ch '-'] else []
  let (whole, t) ← readWhole (t.drop sign.length)
  let (fraction, t) ← readFraction t
  let (exponent, t) ← readExponent t
  return (sign ++ whole ++ fraction ++ exponent, t)

/-- The value of four hexadecimal digits and the rest. -/
def readHex4 (t : Text) : Except ReadError (Nat × Text) :=
  match (t.take 4).dropWhile isHex with
  | c :: _ => .error (.invalid c .inUnicodeEscape)
  | [] =>
    if t.length < 4 then .error .unexpectedEnd
    else .ok ((t.take 4).foldl (fun n c => n * 16 + hexValue c) 0, t.drop 4)

/-- The character of an escape's letter. -/
def escapeByte? (c : UInt8) : Option UInt8 :=
  if c = ch '"' || c = ch '\\' || c = ch '/' then some c
  else if c = ch 'b' then some 8
  else if c = ch 'f' then some 12
  else if c = ch 'n' then some 10
  else if c = ch 'r' then some 13
  else if c = ch 't' then some 9
  else none

/-- The text of code units: pairs of surrogates together, lone ones replaced. -/
def ofUnits : List Nat → List Char
  | [] => []
  | [a] => [if 0xD800 ≤ a && a < 0xE000 then Char.ofNat 0xFFFD else Char.ofNat a]
  | a :: b :: r =>
    if 0xD800 ≤ a && a < 0xDC00 && 0xDC00 ≤ b && b < 0xE000 then
      Char.ofNat (0x10000 + (a - 0xD800) * 0x400 + (b - 0xDC00)) :: ofUnits r
    else
      (if 0xD800 ≤ a && a < 0xE000 then Char.ofNat 0xFFFD else Char.ofNat a) :: ofUnits (b :: r)

/-- The code units written as escapes one after the other, as text. -/
def unitsText (units : List Nat) : Text := of (String.ofList (ofUnits units))

/-- The string whose opening quote has been read, and the rest. `units` are the code
units of the escapes just before, and the fuel is at least the length of the text. -/
def readString : (fuel : Nat) → (units : List Nat) → Text → Except ReadError (Text × Text)
  | 0, _, _ => .error .unexpectedEnd
  | _ + 1, _, [] => .error .unexpectedEnd
  | fuel + 1, units, c :: r =>
    let front := unitsText units
    let after (b : Text) (x : Except ReadError (Text × Text)) : Except ReadError (Text × Text) :=
      x.map fun (s, rest) => (front ++ b ++ s, rest)
    if c = ch '"' then .ok (front, r)
    else if c < 0x20 then .error (.invalid c .inString)
    else if c = ch '\\' then
      match r with
      | [] => .error .unexpectedEnd
      | d :: r =>
        if d = ch 'u' then
          match readHex4 r with
          | .error e => .error e
          | .ok (n, r) => readString fuel (units ++ [n]) r
        else match escapeByte? d with
          | some b => after [b] (readString fuel [] r)
          | none => .error (.invalid d .inEscape)
    else after [c] (readString fuel [] r)

mutual

/-- The value a text starts with, and the rest. -/
def readValue : (fuel : Nat) → Text → Except ReadError (Json × Text)
  | 0, _ => .error .unexpectedEnd
  | fuel + 1, t =>
    match skip t with
    | [] => .error .unexpectedEnd
    | c :: r =>
      if c = ch '\x7b' then
        match skip r with
        | [] => .error .unexpectedEnd
        | d :: rest =>
          if d = ch '\x7d' then .ok (.object [], rest)
          else (readFields fuel (d :: rest)).map fun (fs, rest) => (.object fs, rest)
      else if c = ch '[' then
        match skip r with
        | [] => .error .unexpectedEnd
        | d :: rest =>
          if d = ch ']' then .ok (.array [], rest)
          else (readItems fuel (d :: rest)).map fun (js, rest) => (.array js, rest)
      else if c = ch '"' then
        (readString (r.length + 1) [] r).map fun (s, rest) => (.string s, rest)
      else if c = ch 't' then
        (readWord (of "true") (of "rue") r).map fun rest => (.bool true, rest)
      else if c = ch 'f' then
        (readWord (of "false") (of "alse") r).map fun rest => (.bool false, rest)
      else if c = ch 'n' then (readWord (of "null") (of "ull") r).map fun rest => (.null, rest)
      else if c = ch '-' || isDigit c then
        (readNumber (c :: r)).map fun (n, rest) => (.number n, rest)
      else .error (.invalid c .value)

/-- The items of an array up to its end, and the rest. -/
def readItems : (fuel : Nat) → Text → Except ReadError (List Json × Text)
  | 0, _ => .error .unexpectedEnd
  | fuel + 1, t =>
    match readValue fuel t with
    | .error e => .error e
    | .ok (j, rest) =>
      match skip rest with
      | [] => .error .unexpectedEnd
      | c :: r =>
        if c = ch ']' then .ok ([j], r)
        else if c = ch ',' then (readItems fuel r).map fun (js, rest) => (j :: js, rest)
        else .error (.invalid c .afterItem)

/-- The fields of an object up to its end, and the rest. -/
def readFields : (fuel : Nat) → Text → Except ReadError (List (Text × Json) × Text)
  | 0, _ => .error .unexpectedEnd
  | fuel + 1, t =>
    match skip t with
    | [] => .error .unexpectedEnd
    | q :: r =>
      if q ≠ ch '"' then .error (.invalid q .key)
      else match readString (r.length + 1) [] r with
        | .error e => .error e
        | .ok (key, rest) =>
          match skip rest with
          | [] => .error .unexpectedEnd
          | colon :: rest =>
            if colon ≠ ch ':' then .error (.invalid colon .afterKey)
            else match readValue fuel rest with
              | .error e => .error e
              | .ok (j, rest) =>
                match skip rest with
                | [] => .error .unexpectedEnd
                | c :: r =>
                  if c = ch '\x7d' then .ok ([(key, j)], r)
                  else if c = ch ',' then
                    (readFields fuel r).map fun (fs, rest) => ((key, j) :: fs, rest)
                  else .error (.invalid c .afterField)

end

/-- The value a text is. -/
def parse (t : Text) : Except ReadError Json := do
  let (j, rest) ← readValue (2 * t.length + 2) t
  match skip rest with
  | [] => return j
  | c :: _ => .error (.invalid c .afterValue)

/-! ### Comments -/

/-- A blank in place of a byte; line ends and tabs stay. -/
def blankByte (c : UInt8) : UInt8 :=
  if c = ch '\n' || c = ch '\t' || c = ch '\r' then c else ch ' '

/-- The length of a string after its quote, up to and with the closing one. -/
def stringLength : Text → Nat
  | [] => 0
  | [_] => 1
  | c :: d :: r =>
    if c = ch '\\' then stringLength r + 2
    else if c = ch '"' then 1
    else stringLength (d :: r) + 1

/-- What is written so far, last byte first, without a comma at its end. -/
def dropComma (out : Text) : Text :=
  let blanks := out.takeWhile (· ≤ ch ' ')
  match out.drop blanks.length with
  | c :: r => if c = ch ',' then blanks ++ ch ' ' :: r else out
  | [] => out

/-- Blanks out comments and trailing commas, onto what is written so far, last byte
first. `keep` bytes are still to be kept and `blank` to be blanked. -/
def blankCommentsFrom : (keep blank : Nat) → (out : Text) → Text → Text
  | _, _, out, [] => out
  | keep + 1, blank, out, c :: r => blankCommentsFrom keep blank (c :: out) r
  | 0, blank + 1, out, c :: r => blankCommentsFrom 0 blank (blankByte c :: out) r
  | 0, 0, out, c :: r =>
    if c = ch '/' && head0 r = ch '/' then
      blankCommentsFrom 0 ((indexOf (ch '\n') r).getD r.length) (ch ' ' :: out) r
    else if c = ch '/' && head0 r = ch '*' then
      let n := ((find (of "*/") (r.drop 1)).map (· + 3)).getD r.length
      blankCommentsFrom 0 n (ch ' ' :: out) r
    else if c = ch '"' then blankCommentsFrom (stringLength r) 0 (c :: out) r
    else if c = ch '\x7d' || c = ch ']' then blankCommentsFrom 0 0 (c :: dropComma out) r
    else blankCommentsFrom 0 0 (c :: out) r

/-- A text with comments and trailing commas replaced by blanks. -/
def blankComments (t : Text) : Text := (blankCommentsFrom 0 0 [] t).reverse

end Json

end Stylesheet
