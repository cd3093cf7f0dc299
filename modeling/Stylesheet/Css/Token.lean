import Stylesheet.Text.Case

/-!
# Tokens of plain CSS

The lexical rules of plain style sheets, as far as reading them back needs them. Every
text has tokens: strings and comments may end with the text, and a byte that starts
nothing else is a token by itself.

## Main definitions

* `TokenKind`, `CssToken` — tokens and where they are
* `identLength`, `numberLength?`, `urlLength` — the lengths of tokens
* `cssTokens` — the tokens of a text, without white space and comments
-/

namespace Stylesheet.Css

open Text

/-- What a token is. -/
inductive TokenKind where
  | space
  | comment
  | ident
  | function
  | atKeyword
  | customName
  | bracketOpen
  | bracketClose
  | braceOpen
  | braceClose
  | colon
  | semicolon
  | comma
  | marker
  | delim
  /-- Strings, numbers, colors and addresses. -/
  | operand
  deriving DecidableEq

/-- A token and the offset it starts at. -/
structure CssToken where
  kind : TokenKind
  text : Text
  offset : Nat
  deriving DecidableEq

/-- The offset after a token. -/
def CssToken.stop (t : CssToken) : Nat := t.offset + t.text.length

/-- A byte that starts an identifier. -/
def isIdentStart (c : UInt8) : Bool := isLetter c || c = ch '_' || c ≥ 0x80

/-- A byte that goes on an identifier. -/
def isIdentByte (c : UInt8) : Bool := isIdentStart c || isDigit c || c = ch '-'

/-- The length of the line end a text starts with. -/
def newlineLength : Text → Nat
  | [] => 0
  | [c] => if c = ch '\n' || c = 0x0C || c = ch '\r' then 1 else 0
  | c :: d :: _ =>
    if c = ch '\n' || c = 0x0C then 1
    else if c = ch '\r' then if d = ch '\n' then 2 else 1
    else 0

/-- The length of a character by its first byte. -/
def charLength (c : UInt8) : Nat :=
  if c ≥ 0xF0 then 4 else if c ≥ 0xE0 then 3 else if c ≥ 0xC0 then 2 else 1

/-- The length of the escape a text starts with, zero if it starts with none. -/
def escapeLength : Text → Nat
  | [] => 0
  | c :: r =>
    if c ≠ ch '\\' || newlineLength r > 0 then 0
    else
      let digits := ((r.take 6).takeWhile isHex).length
      if digits > 0 then 1 + digits + if isSpace (head0 (r.drop digits)) then 1 else 0
      else match r with
        | [] => 0
        | d :: _ => 1 + min (charLength d) r.length

/-- The length of the run of identifier bytes and escapes that a text starts with, after
`skip` bytes that belong to it. -/
def identRest : (skip : Nat) → Text → Nat
  | _, [] => 0
  | k + 1, _ :: r => identRest k r + 1
  | 0, c :: r =>
    if isIdentByte c then identRest 0 r + 1
    else match escapeLength (c :: r) with
      | 0 => 0
      | n + 1 => identRest n r + 1

/-- The length of the first character of an identifier, zero if there is none. -/
def identHead (t : Text) : Nat :=
  if isIdentStart (head0 t) then 1 else escapeLength t

/-- The length of the identifier a text starts with, zero if there is none. Anything goes
on one that starts with two dashes. -/
def identLength (t : Text) : Nat :=
  if starts t (of "--") then 2 + identRest 0 (t.drop 2)
  else
    let sign := if head0 t = ch '-' then 1 else 0
    match identHead (t.drop sign) with
    | 0 => 0
    | n => sign + n + identRest 0 (t.drop (sign + n))

/-- The length of the name after a number sign, zero if there is none. -/
def hashLength (t : Text) : Nat :=
  match if isIdentByte (head0 t) then 1 else escapeLength t with
  | 0 => 0
  | n => n + identRest 0 (t.drop n)

/-- The length of the exponent a text starts with. -/
def exponentLength (t : Text) : Nat :=
  if head0 t = ch 'e' || head0 t = ch 'E' then
    let sign := if at0 t 1 = ch '+' || at0 t 1 = ch '-' then 1 else 0
    let digits := ((t.drop (1 + sign)).takeWhile isDigit).length
    if digits > 0 then 1 + sign + digits else 0
  else 0

/-- The length of the number a text starts with, if it does. -/
def numberLength? (t : Text) : Option Nat :=
  let sign := if head0 t = ch '+' || head0 t = ch '-' then 1 else 0
  let whole := ((t.drop sign).takeWhile isDigit).length
  let rest := t.drop (sign + whole)
  let fraction := if head0 rest = ch '.' then ((rest.drop 1).takeWhile isDigit).length else 0
  if fraction > 0 then
    let n := sign + whole + 1 + fraction
    some (n + exponentLength (t.drop n))
  else if whole = 0 then none
  else if head0 rest = ch '.' then some (sign + whole)
  else some (sign + whole + exponentLength rest)

/-- The length of a number with its unit or percent sign. -/
def numericLength? (t : Text) : Option Nat :=
  (numberLength? t).map fun n =>
    let rest := t.drop n
    if head0 rest = ch '%' then n + 1 else n + identLength rest

/-- The length of a string after its quote `q`, and whether a line end broke it. After
`skip` bytes that belong to it. -/
def stringLength (q : UInt8) : (skip : Nat) → Text → Nat × Bool
  | _, [] => (0, false)
  | k + 1, _ :: r => let (n, broken) := stringLength q k r; (n + 1, broken)
  | 0, c :: r =>
    if c = ch '\n' || c = ch '\r' || c = 0x0C then (1, true)
    else if c = q then (1, false)
    else
      let width :=
        if c = ch '\\' then
          match escapeLength (c :: r) with
          | 0 => newlineLength r
          | n => n - 1
        else 0
      let (n, broken) := stringLength q width r
      (n + 1, broken)

/-- The length of what is left of a broken address, up to and with the closing
parenthesis. After `skip` bytes that belong to it. -/
def brokenUrlLength : (skip : Nat) → Text → Nat
  | _, [] => 0
  | k + 1, _ :: r => brokenUrlLength k r + 1
  | 0, c :: r => if c = ch ')' then 1 else brokenUrlLength (escapeLength (c :: r) - 1) r + 1

/-- The length of an address without quotes, and whether it ends at a parenthesis or with
the text. After `skip` bytes that belong to it. -/
def bareUrlLength : (skip : Nat) → Text → Nat × Bool
  | _, [] => (0, true)
  | k + 1, _ :: r => let (n, whole) := bareUrlLength k r; (n + 1, whole)
  | 0, c :: r =>
    if c = ch ')' then (0, true)
    else if c = ch '\\' then
      match escapeLength (c :: r) with
      | 0 => (0, false)
      | n => let (m, whole) := bareUrlLength (n - 1) r; (m + 1, whole)
    else if isQuote c || c = ch '(' || c ≤ 0x20 || c = 0x7F then (0, false)
    else let (n, whole) := bareUrlLength 0 r; (n + 1, whole)

/-- The length of white space. -/
def spaceLength (t : Text) : Nat := (t.takeWhile isSpace).length

/-- The length of an address from its closing parenthesis on, with white space before
it; a broken one goes on to the next parenthesis. -/
def urlEnd (t : Text) : Nat :=
  let space := spaceLength t
  let rest := t.drop space
  if rest.isEmpty then space
  else if head0 rest = ch ')' then space + 1
  else space + brokenUrlLength 0 rest

/-- The length of what follows `url(`, closing parenthesis included. -/
def urlLength (t : Text) : Nat :=
  let space := spaceLength t
  let rest := t.drop space
  if isQuote (head0 rest) then
    let (n, broken) := stringLength (head0 rest) 0 (rest.drop 1)
    let after := rest.drop (n + 1)
    space + n + 1 + if broken then brokenUrlLength 0 after else urlEnd after
  else
    let (n, whole) := bareUrlLength 0 rest
    let after := rest.drop n
    space + n +
      if whole || isSpace (head0 after) then urlEnd after else brokenUrlLength 0 after

/-- The length of a range of code points after `u+`, if it is one. -/
def unicodeRange? (t : Text) : Option Nat :=
  let first := (t.takeWhile isHex).length
  let rest := t.drop first
  if head0 rest = ch '-' then
    let second := ((rest.drop 1).takeWhile isHex).length
    if first = 0 || first > 6 || second = 0 || second > 6 then none else some (first + 1 + second)
  else
    let n := first + (rest.takeWhile (· = ch '?')).length
    if n = 0 || n > 6 then none else some n

/-- The kind and length of a token that starts with an identifier, if it does. -/
def identlike? (t : Text) : Option (TokenKind × Nat) :=
  match identLength t with
  | 0 => none
  | n =>
    let rest := t.drop n
    if head0 rest ≠ ch '(' then some (.ident, n)
    else if sameFold ((t.take n).filter (· ≠ ch '\\')) (of "url") then
      some (.operand, n + 1 + urlLength (rest.drop 1))
    else some (.function, n + 1)

/-- The length of a comment after its opening, up to the end of the text if need be. -/
def commentLength (t : Text) : Nat := ((find (of "*/") t).map (· + 2)).getD t.length

/-- The kind and length of the token that a text starts with. -/
def tokenAt (t : Text) : TokenKind × Nat :=
  let c := head0 t
  let other : TokenKind × Nat := (.delim, 1)
  let numeric := (numericLength? t).map fun n => (TokenKind.operand, n)
  if isSpace c then (.space, spaceLength t)
  else if c = ch ':' then (.colon, 1)
  else if c = ch ';' then (.semicolon, 1)
  else if c = ch ',' then (.comma, 1)
  else if c = ch '(' || c = ch '[' then (.bracketOpen, 1)
  else if c = ch ')' || c = ch ']' then (.bracketClose, 1)
  else if c = ch '\x7b' then (.braceOpen, 1)
  else if c = ch '\x7d' then (.braceClose, 1)
  else if c = ch '#' then
    match hashLength (t.drop 1) with
    | 0 => other
    | n => (.operand, n + 1)
  else if isQuote c then (.operand, (stringLength c 0 (t.drop 1)).1 + 1)
  else if c = ch '.' || c = ch '+' || isDigit c then numeric.getD other
  else if c = ch '-' then
    if starts t (of "-->") then (.marker, 3)
    else if starts t (of "--") then (.customName, identLength t)
    else (numeric <|> identlike? t).getD other
  else if c = ch '@' then
    match identLength (t.drop 1) with
    | 0 => other
    | n => (.atKeyword, n + 1)
  else if (c = ch '$' || c = ch '*' || c = ch '^' || c = ch '~' || c = ch '|') &&
      at0 t 1 = ch '=' then (.operand, 2)
  else if starts t (of "||") then (.operand, 2)
  else if starts t (of "/*") then (.comment, 2 + commentLength (t.drop 2))
  else if starts t (of "<!--") then (.marker, 4)
  else if (c = ch 'u' || c = ch 'U') && at0 t 1 = ch '+' && (unicodeRange? (t.drop 2)).isSome then
    (.operand, 2 + (unicodeRange? (t.drop 2)).getD 0)
  else (identlike? t).getD other

/-- The tokens of a text from an offset on; `skip` bytes of one are still to pass. -/
def tokensFrom : (skip offset : Nat) → Text → List CssToken
  | _, _, [] => []
  | k + 1, i, _ :: r => tokensFrom k (i + 1) r
  | 0, i, c :: r =>
    let (kind, n) := tokenAt (c :: r)
    ⟨kind, (c :: r).take n, i⟩ :: tokensFrom (n - 1) (i + 1) r

/-- The tokens of a text, without white space and comments. -/
def cssTokens (t : Text) : List CssToken :=
  (tokensFrom 0 0 t).filter fun tok => tok.kind ≠ .space && tok.kind ≠ .comment

end Stylesheet.Css
