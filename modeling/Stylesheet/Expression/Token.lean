import Stylesheet.Text
import Stylesheet.Text.Case
import Stylesheet.Text.Quoted

/-!
# Tokens of expressions

An expression is read as a sequence of tokens, each with the offsets it spans. White
space separates tokens and belongs to none. The last token marks the end of the text.

## Main definitions

* `Token`, `TokenKind` — tokens and their classes
* `Malformed` — why a text is no expression
* `Token.scan` — the tokens of a text
-/

namespace Stylesheet

open Text

/-- The classes of tokens. A minus sign before white space is `minus`, one that starts
no name is `sign`, and `raw` is any character no other class accepts. -/
inductive TokenKind where
  | eof
  | colon
  | comma
  | lparen
  | rparen
  | star
  | slash
  | plus
  | minus
  | sign
  | and
  | or
  | not
  | ne
  | bang
  | eq
  | le
  | ge
  | lt
  | gt
  | string
  | number
  | bool
  | color
  | var
  | function
  | ident
  | raw
  deriving DecidableEq

/-- How messages call a class of tokens. -/
def TokenKind.name : TokenKind → Text
  | .eof => of "end of input"
  | .colon => of "':'"
  | .comma => of "','"
  | .lparen => of "'('"
  | .rparen => of "')'"
  | .star => of "'*'"
  | .slash => of "'/'"
  | .plus => of "'+'"
  | .minus => of "'-'"
  | .sign => of "sign"
  | .and => of "'and'"
  | .or => of "'or'"
  | .not => of "'not'"
  | .ne => of "'!='"
  | .bang => of "'!'"
  | .eq => of "'=='"
  | .le => of "'<='"
  | .ge => of "'>='"
  | .lt => of "'<'"
  | .gt => of "'>'"
  | .string => of "string"
  | .number => of "number"
  | .bool => of "boolean"
  | .color => of "color"
  | .var => of "variable"
  | .function => of "function"
  | .ident => of "identifier"
  | .raw => of "character"

/-- A token: its class, its text, and the offsets it spans. The text of a string is
without quotes and escapes, with `quote` its quotation mark; the text of a number is
without its `unit`. -/
structure Token where
  kind : TokenKind
  text : Text
  start : Nat
  stop : Nat
  quote : Option Char := none
  unit : Text := []
  deriving DecidableEq

/-- Why a text is no expression. -/
inductive Malformed where
  | unterminatedString (offset : Nat)
  | unexpected (kind : TokenKind) (offset : Nat)
  | badNumber (text : Text)
  | unclosedCall (name : Text)
  deriving DecidableEq

/-- The wording of a malformation. -/
def Malformed.message : Malformed → Text
  | .unterminatedString i => of "syntax error: unterminated string at offset " ++ ofNat i
  | .unexpected k i =>
    of "syntax error: unexpected " ++ k.name ++ of " at offset " ++ ofNat i
  | .badNumber t => of "syntax error: bad number " ++ Text.quoted t
  | .unclosedCall name => of "syntax error: unclosed call to " ++ name

namespace Token

/-- A byte that starts a name; all bytes of characters outside ASCII do. -/
def isNameStart (c : UInt8) : Bool := isLetter c || c = ch '_' || c ≥ 0x80

/-- A byte that continues a name. -/
def isNameChar (c : UInt8) : Bool := isNameStart c || isDigit c || c = ch '-'

/-- The length of the name a text starts with. -/
def nameWidth (t : Text) : Nat := (t.takeWhile isNameChar).length

/-- The length of the numeral a text starts with: digits, and a fraction if a digit
follows the point. -/
def numberWidth (t : Text) : Nat :=
  let whole := (t.takeWhile isDigit).length
  match t.drop whole with
  | c :: d :: r =>
    if c = ch '.' && isDigit d then whole + 1 + ((d :: r).takeWhile isDigit).length else whole
  | _ => whole

/-- The length of the unit a text starts with. -/
def unitWidth (t : Text) : Nat := (t.takeWhile fun c => isLetter c || c = ch '%').length

/-- The length of the hexadecimal digits of a color a text starts with, or zero if
there are not 3, 4, 6 or 8 of them or a name continues them. -/
def hexWidth (t : Text) : Nat :=
  let n := (t.takeWhile isHex).length
  let continued := match t.drop n with
    | c :: _ => isNameChar c
    | [] => false
  if !continued && (n = 3 || n = 4 || n = 6 || n = 8) then n else 0

/-- The text of a string after its opening quote, and its length with the closing one.
A backslash before the quote stands for the quote. -/
def stringBody (q : UInt8) : (width : Nat) → (text : Text) → Text → Option (Text × Nat)
  | _, _, [] => none
  | width, text, [c] => if c = q then some (text.reverse, width + 1) else none
  | width, text, c :: d :: r =>
    if c = ch '\\' && d = q then stringBody q (width + 2) (q :: text) r
    else if c = q then some (text.reverse, width + 1)
    else stringBody q (width + 1) (c :: text) (d :: r)

/-- The class of a word that is followed by `rest`. -/
def wordKind (word rest : Text) : TokenKind :=
  if head0 rest = ch '(' then .function
  else
    let low := lower word
    if low = of "and" then .and
    else if low = of "or" then .or
    else if low = of "not" then .not
    else if low = of "true" || low = of "false" then .bool
    else .ident

/-- The class of a token of one or two special characters, and its length. -/
def punctuation? (c d : UInt8) : Option (TokenKind × Nat) :=
  if c = ch ':' then some (.colon, 1)
  else if c = ch ',' then some (.comma, 1)
  else if c = ch '(' || c = ch '[' then some (.lparen, 1)
  else if c = ch ')' || c = ch ']' then some (.rparen, 1)
  else if c = ch '*' then some (.star, 1)
  else if c = ch '/' then some (.slash, 1)
  else if c = ch '+' then some (.plus, 1)
  else if c = ch '!' then if d = ch '=' then some (.ne, 2) else some (.bang, 1)
  else if c = ch '=' && d = ch '=' then some (.eq, 2)
  else if c = ch '<' then if d = ch '=' then some (.le, 2) else some (.lt, 1)
  else if c = ch '>' then if d = ch '=' then some (.ge, 2) else some (.gt, 1)
  else none

/-- The class of a token that is neither punctuation, string nor number, and its length. -/
def wordOrSign (c : UInt8) (r : Text) : TokenKind × Nat :=
  let d := head0 r
  if c = ch '-' then
    if isNameStart d || d = ch '-' then
      let n := nameWidth r
      (wordKind (c :: r.take n) (r.drop n), n + 1)
    else if isSpace d then (.minus, 1)
    else (.sign, 1)
  else if c = ch '$' && isNameChar d then (.var, nameWidth r + 1)
  else if c = ch '#' && hexWidth r > 0 then (.color, hexWidth r + 1)
  else if isNameStart c then
    let n := nameWidth (c :: r)
    (wordKind ((c :: r).take n) ((c :: r).drop n), n)
  else (.raw, 1)

/-- The token at an offset whose text there is `c :: r`, and not white space. -/
def lex (offset : Nat) (c : UInt8) (r : Text) : Except Malformed Token :=
  let cut (k : TokenKind) (n : Nat) : Token := ⟨k, (c :: r).take n, offset, offset + n, none, []⟩
  match punctuation? c (head0 r) with
  | some (k, n) => .ok (cut k n)
  | none =>
    if isQuote c then
      match stringBody c 1 [] r with
      | some (t, n) => .ok ⟨.string, t, offset, offset + n, some (Char.ofUInt8 c), []⟩
      | none => .error (.unterminatedString offset)
    else if isDigit c || (c = ch '.' && isDigit (head0 r)) then
      let n := numberWidth (c :: r)
      let u := unitWidth ((c :: r).drop n)
      .ok ⟨.number, (c :: r).take n, offset, offset + n + u, none, ((c :: r).drop n).take u⟩
    else
      let (k, n) := wordOrSign c r
      .ok (cut k n)

/-- The mark of the end at an offset. -/
def endAt (offset : Nat) : Token := ⟨.eof, [], offset, offset, none, []⟩

/-- The tokens from an offset on, `skip` bytes of a token still to pass. -/
def scanFrom : (skip offset : Nat) → Text → Except Malformed (List Token)
  | _, offset, [] => .ok [endAt offset]
  | 0, offset, c :: r =>
    if isSpace c then scanFrom 0 (offset + 1) r
    else do
      let t ← lex offset c r
      let ts ← scanFrom (t.stop - offset - 1) (offset + 1) r
      return t :: ts
  | k + 1, offset, _ :: r => scanFrom k (offset + 1) r

/-- The tokens of a text. -/
def scan (t : Text) : Except Malformed (List Token) := scanFrom 0 0 t

end Token

end Stylesheet
