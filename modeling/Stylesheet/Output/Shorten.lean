import Stylesheet.Value.Color
import Stylesheet.Value.Units

/-!
# Shortening values

The value of a declaration is written with shorter colors and numbers. A value is read
as lexemes: quoted strings, `url()` with its argument, colors written with a number
sign, words, numbers with their unit, and single other bytes. Each lexeme is shortened
by itself; strings and `url()` stay as they are.

## Main definitions

* `Lexeme`, `lexemes` — a value taken apart
* `Style` — what is shortened
* `Style.shorten` — the shortened value
-/

namespace Stylesheet

open Text

/-- How output is written: compressed, with six-digit colors shortened, and with colors in
their shortest spelling. -/
structure Style where
  compress : Bool := true
  shortColors : Bool := true
  reverseColors : Bool := true
  deriving DecidableEq

/-- What a part of a value is. -/
inductive LexemeKind where
  /-- A quoted string. -/
  | quoted
  /-- `url` and its argument. -/
  | url
  /-- A number sign and a name. -/
  | hash
  /-- A word. -/
  | word
  /-- The name of a function, which a parenthesis follows. -/
  | function
  /-- A number and its unit. -/
  | number
  /-- Any other byte. -/
  | other
  deriving DecidableEq

/-- A part of a value. -/
structure Lexeme where
  kind : LexemeKind
  text : Text
  deriving DecidableEq

/-- The length of what follows an opening quote `q`, up to and with the closing one. A
backslash escapes the byte after it. -/
def quotedRest (q : UInt8) : Text → Nat
  | [] => 0
  | [_] => 1
  | c :: d :: r =>
    if c = ch '\\' then quotedRest q r + 2
    else if c = q then 1
    else quotedRest q (d :: r) + 1

/-- The two bytes before a place, nearest first, zero where there is none. -/
abbrev Before2 := UInt8 × UInt8

/-- The place continues a name. -/
def continuesName (b : Before2) : Bool := isName b.1 || b.1 = ch '#' || b.1 = ch '.'

/-- A digit at the place continues a name. A minus sign counts only if it follows one. -/
def blocksNumber (b : Before2) : Bool :=
  if b.1 = ch '-' then isName b.2 else continuesName b

/-- The length of the number a text starts with, its unit included. -/
def numberLength (t : Text) : Nat :=
  let digits := (t.takeWhile fun c => isDigit c || c = ch '.').length
  let rest := t.drop digits
  if head0 rest = ch '%' then digits + 1 else digits + (rest.takeWhile isLetter).length

/-- The length of the name a text starts with. -/
def nameLength (t : Text) : Nat := (t.takeWhile isName).length

/-- The length of a text up to and with the first closing parenthesis, or all of it. -/
def closedLength (t : Text) : Nat := ((indexOf (ch ')') t).map (· + 1)).getD t.length

/-- The kind and length of the lexeme that `c :: r` starts with, after the bytes `b`. -/
def lexemeAt (b : Before2) (c : UInt8) (r : Text) : LexemeKind × Nat :=
  if isQuote c then (.quoted, quotedRest c r + 1)
  else if c = ch '#' then (.hash, nameLength r + 1)
  else if (isLetter c || c = ch '_') && !continuesName b then
    let n := nameLength (c :: r)
    let rest := (c :: r).drop n
    if head0 rest = ch '(' then
      if sameFold ((c :: r).take n) (of "url") then (.url, n + closedLength rest)
      else (.function, n)
    else (.word, n)
  else if (isDigit c || (c = ch '.' && isDigit (head0 r))) && !blocksNumber b then
    (.number, numberLength (c :: r))
  else (.other, 1)

/-- The lexemes of a text after the bytes `b`; `skip` bytes of one are still to pass. -/
def lexemesFrom : (skip : Nat) → Before2 → Text → List Lexeme
  | _, _, [] => []
  | 0, b, c :: r =>
    let (kind, n) := lexemeAt b c r
    ⟨kind, (c :: r).take n⟩ :: lexemesFrom (n - 1) (c, b.1) r
  | k + 1, b, c :: r => lexemesFrom k (c, b.1) r

/-- A value as its lexemes. -/
def lexemes (t : Text) : List Lexeme := lexemesFrom 0 (0, 0) t

/-- The digits of a number and its unit. -/
def splitUnit (t : Text) : Text × Text :=
  let unit := (t.reverse.takeWhile fun c => !isDigit c).length
  (t.take (t.length - unit), t.drop (t.length - unit))

/-- A numeral of nothing but zeros. -/
def isZeroNumeral (t : Text) : Bool :=
  t.all (fun c => c = ch '0' || c = ch '.') && hasByte t (ch '0')

namespace Style

/-- A color in its shortest spelling, as far as the style goes. -/
def color (s : Style) (t : Text) : Text :=
  let t := if s.shortColors && t.length = 7 && head0 t = ch '#' then shortHex t else t
  match if s.reverseColors then shortestSpelling? t else none with
  | some short => if short.length < t.length then short else t
  | none => t

/-- A compressed number: zero without a unit, a fraction without a leading zero. -/
def number (s : Style) (t : Text) : Text :=
  if !s.compress then t
  else
    let (digits, unit) := splitUnit t
    if !unit.isEmpty && isZeroNumeral digits && isKnownUnit unit then [ch '0']
    else if starts digits (of "0.") then digits.drop 1 ++ unit
    else digits ++ unit

/-- A shortened lexeme. -/
def lexeme (s : Style) (l : Lexeme) : Text :=
  match l.kind with
  | .hash => s.color l.text
  | .word => if isColorName l.text then s.color l.text else l.text
  | .number => s.number l.text
  | _ => l.text

/-- A shortened value. -/
def shorten (s : Style) (t : Text) : Text := (lexemes t).flatMap s.lexeme

end Style

end Stylesheet
