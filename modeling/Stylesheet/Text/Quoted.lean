import Stylesheet.Text
import Stylesheet.Text.Printable

/-!
# Quoted text

How messages show a text: in double quotes, with quotes and backslashes escaped, the
usual letters for control characters that have one, and hexadecimal escapes for every
other character that is not printable and for bytes that belong to no character.

## Main definitions

* `Text.quoted` — the quoted form
-/

namespace Stylesheet.Text

/-- The numeral of `n` in base sixteen, padded with zeros to `width`. -/
def hexPadded (width n : Nat) : Text :=
  let digits := (Nat.toDigits 16 n).map ch
  List.replicate (width - digits.length) (ch '0') ++ digits

/-- The escape letter of a control character that has one. -/
def escapeLetter (c : Char) : Option Char :=
  match c.toNat with
  | 7 => some 'a'
  | 8 => some 'b'
  | 9 => some 't'
  | 10 => some 'n'
  | 11 => some 'v'
  | 12 => some 'f'
  | 13 => some 'r'
  | _ => none

/-- One character of a quoted text. -/
def quotedChar (c : Char) : Text :=
  if c = '"' || c = '\\' then [ch '\\', ch c]
  else if isPrintable c then of c.toString
  else match escapeLetter c with
    | some l => [ch '\\', ch l]
    | none =>
      if c.toNat < 0x80 then of "\\x" ++ hexPadded 2 c.toNat
      else if c.toNat < 0x10000 then of "\\u" ++ hexPadded 4 c.toNat
      else of "\\U" ++ hexPadded 8 c.toNat

/-- One unit of a quoted text. -/
def quotedUnit : Char ⊕ UInt8 → Text
  | .inl c => quotedChar c
  | .inr b => of "\\x" ++ hexPadded 2 b.toNat

/-- A text in double quotes with everything unprintable escaped. -/
def quoted (t : Text) : Text := ch '"' :: (units t).flatMap quotedUnit ++ [ch '"']

end Stylesheet.Text
