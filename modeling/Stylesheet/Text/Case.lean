import Stylesheet.Text
import Stylesheet.Text.CaseTable

/-!
# Case of text

Lower and upper case, character by character. Text of ASCII alone is mapped byte by
byte; other text through the simple mappings of Unicode, where a byte that belongs to no
character becomes the replacement character.

## Main definitions

* `Text.lower`, `Text.upper` — the two mappings
* `Text.sameFold` — equality of ASCII text up to case
-/

namespace Stylesheet.Text

/-- The lower-case form of an ASCII letter, other bytes unchanged. -/
def lowerByte (c : UInt8) : UInt8 := if ch 'A' ≤ c && c ≤ ch 'Z' then c + 32 else c

/-- The upper-case form of an ASCII letter, other bytes unchanged. -/
def upperByte (c : UInt8) : UInt8 := if ch 'a' ≤ c && c ≤ ch 'z' then c - 32 else c

/-- Moves a character as the first range holding it says. -/
def mapCase (table : List CaseRange) (c : Char) : Char :=
  match table.find? (·.has c.toNat) with
  | some r => Char.ofNat (c.toNat + r.shift).toNat
  | none => c

/-- Applies `byte` to ASCII text and `wide` to the characters of other text. -/
def mapText (byte : UInt8 → UInt8) (wide : Char → Char) (t : Text) : Text :=
  if t.all (· < 0x80) then t.map byte else of (String.ofList ((chars t).map wide))

/-- In lower case. -/
def lower (t : Text) : Text :=
  mapText lowerByte
    (fun c => if c.toNat < 0x80 then c.toLower else mapCase toLowerTable c) t

/-- In upper case. -/
def upper (t : Text) : Text :=
  mapText upperByte
    (fun c => if c.toNat < 0x80 then c.toUpper else mapCase toUpperTable c) t

/-- Equal up to the case of ASCII letters. -/
def sameFold (a b : Text) : Bool := a.map lowerByte = b.map lowerByte

end Stylesheet.Text
