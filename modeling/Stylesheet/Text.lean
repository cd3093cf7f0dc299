/-!
# Text

Stylesheet text is a list of UTF-8 bytes, and every offset in this library counts
bytes. This file has the vocabulary the rest is written in: white space, slices,
searching, splitting, replacing, and the order of texts.

White space is the Unicode property: six ASCII characters, three of two bytes or
more in the Latin and Ogham blocks, and the spaces of general punctuation. Since a
white-space character is at most three bytes long, recognising one needs no decoder.

## Main definitions

* `Text` — a list of bytes
* `Text.of`, `Text.asString` — to and from strings
* `Text.units`, `Text.chars` — the characters of a text, well-formed or not
* `Text.spaceWidth` — the width of a leading white-space character
* `Text.trim`, `Text.fields`, `Text.collapse` — white space at the ends and between words
* `Text.find`, `Text.split`, `Text.replace` — substrings
* `Text.le`, `Text.sortUnique` — the order of bytes and sets in that order
-/

namespace Stylesheet

/-- Text as its UTF-8 bytes. -/
abbrev Text := List UInt8

/-- The byte of an ASCII character. -/
@[inline] def ch (c : Char) : UInt8 := c.toUInt8

namespace Text

/-- The bytes of a string. -/
def of (s : String) : Text := s.toUTF8.data.toList

/-! ### Characters -/

/-- The character that a text starts with, if it starts with one. In UTF-8 it has four bytes
at most. -/
def leadChar? (t : Text) : Option Char := (t.take 4).toByteArray.utf8DecodeChar? 0

/-- The units of a text: its characters, and alone each byte that belongs to none. `skip`
counts the bytes of a character still to pass. -/
def unitsFrom : (skip : Nat) → Text → List (Char ⊕ UInt8)
  | _, [] => []
  | 0, a :: r =>
    match leadChar? (a :: r) with
    | some c => .inl c :: unitsFrom (c.utf8Size - 1) r
    | none => .inr a :: unitsFrom 0 r
  | k + 1, _ :: r => unitsFrom k r

/-- The characters of a text, and the bytes that belong to none. -/
def units (t : Text) : List (Char ⊕ UInt8) := unitsFrom 0 t

/-- The characters of a text. The replacement character stands for every byte that belongs
to none. -/
def chars (t : Text) : List Char :=
  (units t).map fun
    | .inl c => c
    | .inr _ => '\uFFFD'

/-- The string with the characters of a text. -/
def asString (t : Text) : String := String.ofList (chars t)

/-! ### Classes of bytes -/

/-- A decimal digit. -/
def isDigit (c : UInt8) : Bool := ch '0' ≤ c && c ≤ ch '9'

/-- An ASCII letter. -/
def isLetter (c : UInt8) : Bool := (ch 'a' ≤ c && c ≤ ch 'z') || (ch 'A' ≤ c && c ≤ ch 'Z')

/-- A hexadecimal digit. -/
def isHex (c : UInt8) : Bool :=
  isDigit c || (ch 'a' ≤ c && c ≤ ch 'f') || (ch 'A' ≤ c && c ≤ ch 'F')

/-- A letter, digit or underscore. -/
def isWord (c : UInt8) : Bool := c = ch '_' || isDigit c || isLetter c

/-- A byte of a CSS name, as far as ASCII goes. -/
def isName (c : UInt8) : Bool := isWord c || c = ch '-'

/-- One of the five characters CSS calls white space. -/
def isSpace (c : UInt8) : Bool :=
  c = ch ' ' || c = ch '\t' || c = ch '\n' || c = ch '\r' || c = 0x0C

/-- A quotation mark. -/
def isQuote (c : UInt8) : Bool := c = ch '"' || c = ch '\''

/-- The value of a hexadecimal digit. -/
def hexValue (c : UInt8) : Nat :=
  if isDigit c then c.toNat - 48 else if ch 'a' ≤ c then c.toNat - 87 else c.toNat - 55

/-! ### White space -/

/-- White space of one byte. -/
def blank1 (a : UInt8) : Bool := isSpace a || a = 0x0B

/-- White space of two bytes: U+0085 and U+00A0. -/
def blank2 (a b : UInt8) : Bool := a = 0xC2 && (b = 0x85 || b = 0xA0)

/-- White space of three bytes: U+1680, U+2000 to U+200A, U+2028, U+2029, U+202F,
U+205F and U+3000. -/
def blank3 (a b c : UInt8) : Bool :=
  (a = 0xE1 && b = 0x9A && c = 0x80) ||
  (a = 0xE2 && b = 0x80 && ((0x80 ≤ c && c ≤ 0x8A) || c = 0xA8 || c = 0xA9 || c = 0xAF)) ||
  (a = 0xE2 && b = 0x81 && c = 0x9F) ||
  (a = 0xE3 && b = 0x80 && c = 0x80)

/-- The width of the white-space character a text starts with, or zero. -/
def spaceWidth : Text → Nat
  | [] => 0
  | [a] => if blank1 a then 1 else 0
  | [a, b] => if blank1 a then 1 else if blank2 a b then 2 else 0
  | a :: b :: c :: _ =>
    if blank1 a then 1 else if blank2 a b then 2 else if blank3 a b c then 3 else 0

/-- As `spaceWidth`, for a text whose bytes are given last first. -/
def spaceWidthRev : Text → Nat
  | [] => 0
  | [a] => if blank1 a then 1 else 0
  | [a, b] => if blank1 a then 1 else if blank2 b a then 2 else 0
  | a :: b :: c :: _ =>
    if blank1 a then 1 else if blank2 b a then 2 else if blank3 c b a then 3 else 0

/-- Drops leading white space as `width` measures it, after `skip` more bytes. -/
def dropSpace (width : Text → Nat) : (skip : Nat) → Text → Text
  | _, [] => []
  | 0, a :: r =>
    match width (a :: r) with
    | 0 => a :: r
    | w + 1 => dropSpace width w r
  | k + 1, _ :: r => dropSpace width k r

/-- Without leading white space. -/
def trimLeft (t : Text) : Text := dropSpace spaceWidth 0 t

/-- Without trailing white space. -/
def trimRight (t : Text) : Text := (dropSpace spaceWidthRev 0 t.reverse).reverse

/-- Without white space at either end. -/
def trim (t : Text) : Text := trimRight (trimLeft t)

/-- Nothing but white space. -/
def isBlank (t : Text) : Bool := (trim t).isEmpty

/-- The word gathered so far, last byte first, as a list of at most one word. -/
def flush (word : Text) : List Text := if word.isEmpty then [] else [word.reverse]

/-- The words of a text, `word` being the one under way and `skip` the bytes of a
white-space character still to pass. -/
def fieldsFrom : (skip : Nat) → (word : Text) → Text → List Text
  | _, word, [] => flush word
  | 0, word, a :: r =>
    match spaceWidth (a :: r) with
    | 0 => fieldsFrom 0 (a :: word) r
    | w + 1 => flush word ++ fieldsFrom w [] r
  | k + 1, word, _ :: r => fieldsFrom k word r

/-- The maximal runs without white space. -/
def fields (t : Text) : List Text := fieldsFrom 0 [] t

/-- The words of a list of texts with `sep` between them. -/
def join (sep : Text) (parts : List Text) : Text := List.intercalate sep parts

/-- Words separated by single spaces. -/
def collapse (t : Text) : Text := join [ch ' '] (fields t)

/-! ### Slices and searching -/

/-- The bytes from offset `i` up to offset `j`. -/
def slice (t : Text) (i j : Nat) : Text := (t.take j).drop i

/-- The byte at an offset, zero past the end. -/
def at0 (t : Text) (i : Nat) : UInt8 := t.getD i 0

/-- The first byte, zero for the empty text. -/
def head0 (t : Text) : UInt8 := t.headD 0

/-- Does the text start with `p`? -/
def starts (t p : Text) : Bool := p.isPrefixOf t

/-- Does the text end with `s`? -/
def ends (t s : Text) : Bool := s.isSuffixOf t

/-- What follows `p`, if the text starts with it. -/
def after? (t p : Text) : Option Text := if t.starts p then some (t.drop p.length) else none

/-- Without `p` at the start, if it is there. -/
def without (t p : Text) : Text := (t.after? p).getD t

/-- Without `s` at the end, if it is there. -/
def withoutEnd (t s : Text) : Text := if t.ends s then t.take (t.length - s.length) else t

/-- The offset of the first byte satisfying `p`. -/
def findByte (p : UInt8 → Bool) (t : Text) : Option Nat := t.findIdx? p

/-- The offset of the first `c`. -/
def indexOf (c : UInt8) (t : Text) : Option Nat := t.findIdx? (· = c)

/-- The offset of the last `c`. -/
def lastIndexOf (c : UInt8) (t : Text) : Option Nat :=
  (t.reverse.findIdx? (· = c)).map (t.length - 1 - ·)

/-- The offset of the first occurrence of `p`, counting from `i`. -/
def findFrom (p : Text) : Nat → Text → Option Nat
  | i, [] => if p.isEmpty then some i else none
  | i, a :: r => if starts (a :: r) p then some i else findFrom p (i + 1) r

/-- The offset of the first occurrence of `p`. -/
def find (p t : Text) : Option Nat := findFrom p 0 t

/-- Does `p` occur in the text? -/
def has (t p : Text) : Bool := (find p t).isSome

/-- Does the byte occur in the text? -/
def hasByte (t : Text) (c : UInt8) : Bool := t.any (· = c)

/-- The text before and after the first `c`, if there is one. -/
def cut (c : UInt8) (t : Text) : Option (Text × Text) :=
  (indexOf c t).map fun i => (t.take i, t.drop (i + 1))

/-- The parts between separators, `part` being the one under way, last byte first. -/
def splitFrom (sep : UInt8) : (part : Text) → Text → List Text
  | part, [] => [part.reverse]
  | part, a :: r =>
    if a = sep then part.reverse :: splitFrom sep [] r else splitFrom sep (a :: part) r

/-- The parts of a text between the occurrences of a byte, at least one. -/
def split (sep : UInt8) (t : Text) : List Text := splitFrom sep [] t

/-- Every occurrence of `old`, left to right, replaced by `new`; `skip` counts the
bytes of an occurrence still to pass. -/
def replaceFrom (old new : Text) : (skip : Nat) → Text → Text
  | _, [] => []
  | 0, a :: r =>
    if starts (a :: r) old then new ++ replaceFrom old new (old.length - 1) r
    else a :: replaceFrom old new 0 r
  | k + 1, _ :: r => replaceFrom old new k r

/-- Every occurrence of the non-empty `old` replaced by `new`. -/
def replace (old new t : Text) : Text := replaceFrom old new 0 t

/-- Without the bytes satisfying `p` at either end. -/
def strip (p : UInt8 → Bool) (t : Text) : Text :=
  (((t.dropWhile p).reverse).dropWhile p).reverse

/-! ### Order -/

/-- The order of texts by their bytes. -/
def le : Text → Text → Bool
  | [], _ => true
  | _ :: _, [] => false
  | a :: r, b :: s => if a = b then le r s else a < b

/-- Strictly before in the order of bytes. -/
def lt (a b : Text) : Bool := !le b a

/-- Adjacent duplicates removed. -/
def compact : List Text → List Text
  | [] => []
  | [a] => [a]
  | a :: b :: r => if a = b then compact (b :: r) else a :: compact (b :: r)

/-- In order. -/
def sort (ts : List Text) : List Text := ts.mergeSort le

/-- In order and without duplicates. -/
def sortUnique (ts : List Text) : List Text := compact (sort ts)

/-! ### Numerals -/

/-- The decimal numeral of a natural number. -/
def ofNat (n : Nat) : Text := (Nat.toDigits 10 n).map ch

/-- The decimal numeral of an integer. -/
def ofInt (n : Int) : Text :=
  if n < 0 then ch '-' :: ofNat n.natAbs else ofNat n.natAbs

/-- The number of bytes in a text that are no continuation bytes. In valid UTF-8 it is that
of the characters, and in whatever order the bytes are given. -/
def charCount (t : Text) : Nat := t.countP fun c => c &&& 0xC0 ≠ 0x80

end Text

end Stylesheet
