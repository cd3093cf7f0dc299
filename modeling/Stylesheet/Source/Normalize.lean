import Stylesheet.Text

/-!
# Normalized source

Before a stylesheet is taken apart, its comments are removed and the structural
characters inside its quoted strings are replaced by private characters, so that no
later stage mistakes them for structure. Each byte of the result remembers the offset it
came from.

A string is a quote closed by the same quote on its line; a quote that is not closed is
an ordinary character. An interpolation inside a string stays as it is. A line comment
is kept if it follows a scheme, as in `http://`; an unterminated block comment is kept
as well.

## Main definitions

* `Tracked` — bytes with the offsets they came from
* `normalizeTracked`, `normalize`, `origins` — normalized source and its offsets
* `protectByte`, `protectText`, `restore` — private characters for structural ones
* `originOf` — the offset in the source of an offset in the result
-/

namespace Stylesheet

open Text

/-- Bytes, each with the offset in the source it came from. -/
abbrev Tracked := List (UInt8 × Nat)

/-- The last byte of the private character that stands for a structural byte; the three
bytes are `EE 80` and this one. -/
def privateByte? (c : UInt8) : Option UInt8 :=
  if c = ch ':' then some 0x80
  else if c = ch ';' then some 0x81
  else if c = ch '\x7b' then some 0x82
  else if c = ch '\x7d' then some 0x83
  else if c = ch '/' then some 0x84
  else if c = ch '*' then some 0x85
  else none

/-- The structural byte a private character stands for, by its last byte. -/
def publicByte? (c : UInt8) : Option UInt8 :=
  if c = 0x80 then some (ch ':')
  else if c = 0x81 then some (ch ';')
  else if c = 0x82 then some (ch '\x7b')
  else if c = 0x83 then some (ch '\x7d')
  else if c = 0x84 then some (ch '/')
  else if c = 0x85 then some (ch '*')
  else none

/-- A byte inside a string: a structural one becomes its private character. -/
def protectByte (c : UInt8) : Text :=
  match privateByte? c with
  | some b => [0xEE, 0x80, b]
  | none => [c]

/-- Every structural byte of a text replaced by its private character. -/
def protectText (t : Text) : Text := t.flatMap protectByte

/-- Every private character replaced by the byte it stands for. -/
def restore : Text → Text
  | [] => []
  | a :: b :: c :: r =>
    if a = 0xEE && b = 0x80 then
      match publicByte? c with
      | some d => d :: restore r
      | none => a :: restore (b :: c :: r)
    else a :: restore (b :: c :: r)
  | a :: r => a :: restore r

/-- Bytes kept as they are, from an offset on. -/
def keepFrom : Nat → Text → Tracked
  | _, [] => []
  | i, c :: r => (c, i) :: keepFrom (i + 1) r

/-- The length of the rest of a string after its opening quote `q`, closing quote
included; none if the line ends first. -/
def stringRest? (q : UInt8) : Text → Option Nat
  | [] => none
  | [c] => if c = q then some 1 else none
  | c :: d :: r =>
    if c = ch '\\' then (stringRest? q r).map (· + 2)
    else if c = q then some 1
    else if c = ch '\n' then none
    else (stringRest? q (d :: r)).map (· + 1)

/-- The length of the interpolation a text starts with, both braces included. -/
def interpolation? (t : Text) : Option Nat :=
  if starts t [ch '#', ch '\x7b'] then (indexOf (ch '\x7d') t).map (· + 1) else none

/-- A string from an offset on, its structural bytes protected except in
interpolations; `keep` bytes of an interpolation are still to be kept. -/
def protectFrom : (keep : Nat) → Nat → Text → Tracked
  | _, _, [] => []
  | 0, i, c :: r =>
    match interpolation? (c :: r) with
    | some n => (c, i) :: protectFrom (n - 1) (i + 1) r
    | none => (protectByte c).map (·, i) ++ protectFrom 0 (i + 1) r
  | k + 1, i, c :: r => (c, i) :: protectFrom k (i + 1) r

/-- The length of a block comment after its opening, the closing included. -/
def commentRest? (t : Text) : Option Nat := (find (of "*/") t).map (· + 2)

/-- The three bytes before a place, nearest first. -/
abbrev Behind := UInt8 × UInt8 × UInt8

/-- Two word characters and a colon, as in `http:`, stand before the place. -/
def afterScheme (b : Behind) : Bool := b.1 = ch ':' && isWord b.2.1 && isWord b.2.2

/-- What starts at a place of a source outside strings and comments. -/
inductive Span where
  /-- A string of this length. -/
  | string (width : Nat)
  /-- A comment of this length. -/
  | comment (width : Nat)
  /-- A block comment without an end. -/
  | unterminated
  /-- An ordinary byte. -/
  | byte

/-- The span that `c :: r` starts with, after the bytes `b`. -/
def spanAt (b : Behind) (c : UInt8) (r : Text) : Span :=
  if isQuote c then
    match stringRest? c r with
    | some n => .string (n + 1)
    | none => .byte
  else if c = ch '/' && head0 r = ch '*' then
    match commentRest? (r.drop 1) with
    | some n => .comment (n + 2)
    | none => .unterminated
  else if c = ch '/' && head0 r = ch '/' && !afterScheme b then
    .comment ((indexOf (ch '\n') (c :: r)).getD (r.length + 1))
  else .byte

/-- The normalized source from an offset on, after the bytes `b`; `skip` bytes of a span
are still to pass. -/
def normalizeFrom : (skip : Nat) → Behind → Nat → Text → Tracked
  | _, _, _, [] => []
  | 0, b, i, c :: r =>
    let b' := (c, b.1, b.2.1)
    match spanAt b c r with
    | .string n => protectFrom 0 i ((c :: r).take n) ++ normalizeFrom (n - 1) b' (i + 1) r
    | .comment n => normalizeFrom (n - 1) b' (i + 1) r
    | .unterminated => keepFrom i (c :: r)
    | .byte => (c, i) :: normalizeFrom 0 b' (i + 1) r
  | k + 1, b, i, c :: r => normalizeFrom k (c, b.1, b.2.1) (i + 1) r

/-- The normalized source with the offset of each byte. -/
def normalizeTracked (t : Text) : Tracked := normalizeFrom 0 (0, 0, 0) 0 t

/-- The normalized source. -/
def normalize (t : Text) : Text := (normalizeTracked t).map (·.1)

/-- The offset in the source of each byte of the normalized source. -/
def origins (t : Text) : List Nat := (normalizeTracked t).map (·.2)

/-- The offset in the source of an offset in the normalized source. Past the end the
offsets go on from the last one, as integers of 64 bits. -/
def originOf (offsets : List Nat) (i : Int) : Int :=
  if i < 0 then i
  else match offsets[i.toNat]?, offsets.getLast? with
    | some o, _ => o
    | none, some last => (last + 1 + i - offsets.length).bmod UInt64.size
    | none, none => i

end Stylesheet
