import Stylesheet.Expression
import Stylesheet.Double.Numeral

/-!
# Reading expressions

Operators bind, loosest first: `or`, `and`, `not` and `!`, comparisons, `+` and `-`,
`*` and `/`, signs. Operators of one level group to the left. Expressions next to each
other make a list, and so do expressions separated by commas, whose members may have
keys. A slash between two numerals divides only inside parentheses.

Reading yields a tree and the tokens that are left, or no tokens if the text is
malformed, in which case evaluating the tree fails.

## Main definitions

* `Level` — the levels of binding
* `Expr.read` — the tree of the tokens of a text
* `Expr.parse` — the tree of a text
-/

namespace Stylesheet

open Text

/-- The levels of binding, loosest first. -/
inductive Level where
  | or
  | and
  | not
  | compare
  | sum
  | product
  | unary
  deriving DecidableEq

/-- The next tighter level. -/
def Level.next : Level → Level
  | .or => .and
  | .and => .not
  | .not => .compare
  | .compare => .sum
  | .sum => .product
  | .product => .unary
  | .unary => .unary

/-- The operator a token is on a level. -/
def Level.operator? : Level → TokenKind → Option BinaryOp
  | .or, .or => some .or
  | .and, .and => some .and
  | .compare, .eq => some (.compare .eq)
  | .compare, .ne => some (.compare .ne)
  | .compare, .lt => some (.compare .lt)
  | .compare, .le => some (.compare .le)
  | .compare, .gt => some (.compare .gt)
  | .compare, .ge => some (.compare .ge)
  | .sum, .plus => some (.arith .add)
  | .sum, .minus => some (.arith .sub)
  | .product, .star => some (.arith .mul)
  | .product, .slash => some (.arith .div)
  | _, _ => none

/-- Where an expression stands: the text it is part of, and whether inside parentheses. -/
structure Place where
  source : Text
  nested : Bool

/-- A tree, or several, and the tokens left; none if the text is malformed. -/
abbrev Parsed (α : Type) := α × Option (List Token)

namespace Expr

/-- The first token; the end if there is none. -/
def first (ts : List Token) : Token := ts.headD (Token.endAt 0)

/-- The class of the first token. -/
def firstKind (ts : List Token) : TokenKind := (first ts).kind

/-- The tokens after the first; the end is never passed. -/
def rest (ts : List Token) : List Token :=
  match ts with
  | t :: r => if t.kind = .eof then ts else r
  | [] => []

/-- The failure at the first token. -/
def unexpected (ts : List Token) : Malformed := .unexpected (firstKind ts) (first ts).start

/-- Two operands joined by an operator. -/
def combine (place : Place) (op : BinaryOp) (left right : Expr) : Expr :=
  if op = .arith .div && !place.nested && left.isNumeral && right.isNumeral then
    .ratio left right
  else .binary op left right

/-- A member starts with a key: a variable and a colon, or inside parentheses a word or
string and a colon. -/
def startsKey (place : Place) (ts : List Token) : Bool :=
  match ts with
  | t :: u :: _ =>
    u.kind = .colon &&
      (t.kind = .var || (place.nested && (t.kind = .ident || t.kind = .string)))
  | _ => false

/-- The tokens up to the parenthesis that closes `depth + 1` open ones, that
parenthesis, and the tokens after it. -/
def closing? : (depth : Nat) → List Token → Option (List Token × Token × List Token)
  | _, [] => none
  | depth, t :: ts =>
    match t.kind, depth with
    | .rparen, 0 => some ([], t, ts)
    | .rparen, d + 1 => (closing? d ts).map fun (inside, c, after) => (t :: inside, c, after)
    | .lparen, d => (closing? (d + 1) ts).map fun (inside, c, after) => (t :: inside, c, after)
    | _, d => (closing? d ts).map fun (inside, c, after) => (t :: inside, c, after)

/-- The source from one offset to another, with the variables among the tokens apart. -/
def pieces (source : Text) : (start stop : Nat) → List Token → List Piece
  | start, stop, [] => [.text (slice source start stop)]
  | start, stop, t :: ts =>
    if t.kind = .var then
      .text (slice source start t.start) :: .var t.text :: pieces source t.stop stop ts
    else pieces source start stop ts

/-- The tree of a token that is an expression by itself. -/
def ofToken (t : Token) : Expr :=
  match t.kind with
  | .number =>
    match Double.read? t.text with
    | some f => .numeral (Number.of f t.unit)
    | none => .fail (.badNumber t.text)
  | .string => .constant (.string t.text t.quote)
  | .bool => .constant (.bool (lower t.text = of "true"))
  | .color =>
    match Color.parseHex? t.text with
    | some c => .constant (.color c)
    | none => .constant (.plain t.text)
  | .var => .var t.text
  | .ident => .constant (.plain t.text)
  | k => .fail (.unexpected k t.start)

/-- The tree of a token that is no expression. -/
def isFailure : Expr → Bool
  | .fail _ => true
  | _ => false

/-- The tree of members separated by commas; a single positional member is itself. -/
def ofMembers : List (Text × Expr) → Expr
  | [(k, e)] => if k.isEmpty then e else .list [ch ','] [(k, e)]
  | items => .list [ch ','] items

/-- The tree of expressions next to each other. -/
def ofItems : List Expr → Expr
  | [e] => e
  | items => .list [] (items.map ([], ·))

/-- Ends an expression in a list written with spaces. -/
def endsItem : TokenKind → Bool
  | .eof | .comma | .rparen | .colon => true
  | _ => false

mutual

/-- Reads an expression of a level. -/
def readLevel : (fuel : Nat) → Place → Level → List Token → Parsed Expr
  | 0, _, _, ts => (.fail (unexpected ts), none)
  | fuel + 1, place, .unary, ts =>
    match firstKind ts with
    | .sign =>
      let (e, left) := readLevel fuel place .unary (rest ts)
      (.negate e, left)
    | .plus => readLevel fuel place .unary (rest ts)
    | _ => readPrimary fuel place ts
  | fuel + 1, place, .not, ts =>
    match firstKind ts with
    | .not =>
      let (e, left) := readLevel fuel place .not (rest ts)
      (.not e, left)
    | .bang =>
      let (e, left) := readLevel fuel place .not (rest ts)
      (.bang e, left)
    | _ => readLevel fuel place .compare ts
  | fuel + 1, place, level, ts =>
    match readLevel fuel place level.next ts with
    | (e, some ts) => readMore fuel place level e ts
    | (e, none) => (e, none)

/-- Reads further operators of a level and their operands. -/
def readMore : (fuel : Nat) → Place → Level → (left : Expr) → List Token → Parsed Expr
  | 0, _, _, left, ts => (.thenFail left (unexpected ts), none)
  | fuel + 1, place, level, left, ts =>
    match level.operator? (firstKind ts) with
    | none => (left, some ts)
    | some op =>
      match readLevel fuel place level.next (rest ts) with
      | (right, some ts) => readMore fuel place level (combine place op left right) ts
      | (right, none) => (.binary op left right, none)

/-- Reads an expression without operators: a token, a parenthesis or a call. -/
def readPrimary : (fuel : Nat) → Place → List Token → Parsed Expr
  | 0, _, ts => (.fail (unexpected ts), none)
  | fuel + 1, place, ts =>
    let t := first ts
    let ts := rest ts
    match t.kind with
    | .lparen =>
      if firstKind ts = .rparen then (.constant (.list [] []), some (rest ts))
      else match readMembers fuel { place with nested := true } ts with
        | (items, some ts) =>
          if firstKind ts = .rparen then (.group (ofMembers items), some (rest ts))
          else (.thenFail (ofMembers items) (unexpected ts), none)
        | (items, none) => (ofMembers items, none)
    | .function =>
      match closing? 0 (rest ts) with
      | none => (.fail (.unclosedCall t.text), none)
      | some (inside, close, after) =>
        if inside.isEmpty then (.call t.text [] true [], some after)
        else
          let place' := { place with nested := true }
          let source := pieces place.source (first ts).stop close.start inside
          match readMembers fuel place' (inside ++ [Token.endAt close.start]) with
          | (items, some left) =>
            (.call t.text items (firstKind left = .eof) source, some after)
          | (items, none) => (.call t.text items false source, some after)
    | _ =>
      let e := ofToken t
      (e, if e.isFailure then none else some ts)

/-- Reads expressions next to each other, `items` being those read before, last first. -/
def readItems : (fuel : Nat) → Place → (items : List Expr) → List Token → Parsed Expr
  | 0, _, items, ts => (ofItems (.fail (unexpected ts) :: items).reverse, none)
  | fuel + 1, place, items, ts =>
    match readLevel fuel place .or ts with
    | (e, none) => (ofItems (e :: items).reverse, none)
    | (e, some ts) =>
      if endsItem (firstKind ts) then (ofItems (e :: items).reverse, some ts)
      else readItems fuel place (e :: items) ts

/-- Reads members separated by commas, with their keys. -/
def readMembers : (fuel : Nat) → Place → List Token → Parsed (List (Text × Expr))
  | 0, _, ts => ([([], .fail (unexpected ts))], none)
  | fuel + 1, place, ts =>
    let (key, ts) :=
      if startsKey place ts then ((first ts).text, rest (rest ts)) else ([], ts)
    match readItems fuel place [] ts with
    | (e, none) => ([(key, e)], none)
    | (e, some ts) =>
      if firstKind ts = .comma then
        let ts := rest ts
        if firstKind ts = .eof || firstKind ts = .rparen then ([(key, e)], some ts)
        else
          let (items, left) := readMembers fuel place ts
          ((key, e) :: items, left)
      else ([(key, e)], some ts)

end

/-- Enough fuel to read so many tokens: each is reached through every level once. -/
def enoughFuel (tokens : Nat) : Nat := 16 * (tokens + 1)

/-- The tree of tokens that are all of an expression. -/
def read (source : Text) (ts : List Token) : Expr :=
  match readMembers (enoughFuel ts.length) ⟨source, false⟩ ts with
  | (items, none) => ofMembers items
  | (items, some left) =>
    if firstKind left = .eof then ofMembers items
    else .thenFail (ofMembers items) (unexpected left)

/-- The tree of a text; a text without tokens has none. -/
def parse (source : Text) : Except Malformed Expr := (Token.scan source).map (read source)

end Expr

end Stylesheet
