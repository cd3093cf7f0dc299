import Mathlib.Data.Finset.Basic
import Stylesheet.Expression.Eval
import Stylesheet.Proofs.Source.Cursors

/-!
# Evaluating while reading

An expression can be evaluated while its tokens are read, with no tree in between. A cursor goes
through the tokens by their index, the source is cut at their offsets, and the variables that are
being expanded are in one set, shared by all the texts that are being evaluated inside each other.

Here every index is checked before it is used, so that one out of range ends the evaluation, and
every step uses up fuel, so that an evaluation without end runs out of it. Both are failures that
nothing recovers from.

## Main definitions

* `DescentM` — computations with the set of variables being expanded
* `Cursor` — a place among the tokens of a text
* `Descent.level`, `Descent.primary`, `Descent.entries` — expressions, from a cursor on
* `Descent.eval` — the value of a text
-/

namespace Stylesheet

open Text

/-- Why a descent ends without a value. -/
inductive Halted where
  | failed (cause : EvalError)
  | outOfRange
  | exhausted

/-- Computations with the set of the variables that are being expanded. -/
abbrev DescentM (m : Type → Type) := ExceptT Halted (StateT (Finset Text) m)

/-- A place among the tokens of a text. -/
structure Cursor where
  source : Text
  tokens : List Token
  index : Nat
  /-- The parentheses around it. -/
  depth : Nat
  /-- The expression before it, if it has no operator, is a numeral. -/
  literal : Bool

namespace Descent

variable {m : Type → Type} [Monad m] {α : Type}

/-! ### Indices in range -/

/-- The token at an index. -/
def tokenAt (tokens : List Token) (i : Nat) : DescentM m Token :=
  match tokens[i]? with
  | some t => return t
  | none => throw .outOfRange

/-- The tokens from one index to another. -/
def cutTokens (tokens : List Token) (i j : Nat) : DescentM m (List Token) :=
  if i ≤ j ∧ j ≤ tokens.length then return (tokens.take j).drop i else throw .outOfRange

/-- The bytes from one offset to another. -/
def cut (source : Text) (i j : Nat) : DescentM m Text :=
  match slice? source i j with
  | some t => return t
  | none => throw .outOfRange

/-! ### Failures -/

/-- A result that is known. -/
def ofExcept : Except EvalError α → DescentM m α
  | .ok a => return a
  | .error e => throw (.failed e)

/-- Fails at a token. -/
def failAt (t : Token) : DescentM m α :=
  throw (.failed (.malformed (.unexpected t.kind t.start)))

/-- Goes on after a failure, but not after an index out of range or without fuel. -/
def attempt (x : DescentM m α) : DescentM m (Except EvalError α) :=
  tryCatch (do return .ok (← x)) fun
    | .failed e => return .error e
    | stop => throw stop

/-! ### Cursors -/

end Descent

namespace Cursor

variable {m : Type → Type} [Monad m]

open Descent

/-- The token at the cursor. -/
def peek (c : Cursor) : DescentM m Token := tokenAt c.tokens c.index

/-- The token some places ahead; the last one if there are not so many. -/
def peekAt (c : Cursor) (n : Nat) : DescentM m Token :=
  if c.index + n < c.tokens.length then tokenAt c.tokens (c.index + n)
  else tokenAt c.tokens (c.tokens.length - 1)

/-- The token at the cursor, and the cursor after it; the end is never passed. -/
def next (c : Cursor) : DescentM m (Token × Cursor) := do
  let t ← c.peek
  return (t, if t.kind = .eof then c else { c with index := c.index + 1 })

/-- A member starts with a key. -/
def isKey (c : Cursor) : DescentM m Bool := do
  if (← c.peekAt 1).kind = .colon then
    let k := (← c.peek).kind
    return k = .var || (c.depth > 0 && (k = .ident || k = .string))
  else return false

/-- The key of a member, nothing if there is none, and the cursor after it. -/
def key (c : Cursor) : DescentM m (Text × Cursor) := do
  if ← c.isKey then
    let (t, c) ← c.next
    let (_, c) ← c.next
    return (t.text, c)
  else return ([], c)

end Cursor

namespace Descent

variable {m : Type → Type} [Monad m]

/-! ### Tokens of a text -/

/-- Cuts the text of a token, and the unit of a number, from the source. -/
def cutToken (source : Text) (t : Token) : DescentM m Unit := do
  if t.kind = .number then
    let _ ← cut source t.start (t.start + t.text.length)
    let _ ← cut source (t.start + t.text.length) t.stop
    return
  else
    let _ ← cut source t.start t.stop
    return

/-- The tokens from an offset on. -/
def scan (source : Text) : (fuel offset : Nat) → DescentM m (List Token)
  | 0, _ => throw .exhausted
  | fuel + 1, offset =>
    if offset < source.length then
      match source[offset]? with
      | none => throw .outOfRange
      | some c =>
        if isSpace c then scan source fuel (offset + 1)
        else match Token.lex offset c (source.drop (offset + 1)) with
          | .error cause => throw (.failed (.malformed cause))
          | .ok t => do
            cutToken source t
            return t :: (← scan source fuel t.stop)
    else return [Token.endAt source.length]

/-! ### Calls -/

/-- The index of the parenthesis that closes the one at an index, `left` tokens being left to look
at. -/
def matching (tokens : List Token) : (left i : Nat) → (depth : Int) → DescentM m (Option Nat)
  | 0, _, _ => return none
  | left + 1, i, depth => do
    match (← tokenAt tokens i).kind with
    | .lparen => matching tokens left (i + 1) (depth + 1)
    | .rparen => if depth - 1 = 0 then return some i else matching tokens left (i + 1) (depth - 1)
    | _ => matching tokens left (i + 1) depth

/-- The source from an offset on, up to where `left` tokens have been passed, with their variables
replaced. -/
def substituteFrom (env : Env m) (source : Text) (tokens : List Token) (stop : Nat) :
    (left i start : Nat) → DescentM m Text
  | 0, _, start => cut source start stop
  | left + 1, i, start => do
    let t ← tokenAt tokens i
    if t.kind = .var then
      let before ← cut source start t.start
      let text := ((env.var? t.text).map Value.text).getD t.text
      return before ++ text ++ (← substituteFrom env source tokens stop left (i + 1) t.stop)
    else substituteFrom env source tokens stop left (i + 1) start

/-- The source between the tokens before one index and at another, with the variables replaced. -/
def substitute (env : Env m) (c : Cursor) (i j : Nat) : DescentM m Text := do
  if i ≥ j then return []
  else
    let first ← tokenAt c.tokens (i - 1)
    let last ← tokenAt c.tokens j
    substituteFrom env c.source c.tokens last.start (j - i) i first.stop

/-- The arguments of a call, if they have values and are all there is. -/
def settled : Except EvalError (List Entry × Bool) → Option (List Entry)
  | .ok (args, true) => some args
  | _ => none

/-- The arguments between two parentheses; nothing if they are malformed or have no value. -/
def arguments (entries : Cursor → DescentM m (List Entry × Cursor)) (c : Cursor)
    (opening closing : Nat) : DescentM m (Option (List Entry)) := do
  if opening + 1 < closing then
    let inside ← cutTokens c.tokens (opening + 1) closing
    let close ← tokenAt c.tokens closing
    let inner : Cursor := ⟨c.source, inside ++ [Token.endAt close.start], 0, 1, false⟩
    let r ← attempt do
      let (args, inner) ← entries inner
      return (args, decide ((← inner.peek).kind = .eof))
    return settled r
  else return some []

/-- The result of a function, if one takes the call. -/
def invoke (env : Env m) (name : Text) : Option (List Entry) → DescentM m (Option Value)
  | none => return none
  | some args => do
    match ← liftM (env.call name args) with
    | .ok result => return result
    | .error e => throw (.failed (.call name e))

/-- The value of a call whose name has been passed. -/
def call (env : Env m) (entries : Cursor → DescentM m (List Entry × Cursor)) (name : Token)
    (c : Cursor) : DescentM m (Value × Cursor) := do
  let opening := c.index
  let (_, c) ← c.next
  match ← matching c.tokens (c.tokens.length - opening) opening 0 with
  | none => throw (.failed (.malformed (.unclosedCall name.text)))
  | some closing =>
    let args ← arguments entries c opening closing
    let c := { c with index := closing + 1 }
    match ← invoke env name.text args with
    | some v => return (v, c)
    | none =>
      let source ← substitute env c (opening + 1) closing
      return (.plain (name.text ++ ch '(' :: source ++ [ch ')']), c)

/-- The value of a variable. Its text is evaluated while the variable is in the set. -/
def lookup (env : Env m) (eval : Text → DescentM m Value) (name : Text) : DescentM m Value := do
  match env.var? name with
  | none => return .plain name
  | some (.string t none) =>
    if name ∈ (← get) then return .plain t
    else
      modify (insert name)
      let r ← attempt (eval t)
      modify (·.erase name)
      match r with
      | .ok v => return v
      | .error _ => return .plain t
  | some v => return v

/-! ### Expressions -/

/-- The value of a token that is an expression by itself. -/
def tokenValue (t : Token) : Except EvalError Value :=
  match t.kind with
  | .number =>
    match Double.read? t.text with
    | some f => .ok (.number (Number.of f t.unit))
    | none => .error (.malformed (.badNumber t.text))
  | .string => .ok (.string t.text t.quote)
  | .bool => .ok (.bool (lower t.text = of "true"))
  | .color =>
    match Color.parseHex? t.text with
    | some c => .ok (.color c)
    | none => .ok (.plain t.text)
  | .ident => .ok (.plain t.text)
  | k => .error (.malformed (.unexpected k t.start))

/-- The value of an operator with the cursor after its operands, of which the left one is a numeral
if `literal` says so. Outside parentheses a slash between two numerals does not divide. -/
def operate (c : Cursor) (literal : Bool) (op : BinaryOp) (a b : Value) : DescentM m Value :=
  if op = .arith .div && c.depth = 0 && literal && c.literal then
    return .plain (a.text ++ ch '/' :: b.text)
  else ofExcept (op.apply a b)

/-- Expressions next to each other; a single one is itself. -/
def spaced : List Entry → Value
  | [(_, v)] => v
  | vs => .list [] vs

/-- Members with commas between them; a single one without a key is itself. -/
def joined : List Entry → Value
  | [(k, v)] => if k.isEmpty then v else .list [ch ','] [(k, v)]
  | vs => .list [ch ','] vs

mutual

/-- An expression of a level. -/
def level (env : Env m) : (fuel : Nat) → Level → Cursor → DescentM m (Value × Cursor)
  | 0, _, _ => throw .exhausted
  | fuel + 1, .unary, c => do
    match (← c.peek).kind with
    | .sign => do
      let (_, c) ← c.next
      let (v, c) ← level env fuel .unary c
      return (← ofExcept (v.negate.mapError .arith), c)
    | .plus => do
      let (_, c) ← c.next
      level env fuel .unary c
    | _ => primary env fuel c
  | fuel + 1, .not, c => do
    match (← c.peek).kind with
    | .not => do
      let (_, c) ← c.next
      let (v, c) ← level env fuel .not c
      return (.bool !v.truthy, c)
    | .bang => do
      let (_, c) ← c.next
      let (v, c) ← level env fuel .not c
      match v with
      | .bool b => return (.bool !b, c)
      | v => return (.plain (ch '!' :: v.text), c)
    | _ => level env fuel .compare c
  | fuel + 1, l, c => do
    let (v, c) ← level env fuel l.next c
    more env fuel l c.literal v c

/-- The operators of a level after a first operand, and their operands. -/
def more (env : Env m) : (fuel : Nat) → Level → (literal : Bool) → Value → Cursor →
    DescentM m (Value × Cursor)
  | 0, _, _, _, _ => throw .exhausted
  | fuel + 1, l, literal, v, c => do
    match l.operator? (← c.peek).kind with
    | none => return (v, c)
    | some op =>
      let (_, c) ← c.next
      let (w, c) ← level env fuel l.next c
      let v ← operate c literal op v w
      more env fuel l false v c

/-- An expression without operators. -/
def primary (env : Env m) : (fuel : Nat) → Cursor → DescentM m (Value × Cursor)
  | 0, _ => throw .exhausted
  | fuel + 1, c => do
    let (t, c) ← c.next
    let c := { c with literal := false }
    match t.kind with
    | .lparen =>
      if (← c.peek).kind = .rparen then
        let (_, c) ← c.next
        return (.list [] [], c)
      else
        let (vs, inner) ← entries env fuel { c with depth := c.depth + 1 }
        let (t, inner) ← inner.next
        if t.kind = .rparen then
          return (joined vs, { inner with depth := c.depth, literal := false })
        else failAt t
    | .var => return (← lookup env (eval env fuel) t.text, c)
    | .function => call env (entries env fuel) t c
    | k => return (← ofExcept (tokenValue t), { c with literal := k = .number })

/-- Expressions next to each other. -/
def items (env : Env m) : (fuel : Nat) → Cursor → DescentM m (List Entry × Cursor)
  | 0, _ => throw .exhausted
  | fuel + 1, c => do
    let (v, c) ← level env fuel .or c
    if Expr.endsItem (← c.peek).kind then return ([([], v)], c)
    else
      let (vs, c) ← items env fuel c
      return (([], v) :: vs, c)

/-- Members with commas between them. -/
def entries (env : Env m) : (fuel : Nat) → Cursor → DescentM m (List Entry × Cursor)
  | 0, _ => throw .exhausted
  | fuel + 1, c => do
    let (key, c) ← c.key
    let (vs, c) ← items env fuel c
    if (← c.peek).kind = .comma then
      let (_, c) ← c.next
      let k := (← c.peek).kind
      if k = .eof || k = .rparen then return ([(key, spaced vs)], c)
      else
        let (rest, c) ← entries env fuel c
        return ((key, spaced vs) :: rest, c)
    else return ([(key, spaced vs)], c)

/-- The value of a text. -/
def eval (env : Env m) : (fuel : Nat) → Text → DescentM m Value
  | 0, _ => throw .exhausted
  | fuel + 1, source => do
    let tokens ← scan source fuel 0
    let (vs, c) ← entries env fuel ⟨source, tokens, 0, 0, false⟩
    let t ← c.peek
    if t.kind = .eof then return joined vs else failAt t

end

end Descent

/-- Nothing comes after a failure. -/
theorem throw_bind {m : Type → Type} [Monad m] [LawfulMonad m] {ε α β : Type} (e : ε)
    (f : α → ExceptT ε m β) : (throw e >>= f : ExceptT ε m β) = throw e := by
  refine ExceptT.ext ?_
  simp

end Stylesheet
