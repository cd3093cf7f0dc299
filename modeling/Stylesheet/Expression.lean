import Stylesheet.Value.Operators
import Stylesheet.Expression.Token

/-!
# Expressions

The tree of an expression. A text that is malformed from some point on still has a
tree: the part before that point is evaluated first, and only then does evaluation
fail, so the tree says with `fail` and `thenFail` where that happens.

## Main definitions

* `Expr` — expression trees
* `BinaryOp` — the operators with two operands
* `Piece` — the source of a call, with its variables apart
-/

namespace Stylesheet

open Text

/-- The operators with two operands. -/
inductive BinaryOp where
  | or
  | and
  | compare (op : CompareOp)
  | arith (op : ArithOp)
  deriving DecidableEq

/-- A piece of source text, or a variable in it. -/
inductive Piece where
  | text (t : Text)
  | var (name : Text)
  deriving DecidableEq

/-- An expression. A list has keyed and positional members; `group` is an expression in
parentheses; `call` has its arguments, whether they were understood to the end, and its
source between the parentheses; `ratio` is a slash between two numerals that does not
divide. -/
inductive Expr where
  | constant (v : Value)
  | numeral (n : Number)
  | var (name : Text)
  | call (name : Text) (args : List (Text × Expr)) (complete : Bool) (source : List Piece)
  | group (e : Expr)
  | negate (e : Expr)
  | not (e : Expr)
  | bang (e : Expr)
  | binary (op : BinaryOp) (left right : Expr)
  | ratio (left right : Expr)
  | list (sep : Text) (items : List (Text × Expr))
  | thenFail (e : Expr) (cause : Malformed)
  | fail (cause : Malformed)

/-- A number as written, with any signs before it. -/
def Expr.isNumeral : Expr → Bool
  | .numeral _ => true
  | .negate e => e.isNumeral
  | _ => false

end Stylesheet
