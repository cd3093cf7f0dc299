import Mathlib
import Stylesheet.Expression.Eval

/-!
# Formulas

The part of the expression language that has a grammar in the usual sense: number literals,
variables, parentheses, signs, arithmetic, comparisons and the words `not`, `and` and `or`. A
formula has a value, computed from the bottom up, and a spelling with parentheses exactly where
the binding of the operators requires them.

## Main definitions

* `Literal`, `Sigil` — the number literals and the variables of formulas
* `Formula` — formulas
* `Formula.value` — the value, or the first error from the left
* `Formula.grouped` — a formula with the parentheses its spelling needs
* `Formula.render` — the spelling
* `Formula.expr` — the tree that reading the spelling gives

## Main results

* `Formula.eval_expr` — the tree has the value of the formula
-/

namespace Stylesheet

open Text

/-! ### Atoms -/

/-- Digits, and a fraction if there is one. -/
def numeralText (whole : Text) : Option Text → Text
  | none => whole
  | some fraction => whole ++ ch '.' :: fraction

/-- A number literal: digits, perhaps a fraction, perhaps a unit of letters. -/
structure Literal where
  whole : Text
  fraction : Option Text
  unit : Text
  whole_ne_nil : whole ≠ []
  whole_digits : ∀ c ∈ whole, isDigit c = true
  fraction_digits : ∀ f ∈ fraction, f ≠ [] ∧ ∀ c ∈ f, isDigit c = true
  unit_letters : ∀ c ∈ unit, isLetter c = true
  /-- The numeral is within the range of doubles. -/
  inRange : (Double.read? (numeralText whole fraction)).isSome = true

namespace Literal

/-- The literal without its unit. -/
def numeral (n : Literal) : Text := numeralText n.whole n.fraction

/-- How the literal is written. -/
def text (n : Literal) : Text := n.numeral ++ n.unit

/-- The magnitude of the literal. -/
def magnitude (n : Literal) : Float := (Double.read? n.numeral).get n.inRange

/-- The number the literal denotes. -/
def number (n : Literal) : Number := Number.of n.magnitude n.unit

end Literal

/-- A variable: a dollar sign and a name. -/
structure Sigil where
  name : Text
  name_ne_nil : name ≠ []
  name_chars : ∀ c ∈ name, Token.isNameChar c = true

/-- How the variable is written. -/
def Sigil.text (x : Sigil) : Text := ch '$' :: x.name

/-! ### Operators -/

/-- The level an operator binds on. -/
def BinaryOp.level : BinaryOp → Level
  | .or => .or
  | .and => .and
  | .compare _ => .compare
  | .arith .add | .arith .sub => .sum
  | .arith .mul | .arith .div => .product

/-- How an operator is written. -/
def BinaryOp.word : BinaryOp → Text
  | .or => of "or"
  | .and => of "and"
  | .compare .eq => of "=="
  | .compare .ne => of "!="
  | .compare .lt => of "<"
  | .compare .le => of "<="
  | .compare .gt => of ">"
  | .compare .ge => of ">="
  | .arith op => op.sign

/-- The token an operator is. -/
def BinaryOp.token : BinaryOp → TokenKind
  | .or => .or
  | .and => .and
  | .compare .eq => .eq
  | .compare .ne => .ne
  | .compare .lt => .lt
  | .compare .le => .le
  | .compare .gt => .gt
  | .compare .ge => .ge
  | .arith .add => .plus
  | .arith .sub => .minus
  | .arith .mul => .star
  | .arith .div => .slash

/-- The value of an operator. -/
def BinaryOp.value (op : BinaryOp) (a b : Value) : Except ArithError Value :=
  match op with
  | .or => .ok (if a.truthy then a else b)
  | .and => .ok (if a.truthy then b else a)
  | .compare op => .ok (.bool (a.compare op b))
  | .arith op => a.arith op b

theorem BinaryOp.apply_eq (op : BinaryOp) (a b : Value) :
    op.apply a b = (op.value a b).mapError .arith := by
  cases op <;> rfl

/-- How tight a level binds. -/
def Level.rank : Level → Nat
  | .or => 0
  | .and => 1
  | .not => 2
  | .compare => 3
  | .sum => 4
  | .product => 5
  | .unary => 6

theorem BinaryOp.level_rank_lt (op : BinaryOp) : op.level.rank < Level.unary.rank := by
  cases op with
  | compare op => exact (by decide : Level.compare.rank < Level.unary.rank)
  | arith op => cases op <;> decide
  | _ => decide

/-! ### Formulas -/

/-- Expressions without lists, strings and calls. -/
inductive Formula where
  | number (n : Literal)
  | var (x : Sigil)
  | paren (e : Formula)
  | negate (e : Formula)
  | not (e : Formula)
  | binary (op : BinaryOp) (left right : Formula)

namespace Formula

/-- The variables of a formula. -/
def vars : Formula → List Sigil
  | number _ => []
  | var x => [x]
  | paren e | negate e | not e => e.vars
  | binary _ l r => l.vars ++ r.vars

/-- The value of a formula where `valueOf` gives those of variables: the operands from the left,
and then the operator. -/
def value (valueOf : Sigil → Value) : Formula → Except ArithError Value
  | number n => return .number n.number
  | var x => return valueOf x
  | paren e => e.value valueOf
  | negate e => do (← e.value valueOf).negate
  | not e => return .bool !(← e.value valueOf).truthy
  | binary op l r => do
    let a ← l.value valueOf
    let b ← r.value valueOf
    op.value a b

/-- How tight the operator of a formula binds; atoms bind tightest. -/
def rank : Formula → Nat
  | number _ | var _ | paren _ => Level.unary.rank + 1
  | negate _ => Level.unary.rank
  | not _ => Level.not.rank
  | binary op _ _ => op.level.rank

/-- A formula as an operand of something that binds this tight. -/
def operand (rank : Nat) (e : Formula) : Formula := if e.rank < rank then paren e else e

/-- The formula with the parentheses its spelling needs. Operators group to the left, so that the
operand on the right binds tighter; a sign is followed by an atom, so never by another sign. -/
def grouped : Formula → Formula
  | number n => number n
  | var x => var x
  | paren e => paren e.grouped
  | negate e => negate (e.grouped.operand (Level.unary.rank + 1))
  | not e => not (e.grouped.operand Level.not.rank)
  | binary op l r =>
    binary op (l.grouped.operand op.level.rank) (r.grouped.operand (op.level.rank + 1))

/-- The spelling of a formula as it is: one space around operators and after `not`. -/
def spelling : Formula → Text
  | number n => n.text
  | var x => x.text
  | paren e => ch '(' :: e.spelling ++ [ch ')']
  | negate e => ch '-' :: e.spelling
  | not e => of "not " ++ e.spelling
  | binary op l r => l.spelling ++ ch ' ' :: op.word ++ ch ' ' :: r.spelling

/-- The spelling of a formula with the parentheses it needs. -/
def render (e : Formula) : Text := e.grouped.spelling

/-- Every operand binds as tight as the spelling without further parentheses requires. -/
def Grouped : Formula → Prop
  | number _ | var _ => True
  | paren e => e.Grouped
  | negate e => Level.unary.rank < e.rank ∧ e.Grouped
  | not e => Level.not.rank ≤ e.rank ∧ e.Grouped
  | binary op l r =>
    (op.level.rank ≤ l.rank ∧ l.Grouped) ∧ op.level.rank < r.rank ∧ r.Grouped

/-- The tree of a formula. -/
def expr : Formula → Expr
  | number n => .numeral n.number
  | var x => .var x.text
  | paren e => .group e.expr
  | negate e => .negate e.expr
  | not e => .not e.expr
  | binary op l r => .binary op l.expr r.expr

/-! ### Parentheses -/

theorem rank_operand {n : Nat} (hn : n ≤ Level.unary.rank + 1) (e : Formula) :
    n ≤ (e.operand n).rank := by
  unfold operand
  split
  · exact hn
  · omega

theorem Grouped.operand {e : Formula} (h : e.Grouped) (n : Nat) : (e.operand n).Grouped := by
  unfold Formula.operand
  split <;> exact h

theorem grouped_grouped (e : Formula) : e.grouped.Grouped := by
  induction e with
  | number n => trivial
  | var x => trivial
  | paren e ih => exact ih
  | negate e ih => exact ⟨rank_operand (Nat.le_refl _) _, ih.operand _⟩
  | not e ih => exact ⟨rank_operand (by decide) _, ih.operand _⟩
  | binary op l r ihl ihr =>
    have hlevel := op.level_rank_lt
    exact ⟨⟨rank_operand (by omega) _, ihl.operand _⟩, rank_operand (by omega) _, ihr.operand _⟩

@[simp] theorem value_operand (valueOf : Sigil → Value) (n : Nat) (e : Formula) :
    (e.operand n).value valueOf = e.value valueOf := by
  unfold operand
  split <;> rfl

/-- Parentheses leave the value as it is. -/
theorem value_grouped (valueOf : Sigil → Value) (e : Formula) :
    e.grouped.value valueOf = e.value valueOf := by
  induction e with
  | number n => rfl
  | var x => rfl
  | paren e ih => exact ih
  | negate e ih | not e ih => simp only [grouped, value, value_operand, ih]
  | binary op l r ihl ihr => simp only [grouped, value, value_operand, ihl, ihr]

@[simp] theorem vars_operand (n : Nat) (e : Formula) : (e.operand n).vars = e.vars := by
  unfold operand
  split <;> rfl

theorem vars_grouped (e : Formula) : e.grouped.vars = e.vars := by
  induction e with
  | number n => rfl
  | var x => rfl
  | paren e ih => exact ih
  | negate e ih | not e ih => simp only [grouped, vars, vars_operand, ih]
  | binary op l r ihl ihr => simp only [grouped, vars, vars_operand, ihl, ihr]

/-! ### Values -/

/-- The tree of a formula has its value. -/
theorem eval_expr {m : Type → Type} [Monad m] [LawfulMonad m] {env : Env m}
    {lookup : Text → m Value} {valueOf : Sigil → Value} (e : Formula)
    (hvars : ∀ x ∈ e.vars, lookup x.text = pure (valueOf x)) :
    e.expr.eval env lookup = pure ((e.value valueOf).mapError .arith) := by
  induction e with
  | number n => simp only [expr, Expr.eval, value]; rfl
  | var x =>
    simp only [expr, Expr.eval, hvars x List.mem_cons_self, pure_bind]
    rfl
  | paren e ih => simp only [expr, Expr.eval, ih hvars, value]
  | negate e ih =>
    simp only [expr, Expr.eval, ih hvars, pure_bind, value]
    cases e.value valueOf <;> rfl
  | not e ih =>
    simp only [expr, Expr.eval, ih hvars, pure_bind, value]
    cases e.value valueOf <;> rfl
  | binary op l r ihl ihr =>
    -- each side has the variables it mentions, which are among those of the whole
    have hl := ihl fun x hx => hvars x (List.mem_append_left _ hx)
    have hr := ihr fun x hx => hvars x (List.mem_append_right _ hx)
    simp only [expr, Expr.eval, hl, hr, pure_bind, value]
    cases l.value valueOf with
    | error x => rfl
    | ok a =>
      cases r.value valueOf with
      | error x => rfl
      | ok b =>
        simp only [Except.mapError, op.apply_eq]
        rfl

end Formula

end Stylesheet
