import Mathlib.Data.List.Basic
import Stylesheet.Proofs.Expression.Formula
import Stylesheet.Proofs.Text

/-!
# Scanning formulas

The spelling of a formula is read as the tokens it was written from, wherever it stands, provided
that a space or a closing parenthesis follows. What a token says is its class, its text and its
unit; the offsets follow from the spelling and play no part.

## Main definitions

* `Token.word` — what a token says
* `Formula.words` — what the tokens of a formula say
* `Scans` — the tokens a text is read as

## Main results

* `Formula.scans` — the tokens of a spelling
-/

namespace Stylesheet

open Text

/-- What a token says: its class, its text and its unit. -/
def Token.word (t : Token) : TokenKind × Text × Text := (t.kind, t.text, t.unit)

/-- What the tokens of a formula say. -/
def Formula.words : Formula → List (TokenKind × Text × Text)
  | number n => [(.number, n.numeral, n.unit)]
  | var x => [(.var, x.text, [])]
  | paren e => (.lparen, [ch '('], []) :: e.words ++ [(.rparen, [ch ')'], [])]
  | negate e => (.sign, [ch '-'], []) :: e.words
  | not e => (.not, of "not", []) :: e.words
  | binary op l r => l.words ++ (op.token, op.word, []) :: r.words

/-- What ends a formula: a space or a closing parenthesis. -/
def EndsFormula (rest : Text) : Prop := head0 rest = ch ' ' ∨ head0 rest = ch ')'

/-- A text is read as these tokens, and what follows it as before. -/
def Scans (text : Text) (words : List (TokenKind × Text × Text)) (rest : Text) : Prop :=
  ∀ offset, ∃ ts : List Token, ts.map Token.word = words ∧
    Token.scanFrom 0 offset (text ++ rest) =
      (Token.scanFrom 0 (offset + text.length) rest).map (ts ++ ·)

theorem Scans.append {t u : Text} {v w : List (TokenKind × Text × Text)} {rest : Text}
    (ht : Scans t v (u ++ rest)) (hu : Scans u w rest) : Scans (t ++ u) (v ++ w) rest := by
  intro offset
  obtain ⟨ts, hts, ht⟩ := ht offset
  obtain ⟨us, hus, hu⟩ := hu (offset + t.length)
  refine ⟨ts ++ us, by rw [List.map_append, hts, hus], ?_⟩
  rw [List.append_assoc, ht, hu, List.length_append, ← Nat.add_assoc]
  cases Token.scanFrom 0 (offset + t.length + u.length) rest with
  | error x => rfl
  | ok vs => exact congrArg Except.ok (List.append_assoc ts us vs).symm

theorem scanFrom_skip (t rest : Text) : ∀ offset,
    Token.scanFrom t.length offset (t ++ rest) = Token.scanFrom 0 (offset + t.length) rest := by
  induction t with
  | nil => exact fun _ => rfl
  | cons c t ih =>
    intro offset
    rw [List.length_cons, List.cons_append, Token.scanFrom, ih]
    exact congrArg (Token.scanFrom 0 · rest) (by omega)

/-- A space is part of no token. -/
theorem scans_space (rest : Text) : Scans [ch ' '] [] rest := by
  intro offset
  refine ⟨[], rfl, ?_⟩
  rw [List.singleton_append, Token.scanFrom, if_pos (by decide)]
  cases Token.scanFrom 0 (offset + [ch ' '].length) rest <;> rfl

/-- One token. -/
theorem scans_token {c : UInt8} {t rest : Text} {word : TokenKind × Text × Text}
    (hspace : isSpace c = false)
    (hlex : ∀ offset, ∃ token, Token.lex offset c (t ++ rest) = .ok token ∧ token.word = word ∧
      token.stop = offset + (t.length + 1)) : Scans (c :: t) [word] rest := by
  intro offset
  obtain ⟨token, hlex, hword, hstop⟩ := hlex offset
  refine ⟨[token], by rw [List.map_singleton, hword], ?_⟩
  have hskip : token.stop - offset - 1 = t.length := by omega
  have hoffset : offset + 1 + t.length = offset + (c :: t).length := by
    rw [List.length_cons]
    omega
  rw [List.cons_append, Token.scanFrom, if_neg (by simp [hspace]), hlex]
  change Token.scanFrom (token.stop - offset - 1) (offset + 1) (t ++ rest) >>= _ = _
  rw [hskip, scanFrom_skip, hoffset]
  cases Token.scanFrom 0 (offset + (c :: t).length) rest <;> rfl

/-! ### Tokens -/

theorem scans_lparen (rest : Text) : Scans [ch '('] [(.lparen, [ch '('], [])] rest :=
  scans_token (by decide) fun _ => ⟨_, rfl, rfl, rfl⟩

theorem scans_rparen (rest : Text) : Scans [ch ')'] [(.rparen, [ch ')'], [])] rest :=
  scans_token (by decide) fun _ => ⟨_, rfl, rfl, rfl⟩

theorem scans_not (rest : Text) : Scans (of "not") [(.not, of "not", [])] (ch ' ' :: rest) :=
  scans_token (by decide) fun _ => ⟨_, rfl, rfl, rfl⟩

/-- An operator with spaces around it. -/
theorem scans_operator (op : BinaryOp) (rest : Text) :
    Scans op.word [(op.token, op.word, [])] (ch ' ' :: rest) := by
  cases op with
  | compare op => cases op <;> exact scans_token (by decide) fun _ => ⟨_, rfl, rfl, rfl⟩
  | arith op => cases op <;> exact scans_token (by decide) fun _ => ⟨_, rfl, rfl, rfl⟩
  | _ => exact scans_token (by decide) fun _ => ⟨_, rfl, rfl, rfl⟩

theorem lex_word {offset n : Nat} {c : UInt8} {r : Text} {kind : TokenKind}
    (hpunctuation : Token.punctuation? c (head0 r) = none) (hquote : isQuote c = false)
    (hnumber : (isDigit c || (c = ch '.' && isDigit (head0 r))) = false)
    (hword : Token.wordOrSign c r = (kind, n)) :
    Token.lex offset c r = .ok ⟨kind, (c :: r).take n, offset, offset + n, none, []⟩ := by
  unfold Token.lex
  simp only [hpunctuation, hquote, hnumber, hword, Bool.false_eq_true, if_false]

/-- A sign before an atom. -/
theorem scans_sign {rest : Text} (hname : Token.isNameStart (head0 rest) = false)
    (hminus : head0 rest ≠ ch '-') (hspace : isSpace (head0 rest) = false) :
    Scans [ch '-'] [(.sign, [ch '-'], [])] rest := by
  refine scans_token (by decide) fun offset => ?_
  have hkind : Token.wordOrSign (ch '-') rest = (.sign, 1) := by
    unfold Token.wordOrSign
    simp only [if_true, hname, hminus, hspace, decide_false, Bool.or_false, Bool.false_eq_true,
      if_false]
  exact ⟨_, lex_word rfl (by decide) rfl hkind, rfl, rfl⟩

/-- What follows a formula belongs to no token of it. -/
theorem EndsFormula.eq_false {rest : Text} (h : EndsFormula rest) {p : UInt8 → Bool}
    (hspace : p (ch ' ') = false) (hparen : p (ch ')') = false) : p (head0 rest) = false := by
  obtain h | h := h <;> rw [h]
  · exact hspace
  · exact hparen

theorem scans_var (x : Sigil) {rest : Text} (hrest : EndsFormula rest) :
    Scans x.text [(.var, x.text, [])] rest := by
  refine scans_token (by decide) fun offset => ?_
  have hwidth : Token.nameWidth (x.name ++ rest) = x.name.length :=
    (length_takeWhile_append (by decide) _ _).mpr
      ⟨x.name_chars, hrest.eq_false (by decide) (by decide)⟩
  have hfirst : Token.isNameChar (head0 (x.name ++ rest)) = true := by
    obtain ⟨c, r, hname⟩ := List.exists_cons_of_ne_nil x.name_ne_nil
    rw [hname]
    exact x.name_chars c (hname ▸ List.mem_cons_self)
  have hkind : Token.wordOrSign (ch '$') (x.name ++ rest) = (.var, x.name.length + 1) := by
    unfold Token.wordOrSign
    rw [if_neg (by decide), if_pos (by simp [hfirst]), hwidth]
  refine ⟨_, lex_word rfl (by decide) rfl hkind, ?_, rfl⟩
  rw [Token.word, List.take_succ_cons, List.take_left]
  rfl

/-! ### Number literals -/

/-- A digit starts a number and nothing else. -/
theorem digit_starts_number : ∀ c, isDigit c = true →
    isQuote c = false ∧ isSpace c = false ∧ Token.isNameStart c = false ∧ c ≠ ch '-' ∧
      c ∉ of ":,()[]*/+!=<>" :=
  forall_byte (by decide +kernel)

theorem punctuation?_digit {c : UInt8} (hc : isDigit c = true) (d : UInt8) :
    Token.punctuation? c d = none := by
  have hne : ∀ d ∈ of ":,()[]*/+!=<>", c ≠ d := fun d hd heq =>
    (digit_starts_number c hc).2.2.2.2 (heq ▸ hd)
  simp (disch := decide) [Token.punctuation?, hne]

/-- The digits of a literal end where its unit, or what follows, starts. -/
theorem numberWidth_append (n : Literal) {rest : Text} (hdigit : isDigit (head0 rest) = false)
    (hpoint : head0 rest ≠ ch '.') :
    Token.numberWidth (n.numeral ++ rest) = n.numeral.length := by
  have hwidth : ∀ t u : Text, (∀ c ∈ t, isDigit c = true) → isDigit (head0 u) = false →
      ((t ++ u).takeWhile isDigit).length = t.length := fun t u ht hu =>
    (length_takeWhile_append (by decide) t u).mpr ⟨ht, hu⟩
  unfold Token.numberWidth Literal.numeral
  cases hfraction : n.fraction with
  | none =>
    simp only [numeralText, hwidth _ _ n.whole_digits hdigit, List.drop_left]
    match rest with
    | [] | [_] => rfl
    | c :: d :: r => exact if_neg (by simp [show c ≠ ch '.' from hpoint])
  | some f =>
    obtain ⟨hne, hdigits⟩ := n.fraction_digits f hfraction
    obtain ⟨d, f, rfl⟩ := List.exists_cons_of_ne_nil hne
    have hd : isDigit d = true := hdigits d List.mem_cons_self
    have hend : isDigit (ch '.') = false := by decide
    have hwhole := hwidth n.whole (ch '.' :: (d :: f ++ rest)) n.whole_digits hend
    have hrest := hwidth (d :: f) rest hdigits hdigit
    simp only [List.cons_append] at hwhole hrest
    simp only [numeralText, List.append_assoc, List.cons_append, hwhole, List.drop_left, hd,
      decide_true, Bool.and_self, if_true, hrest, List.length_append, List.length_cons]
    omega

theorem lex_number {offset : Nat} {numeral unit rest : Text} {c : UInt8} {r : Text}
    (hc : isDigit c = true) (htext : c :: r = numeral ++ (unit ++ rest))
    (hnumeral : Token.numberWidth (numeral ++ (unit ++ rest)) = numeral.length)
    (hunit : Token.unitWidth (unit ++ rest) = unit.length) :
    Token.lex offset c r =
      .ok ⟨.number, numeral, offset, offset + numeral.length + unit.length, none, unit⟩ := by
  unfold Token.lex
  rw [punctuation?_digit hc]
  simp only [(digit_starts_number c hc).1, hc, Bool.true_or, Bool.false_eq_true, if_false, if_true,
    htext, hnumeral, List.take_left, List.drop_left, hunit]

theorem Literal.exists_digit (n : Literal) : ∃ c t, n.text = c :: t ∧ isDigit c = true := by
  obtain ⟨c, t, hwhole⟩ := List.exists_cons_of_ne_nil n.whole_ne_nil
  have hc : isDigit c = true := n.whole_digits c (hwhole ▸ List.mem_cons_self)
  unfold Literal.text Literal.numeral
  rw [hwhole]
  cases n.fraction with
  | none => exact ⟨c, t ++ n.unit, rfl, hc⟩
  | some f => exact ⟨c, t ++ ch '.' :: f ++ n.unit, rfl, hc⟩

/-- Letters end the digits of a number as what follows a formula does. -/
theorem letter_ends_digits : ∀ c, isLetter c = true → isDigit c = false ∧ c ≠ ch '.' :=
  forall_byte (by decide +kernel)

theorem scans_number (n : Literal) {rest : Text} (hrest : EndsFormula rest) :
    Scans n.text [(.number, n.numeral, n.unit)] rest := by
  obtain ⟨c, t, htext, hc⟩ := n.exists_digit
  rw [htext]
  refine scans_token (digit_starts_number c hc).2.1 fun offset => ?_
  have hsplit : c :: (t ++ rest) = n.numeral ++ (n.unit ++ rest) := by
    rw [← List.append_assoc, ← List.cons_append, ← htext]
    rfl
  have hend : isDigit (head0 (n.unit ++ rest)) = false ∧ head0 (n.unit ++ rest) ≠ ch '.' := by
    cases hunit : n.unit with
    | nil =>
      refine ⟨hrest.eq_false (by decide) (by decide), ?_⟩
      obtain h | h := hrest <;> rw [List.nil_append, h] <;> decide
    | cons d u => exact letter_ends_digits d (n.unit_letters d (hunit ▸ List.mem_cons_self))
  have hunit : Token.unitWidth (n.unit ++ rest) = n.unit.length := by
    refine (length_takeWhile_append (by decide) n.unit rest).mpr
      ⟨fun d hd => by simp [n.unit_letters d hd], ?_⟩
    obtain h | h := hrest <;> rw [h] <;> decide
  refine ⟨_, lex_number hc hsplit (numberWidth_append n hend.1 hend.2) hunit, rfl, ?_⟩
  have hlength := congrArg List.length htext
  rw [Literal.text, List.length_append, List.length_cons] at hlength
  change offset + n.numeral.length + n.unit.length = _
  omega

/-! ### Formulas -/

namespace Formula

/-- An atom starts with nothing that would join a sign before it. -/
theorem head_atom {e : Formula} (he : Level.unary.rank < e.rank) (rest : Text) :
    let c := head0 (e.spelling ++ rest)
    Token.isNameStart c = false ∧ c ≠ ch '-' ∧ isSpace c = false := by
  cases e with
  | number n =>
    obtain ⟨c, t, htext, hc⟩ := n.exists_digit
    obtain ⟨-, hspace, hname, hminus, -⟩ := digit_starts_number c hc
    rw [spelling, htext]
    exact ⟨hname, hminus, hspace⟩
  | var x | paren e => exact ⟨rfl, by simp [spelling, Sigil.text, head0]; decide, rfl⟩
  | negate e | not e => exact absurd he (by simp [rank, Level.rank])
  | binary op l r => exact absurd he (by have := op.level_rank_lt; simp only [rank]; omega)

/-- The spelling of a formula is read as the tokens it was written from. -/
theorem scans {e : Formula} (he : e.Grouped) {rest : Text} (hrest : EndsFormula rest) :
    Scans e.spelling e.words rest := by
  induction e generalizing rest with
  | number n => exact scans_number n hrest
  | var x => exact scans_var x hrest
  | paren e ih =>
    have hinside : Scans e.spelling e.words ([ch ')'] ++ rest) := ih he (.inr rfl)
    exact ((scans_lparen _).append hinside).append (scans_rparen rest)
  | negate e ih =>
    obtain ⟨hatom, he⟩ := he
    obtain ⟨hname, hminus, hspace⟩ := head_atom hatom rest
    exact (scans_sign hname hminus hspace).append (ih he hrest)
  | not e ih =>
    exact (scans_not (e.spelling ++ rest)).append ((scans_space _).append (ih he.2 hrest))
  | binary op l r ihl ihr =>
    obtain ⟨⟨-, hl⟩, -, hr⟩ := he
    have hright : Scans (ch ' ' :: r.spelling) r.words rest :=
      (scans_space _).append (ihr hr hrest)
    have hoperator :=
      (scans_space _).append ((scans_operator op (r.spelling ++ rest)).append hright)
    have hleft : Scans l.spelling l.words
        ([ch ' '] ++ (op.word ++ ch ' ' :: r.spelling) ++ rest) := ihl hl (.inl rfl)
    rw [spelling, List.append_assoc]
    exact hleft.append hoperator

end Formula

end Stylesheet
