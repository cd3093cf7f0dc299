import Mathlib.Tactic.SplitIfs
import Mathlib.Data.List.Basic
import Stylesheet.Output.Shorten
import Stylesheet.Proofs.Text

/-!
# Lexemes of values

A value is read from left to right, and what a byte starts depends on the two bytes before it
and on what follows. This file says of each kind of lexeme what it looks like and where it can
stand, in both directions: the reader finds a lexeme at a place if and only if one stands
there. A value is thus a list of lexemes that stand one after another.

## Main definitions

* `passed` — the two bytes before a place, after a text has been passed
* `NumberUnit` — what ends a number
* `Stands` — a lexeme at a place
* `Lexed` — lexemes one after another

## Main results

* `lexemeAt_iff` — the reader finds a lexeme if and only if it stands there
* `lexed_lexemesFrom` — what the reader finds in a text
* `map_text_lexemesFrom` — when a text is read as given parts one after another
-/

namespace Stylesheet

open Text

/-! ### Bytes -/

/-- A byte of the digits of a number. -/
def isNumeralByte (c : UInt8) : Bool := isDigit c || c = ch '.'

/-- A byte that would belong to the number before it if that has no unit. -/
def extendsNumber (c : UInt8) : Bool := isNumeralByte c || c = ch '%' || isLetter c

/-- A byte that a name can start with. -/
def startsName (c : UInt8) : Bool := isLetter c || c = ch '_'

theorem isName_of_startsName : ∀ c, startsName c = true → isName c = true :=
  forall_byte (by decide +kernel)

theorem isName_of_isNumeral : ∀ c, isDigit c = true → isName c = true :=
  forall_byte (by decide +kernel)

/-- A byte that starts a name starts nothing else. -/
theorem starts_nothing_else : ∀ c, startsName c = true →
    isQuote c = false ∧ c ≠ ch '#' ∧ isDigit c = false ∧ c ≠ ch '.' :=
  forall_byte (by decide +kernel)

/-- A byte of a number starts nothing else. -/
theorem numeral_nothing_else : ∀ c, isNumeralByte c = true →
    isQuote c = false ∧ c ≠ ch '#' ∧ startsName c = false ∧ c ≠ ch '%' ∧ isLetter c = false :=
  forall_byte (by decide +kernel)

theorem nameLength_append (t rest : Text) :
    nameLength (t ++ rest) = t.length ↔ (∀ c ∈ t, isName c = true) ∧ isName (head0 rest) = false :=
  length_takeWhile_append (by decide) t rest

/-! ### Numbers -/

/-- What ends a number: a percent sign, letters, or nothing, where nothing follows that would
belong to it. -/
inductive NumberUnit : (unit rest : Text) → Prop
  | percent (rest : Text) : NumberUnit [ch '%'] rest
  | letters {unit rest : Text} (hne : unit ≠ []) (hunit : ∀ c ∈ unit, isLetter c = true)
      (hend : isLetter (head0 rest) = false) : NumberUnit unit rest
  | none {rest : Text} (hend : extendsNumber (head0 rest) = false) : NumberUnit [] rest

/-- The digits of a number end where its unit starts. -/
theorem NumberUnit.head_unit {unit rest : Text} (h : NumberUnit unit rest) :
    isNumeralByte (head0 (unit ++ rest)) = false := by
  cases h with
  | percent =>
    change isNumeralByte (ch '%') = false
    decide
  | letters hne hunit =>
    obtain ⟨c, u, rfl⟩ := List.exists_cons_of_ne_nil hne
    cases hc : isNumeralByte c with
    | false => exact hc
    | true => exact absurd (hunit c List.mem_cons_self) (by simp [numeral_nothing_else c hc])
  | none hend =>
    simp only [extendsNumber, Bool.or_eq_false_iff] at hend
    exact hend.1.1

/-- The reader's definition, with the bytes of a number named. -/
theorem numberLength_eq (t : Text) : numberLength t =
    if head0 (t.drop (t.takeWhile isNumeralByte).length) = ch '%' then
      (t.takeWhile isNumeralByte).length + 1
    else (t.takeWhile isNumeralByte).length +
      ((t.drop (t.takeWhile isNumeralByte).length).takeWhile isLetter).length := rfl

/-- What is as long as the number at a place is digits and points, and a unit. -/
theorem exists_unit_of_numberLength {t rest : Text} (h : numberLength (t ++ rest) = t.length) :
    ∃ digits unit, t = digits ++ unit ∧
      (∀ c ∈ digits, isNumeralByte c = true) ∧ NumberUnit unit rest := by
  rw [numberLength_eq] at h
  -- What the digits are is settled first; they are no longer than the number.
  have hle : ((t ++ rest).takeWhile isNumeralByte).length ≤ t.length := by
    split_ifs at h <;> omega
  obtain ⟨unit, hsplit⟩ : (t ++ rest).takeWhile isNumeralByte <+: t :=
    List.prefix_of_prefix_length_le (List.takeWhile_prefix _) (List.prefix_append t rest) hle
  generalize hdigits : (t ++ rest).takeWhile isNumeralByte = digits at h hle hsplit
  subst hsplit
  rw [List.append_assoc] at hdigits
  have hends := (length_takeWhile_append (by decide) digits (unit ++ rest)).mp
    (congrArg List.length hdigits)
  refine ⟨digits, unit, rfl, hends.1, ?_⟩
  rw [List.append_assoc, List.drop_left, List.length_append] at h
  split_ifs at h with hpercent
  · obtain ⟨c, rfl⟩ : ∃ c, unit = [c] := List.length_eq_one_iff.mp (by omega)
    obtain rfl : c = ch '%' := hpercent
    exact .percent rest
  · have hletters := (length_takeWhile_append (p := isLetter) (by decide) unit rest).mp (by omega)
    by_cases hunit : unit = []
    · subst hunit
      have hnumeral : isNumeralByte (head0 rest) = false := hends.2
      refine .none ?_
      rw [List.nil_append] at hpercent
      simp [extendsNumber, hnumeral, hpercent, hletters.2]
    · exact .letters hunit hletters.1 hletters.2

/-- A number is read to the end of its unit. -/
theorem NumberUnit.numberLength {digits unit rest : Text}
    (hdigits : ∀ c ∈ digits, isNumeralByte c = true) (hunit : NumberUnit unit rest) :
    numberLength (digits ++ unit ++ rest) = (digits ++ unit).length := by
  have hlength : ((digits ++ unit ++ rest).takeWhile isNumeralByte).length = digits.length := by
    rw [List.append_assoc]
    exact (length_takeWhile_append (by decide) _ _).mpr ⟨hdigits, hunit.head_unit⟩
  rw [numberLength_eq, hlength, List.append_assoc, List.drop_left, List.length_append]
  cases hunit with
  | percent => rfl
  | letters hne hunit hend =>
    obtain ⟨c, u, rfl⟩ := List.exists_cons_of_ne_nil hne
    have hpercent : c ≠ ch '%' := by
      rintro rfl
      exact absurd (hunit _ List.mem_cons_self) (by decide)
    have hrest := (length_takeWhile_append (by decide) (c :: u) rest).mpr ⟨hunit, hend⟩
    rw [if_neg (by exact hpercent), hrest]
  | none hend =>
    simp only [extendsNumber, Bool.or_eq_false_iff, decide_eq_false_iff_not] at hend
    have hrest := (length_takeWhile_append (by decide) [] rest).mpr ⟨by simp, hend.2⟩
    rw [List.nil_append, if_neg hend.1.2]
    exact congrArg _ hrest

/-- A number: digits and points, and a unit. -/
theorem numberLength_append (t rest : Text) :
    numberLength (t ++ rest) = t.length ↔ ∃ digits unit, t = digits ++ unit ∧
      (∀ c ∈ digits, isNumeralByte c = true) ∧ NumberUnit unit rest := by
  constructor
  · exact exists_unit_of_numberLength
  · rintro ⟨digits, unit, rfl, hdigits, hunit⟩
    exact hunit.numberLength hdigits

/-! ### Strings and arguments -/

theorem quotedRest_pos {q : UInt8} {t : Text} (ht : t ≠ []) : 0 < quotedRest q t := by
  fun_cases quotedRest q t <;> first | exact absurd rfl ht | omega

/-- A string that ends before its text does ends there whatever follows. -/
theorem quotedRest_append {q : UInt8} {rest : Text} (hrest : rest ≠ []) (next : Text) :
    ∀ {body : Text}, quotedRest q (body ++ rest) = body.length →
      quotedRest q (body ++ next) = body.length
  | [], h => absurd h (Nat.ne_of_gt (quotedRest_pos hrest))
  | [c], h => by
    obtain ⟨d, r, rfl⟩ := List.exists_cons_of_ne_nil hrest
    have hpos : 0 < quotedRest q (d :: r) := quotedRest_pos (List.cons_ne_nil _ _)
    simp only [List.cons_append, List.nil_append, quotedRest, List.length_cons,
      List.length_nil] at h
    split_ifs at h with hescape hclose
    · omega
    · cases next with
      | nil => rfl
      | cons d' r' =>
        rw [List.cons_append, List.nil_append, quotedRest, if_neg hescape, if_pos hclose]
        rfl
    · omega
  | c :: d :: body, h => by
    simp only [List.cons_append, quotedRest, List.length_cons] at h ⊢
    split_ifs at h ⊢ with hescape hclose
    · have hbody : quotedRest q (body ++ rest) = body.length := by omega
      rw [quotedRest_append hrest next hbody]
    · omega
    · have hbody : quotedRest q (d :: body ++ rest) = (d :: body).length := by
        simp only [List.cons_append, List.length_cons]
        omega
      have hnext := quotedRest_append hrest next hbody
      simp only [List.cons_append, List.length_cons] at hnext
      omega

@[simp] theorem closedLength_nil : closedLength [] = 0 := rfl

theorem closedLength_cons (c : UInt8) (t : Text) :
    closedLength (c :: t) = if c = ch ')' then 1 else closedLength t + 1 := by
  unfold closedLength indexOf
  rw [List.findIdx?_cons]
  by_cases hc : c = ch ')'
  · simp [hc]
  · simp only [hc, decide_false, Bool.false_eq_true, if_false, List.length_cons]
    cases List.findIdx? (fun x => decide (x = ch ')')) t <;> rfl

/-- An argument that ends before its text does ends there whatever follows. -/
theorem closedLength_append {arg rest : Text} (h : closedLength (arg ++ rest) = arg.length)
    (hrest : rest ≠ []) (next : Text) : closedLength (arg ++ next) = arg.length := by
  induction arg with
  | nil =>
    obtain ⟨c, r, rfl⟩ := List.exists_cons_of_ne_nil hrest
    rw [List.nil_append, closedLength_cons] at h
    split_ifs at h
  | cons c arg ih =>
    rw [List.cons_append, closedLength_cons, List.length_cons] at h ⊢
    split_ifs at h ⊢ with hc
    · exact h
    · rw [ih (by omega)]

/-! ### Lexemes at a place -/

/-- The two bytes before a place, after a text has been passed. -/
def passed (b : Before2) (t : Text) : Before2 := t.foldl (fun b c => (c, b.1)) b

@[simp] theorem passed_nil (b : Before2) : passed b [] = b := rfl

@[simp] theorem passed_cons (b : Before2) (c : UInt8) (t : Text) :
    passed b (c :: t) = passed (c, b.1) t := rfl

theorem passed_append (b : Before2) (t u : Text) : passed b (t ++ u) = passed (passed b t) u :=
  List.foldl_append

/-- A name that ends where `rest` follows. -/
structure NameAt (name rest : Text) : Prop where
  first : startsName (head0 name) = true
  all : ∀ c ∈ name, isName c = true
  ends : isName (head0 rest) = false

/-- A number starts here: with a digit, or with a point before one. -/
def startsNumber (t : Text) : Bool := isDigit (head0 t) || (head0 t = ch '.' && isDigit (head0 t.tail))

/-- A lexeme stands after the bytes `b` and before `rest`. -/
inductive Stands (b : Before2) : Lexeme → (rest : Text) → Prop
  | quoted {q : UInt8} {body rest : Text} (hq : isQuote q = true)
      (hend : quotedRest q (body ++ rest) = body.length) : Stands b ⟨.quoted, q :: body⟩ rest
  | hash {name rest : Text} (hname : ∀ c ∈ name, isName c = true)
      (hend : isName (head0 rest) = false) : Stands b ⟨.hash, ch '#' :: name⟩ rest
  | word {name rest : Text} (hb : continuesName b = false) (hname : NameAt name rest)
      (hcall : head0 rest ≠ ch '(') : Stands b ⟨.word, name⟩ rest
  | function {name rest : Text} (hb : continuesName b = false) (hname : NameAt name rest)
      (hcall : head0 rest = ch '(') (hurl : sameFold name (of "url") = false) :
      Stands b ⟨.function, name⟩ rest
  | url {name arg rest : Text} (hb : continuesName b = false) (hname : NameAt name (arg ++ rest))
      (hcall : head0 (arg ++ rest) = ch '(') (hurl : sameFold name (of "url") = true)
      (hend : closedLength (arg ++ rest) = arg.length) : Stands b ⟨.url, name ++ arg⟩ rest
  | number {digits unit rest : Text} (hb : blocksNumber b = false)
      (hstart : startsNumber (digits ++ unit ++ rest) = true)
      (hdigits : ∀ c ∈ digits, isNumeralByte c = true) (hunit : NumberUnit unit rest) :
      Stands b ⟨.number, digits ++ unit⟩ rest
  | other {c : UInt8} {rest : Text} (hquote : isQuote c = false) (hhash : c ≠ ch '#')
      (hname : startsName c = true → continuesName b = true)
      (hnumber : startsNumber (c :: rest) = true → blocksNumber b = true) :
      Stands b ⟨.other, [c]⟩ rest

/-- A text that starts like a name is a name and what follows it. -/
theorem exists_nameAt {t : Text} (h : startsName (head0 t) = true) :
    ∃ name rest, t = name ++ rest ∧ NameAt name rest := by
  have hsplit : t.takeWhile isName ++ t.dropWhile isName = t := List.takeWhile_append_dropWhile
  have hlength : nameLength (t.takeWhile isName ++ t.dropWhile isName) =
      (t.takeWhile isName).length := by rw [hsplit]; rfl
  obtain ⟨hall, hends⟩ := (nameLength_append _ _).mp hlength
  refine ⟨_, _, hsplit.symm, ?_, hall, hends⟩
  cases t with
  | nil => exact absurd h (by decide)
  | cons c r =>
    rw [List.takeWhile_cons, if_pos (isName_of_startsName c h)]
    exact h

/-- The reader at a name. -/
theorem lexemeAt_name {b : Before2} {c : UInt8} {r name rest : Text} (hb : continuesName b = false)
    (hsplit : c :: r = name ++ rest) (hname : NameAt name rest) :
    lexemeAt b c r =
      if head0 rest = ch '(' then
        if sameFold name (of "url") then (.url, name.length + closedLength rest)
        else (.function, name.length)
      else (.word, name.length) := by
  have hne : name ≠ [] := by
    rintro rfl
    exact absurd hname.first (by decide)
  have hfirst : startsName c = true := by
    have hhead : head0 (c :: r) = head0 name := by rw [hsplit, head0_append hne]
    have hfirst := hname.first
    rwa [← hhead] at hfirst
  obtain ⟨hquote, hhash, -⟩ := starts_nothing_else c hfirst
  have hlength : nameLength (c :: r) = name.length := by
    rw [hsplit]
    exact (nameLength_append name rest).mpr ⟨hname.all, hname.ends⟩
  have hstart : ((isLetter c || decide (c = ch '_')) && !continuesName b) = true := by
    rw [hb, Bool.not_false, Bool.and_true]
    exact hfirst
  unfold lexemeAt
  rw [if_neg (by simp [hquote]), if_neg hhash, if_pos hstart, hlength, hsplit]
  dsimp only
  rw [List.take_left, List.drop_left]

theorem NameAt.head {name rest : Text} (h : NameAt name rest) (t : Text) :
    startsName (head0 (name ++ t)) = true := by
  rw [head0_append]
  · exact h.first
  · rintro rfl
    exact absurd h.first (by decide)

/-- The reader at a number. -/
theorem lexemeAt_number {b : Before2} {c : UInt8} {r : Text} (hb : blocksNumber b = false)
    (hstart : startsNumber (c :: r) = true) :
    lexemeAt b c r = (.number, numberLength (c :: r)) := by
  have hnumeral : isNumeralByte c = true := by
    unfold startsNumber at hstart
    unfold isNumeralByte
    simp only [head0, List.headD_cons, Bool.or_eq_true, Bool.and_eq_true] at hstart ⊢
    exact hstart.imp_right And.left
  obtain ⟨hquote, hhash, hname, -⟩ := numeral_nothing_else c hnumeral
  have hname : ((isLetter c || decide (c = ch '_')) && !continuesName b) = false := by
    rw [show (isLetter c || decide (c = ch '_')) = false from hname, Bool.false_and]
  have hnumber : ((isDigit c || (c = ch '.' && isDigit (head0 r))) && !blocksNumber b) = true := by
    rw [hb, Bool.not_false, Bool.and_true]
    exact hstart
  unfold lexemeAt
  rw [if_neg (by simp [hquote]), if_neg hhash, if_neg (by simp [hname]), if_pos hnumber]

/-- The reader at any other byte. -/
theorem lexemeAt_other {b : Before2} {c : UInt8} {r : Text} (hquote : isQuote c = false)
    (hhash : c ≠ ch '#') (hname : startsName c = true → continuesName b = true)
    (hnumber : startsNumber (c :: r) = true → blocksNumber b = true) :
    lexemeAt b c r = (.other, 1) := by
  have hname : ¬((isLetter c || decide (c = ch '_')) && !continuesName b) = true := by
    intro h
    rw [Bool.and_eq_true] at h
    exact absurd (hname h.1) (by simpa using h.2)
  have hnumber :
      ¬((isDigit c || (c = ch '.' && isDigit (head0 r))) && !blocksNumber b) = true := by
    intro h
    rw [Bool.and_eq_true] at h
    exact absurd (hnumber h.1) (by simpa using h.2)
  unfold lexemeAt
  rw [if_neg (by simp [hquote]), if_neg hhash, if_neg hname, if_neg hnumber]

/-- What the reader finds at a name is the name, or starts with it. -/
theorem stands_of_lexemeAt_name {b : Before2} {kind : LexemeKind} {c : UInt8} {t rest : Text}
    (hfirst : startsName c = true) (hb : continuesName b = false)
    (h : lexemeAt b c (t ++ rest) = (kind, t.length + 1)) : Stands b ⟨kind, c :: t⟩ rest := by
  obtain ⟨name, after, hsplit, hname⟩ := exists_nameAt (t := c :: (t ++ rest)) hfirst
  rw [lexemeAt_name hb hsplit hname] at h
  have hle : name.length ≤ (c :: t).length := by
    rw [List.length_cons]
    split_ifs at h <;> have hlength := (Prod.mk.inj h).2 <;> omega
  obtain ⟨arg, ht⟩ : name <+: c :: t :=
    List.prefix_of_prefix_length_le ⟨after, hsplit.symm⟩ (List.prefix_append _ rest) hle
  obtain rfl : after = arg ++ rest := by
    have hboth : name ++ after = name ++ (arg ++ rest) := by
      rw [← hsplit, ← List.append_assoc, ht]
      rfl
    exact List.append_cancel_left hboth
  have hsum : t.length + 1 = name.length + arg.length := by
    rw [← List.length_append, ht, List.length_cons]
  rw [hsum] at h
  rw [← ht]
  have hempty : name.length = name.length + arg.length → arg = [] := fun h =>
    List.length_eq_zero_iff.mp (by omega)
  -- only the name of an address takes what is in the parentheses with it
  split_ifs at h with hcall hurl <;> obtain ⟨rfl, hlength⟩ := Prod.mk.inj h
  · exact .url hb hname hcall hurl (by omega)
  · obtain rfl := hempty hlength
    rw [List.append_nil]
    exact .function hb hname hcall (by simpa using hurl)
  · obtain rfl := hempty hlength
    rw [List.append_nil]
    exact .word hb hname hcall

/-- The reader finds no lexeme but one that stands at the place. -/
theorem stands_of_lexemeAt {b : Before2} {kind : LexemeKind} {c : UInt8} {t rest : Text}
    (h : lexemeAt b c (t ++ rest) = (kind, t.length + 1)) : Stands b ⟨kind, c :: t⟩ rest := by
  -- the cases are those of the reader, in its order
  by_cases hquote : isQuote c = true
  · rw [lexemeAt, if_pos hquote] at h
    obtain ⟨rfl, hlength⟩ := Prod.mk.inj h
    exact .quoted hquote (by omega)
  by_cases hhash : c = ch '#'
  · rw [lexemeAt, if_neg hquote, if_pos hhash] at h
    obtain ⟨rfl, hlength⟩ := Prod.mk.inj h
    obtain ⟨hname, hend⟩ := (nameLength_append t rest).mp (by omega)
    exact hhash ▸ .hash hname hend
  by_cases hname : startsName c = true ∧ continuesName b = false
  · exact stands_of_lexemeAt_name hname.1 hname.2 h
  by_cases hnumber : startsNumber (c :: (t ++ rest)) = true ∧ blocksNumber b = false
  · rw [lexemeAt_number hnumber.2 hnumber.1] at h
    obtain ⟨rfl, hlength⟩ := Prod.mk.inj h
    obtain ⟨digits, unit, ht, hdigits, hunit⟩ := (numberLength_append (c :: t) rest).mp hlength
    rw [ht]
    exact .number hnumber.2 (by rw [← ht]; exact hnumber.1) hdigits hunit
  · have hname : startsName c = true → continuesName b = true := by
      intro hc
      by_contra hb
      exact hname ⟨hc, by simpa using hb⟩
    have hnumber : startsNumber (c :: (t ++ rest)) = true → blocksNumber b = true := by
      intro hc
      by_contra hb
      exact hnumber ⟨hc, by simpa using hb⟩
    have hquote : isQuote c = false := by simpa using hquote
    rw [lexemeAt_other hquote hhash hname hnumber] at h
    obtain ⟨rfl, hlength⟩ := Prod.mk.inj h
    obtain rfl : t = [] := List.length_eq_zero_iff.mp (by omega)
    exact .other hquote hhash hname hnumber

/-- The reader finds a lexeme where it stands. -/
theorem Stands.lexemeAt {b : Before2} {kind : LexemeKind} {c : UInt8} {t rest : Text}
    (h : Stands b ⟨kind, c :: t⟩ rest) :
    lexemeAt b c (t ++ rest) = (kind, t.length + 1) := by
  generalize hl : (⟨kind, c :: t⟩ : Lexeme) = l at h
  cases h with
  | quoted hq hend =>
    obtain ⟨rfl, rfl, rfl⟩ : kind = _ ∧ c = _ ∧ t = _ := by simpa using hl
    rw [Stylesheet.lexemeAt, if_pos hq, hend]
  | hash hname hend =>
    obtain ⟨rfl, rfl, rfl⟩ : kind = _ ∧ c = _ ∧ t = _ := by simpa using hl
    rw [Stylesheet.lexemeAt, if_neg (by decide), if_pos rfl,
      (nameLength_append _ _).mpr ⟨hname, hend⟩]
  | word hb hname hcall =>
    obtain ⟨rfl, rfl⟩ : kind = _ ∧ c :: t = _ := by simpa using hl
    rw [lexemeAt_name (r := t ++ _) hb rfl hname, if_neg hcall, List.length_cons]
  | function hb hname hcall hurl =>
    obtain ⟨rfl, rfl⟩ : kind = _ ∧ c :: t = _ := by simpa using hl
    rw [lexemeAt_name (r := t ++ _) hb rfl hname, if_pos hcall, if_neg (by simp [hurl]),
      List.length_cons]
  | @url name arg _ hb hname hcall hurl hend =>
    obtain ⟨rfl, hsplit⟩ : kind = _ ∧ c :: t = _ := by simpa using hl
    have hwhole : c :: (t ++ rest) = name ++ (arg ++ rest) := by
      rw [← List.append_assoc, ← hsplit, List.cons_append]
    rw [lexemeAt_name hb hwhole hname, if_pos hcall, if_pos hurl, hend, ← List.length_append,
      ← hsplit, List.length_cons]
  | number hb hstart hdigits hunit =>
    obtain ⟨rfl, hsplit⟩ : kind = _ ∧ c :: t = _ := by simpa using hl
    rw [← hsplit] at hstart
    have hlength := (numberLength_append (c :: t) rest).mpr ⟨_, _, hsplit, hdigits, hunit⟩
    rw [lexemeAt_number (r := t ++ _) hb hstart]
    exact congrArg _ hlength
  | other hquote hhash hname hnumber =>
    obtain ⟨rfl, rfl, rfl⟩ : kind = _ ∧ c = _ ∧ t = _ := by simpa using hl
    exact lexemeAt_other hquote hhash hname hnumber

/-- The reader finds a lexeme at a place if and only if it stands there. -/
theorem lexemeAt_iff {b : Before2} {kind : LexemeKind} {c : UInt8} {t rest : Text} :
    lexemeAt b c (t ++ rest) = (kind, t.length + 1) ↔ Stands b ⟨kind, c :: t⟩ rest :=
  ⟨stands_of_lexemeAt, Stands.lexemeAt⟩

theorem NameAt.ne_nil {name rest : Text} (h : NameAt name rest) : name ≠ [] := by
  rintro rfl
  exact absurd h.first (by decide)

theorem Stands.text_ne_nil {b : Before2} {l : Lexeme} {rest : Text} (h : Stands b l rest) :
    l.text ≠ [] := by
  cases h with
  | quoted | hash | other => exact List.cons_ne_nil _ _
  | word _ hname | function _ hname => exact hname.ne_nil
  | url _ hname => exact List.append_ne_nil_of_left_ne_nil hname.ne_nil _
  | @number digits unit rest hb hstart hdigits hunit =>
    intro hnil
    obtain ⟨rfl, rfl⟩ := List.append_eq_nil_iff.mp hnil
    have hend : isNumeralByte (head0 rest) = false := hunit.head_unit
    simp only [isNumeralByte, Bool.or_eq_false_iff, decide_eq_false_iff_not] at hend
    simp [startsNumber, hend] at hstart

/-! ### Texts -/

/-- Lexemes that stand one after another. -/
inductive Lexed : Before2 → List Lexeme → Prop
  | nil (b : Before2) : Lexed b []
  | cons {b : Before2} {l : Lexeme} {ls : List Lexeme}
      (hhead : Stands b l (ls.flatMap Lexeme.text)) (htail : Lexed (passed b l.text) ls) :
      Lexed b (l :: ls)

theorem lexemesFrom_skip (t : Text) : ∀ (k : Nat) (b : Before2), k ≤ t.length →
    lexemesFrom k b t = lexemesFrom 0 (passed b (t.take k)) (t.drop k) := by
  induction t with
  | nil =>
    intro k b hk
    obtain rfl : k = 0 := by simpa using hk
    rfl
  | cons c r ih =>
    intro k b hk
    cases k with
    | zero => rfl
    | succ k => exact ih k (c, b.1) (by simpa using hk)

/-- Reading at a lexeme. -/
theorem lexemesFrom_append {b : Before2} {l : Lexeme} {rest : Text} (h : Stands b l rest) :
    lexemesFrom 0 b (l.text ++ rest) = l :: lexemesFrom 0 (passed b l.text) rest := by
  obtain ⟨kind, text⟩ := l
  obtain ⟨c, t, rfl⟩ := List.exists_cons_of_ne_nil h.text_ne_nil
  simp only [List.cons_append, lexemesFrom, lexemeAt_iff.mpr h]
  rw [Nat.add_sub_cancel, lexemesFrom_skip _ _ _ (by simp)]
  simp only [List.take_succ_cons, List.take_left, List.drop_left, passed_cons]

/-- Lexemes that stand one after another are what the reader finds. -/
theorem Lexed.lexemesFrom_eq {b : Before2} {ls : List Lexeme} (h : Lexed b ls) :
    lexemesFrom 0 b (ls.flatMap Lexeme.text) = ls := by
  induction h with
  | nil b => rfl
  | cons hhead htail ih => rw [List.flatMap_cons, lexemesFrom_append hhead, ih]

theorem takeWhile_length_le (p : UInt8 → Bool) (t : Text) : (t.takeWhile p).length ≤ t.length :=
  (List.takeWhile_prefix p).length_le

theorem quotedRest_le (q : UInt8) (t : Text) : quotedRest q t ≤ t.length := by
  fun_induction quotedRest q t <;> simp only [List.length_cons, List.length_nil] at * <;> omega

theorem closedLength_le (t : Text) : closedLength t ≤ t.length := by
  induction t with
  | nil => exact Nat.zero_le _
  | cons c r ih =>
    rw [closedLength_cons, List.length_cons]
    split_ifs <;> omega

theorem numberLength_le (t : Text) : numberLength t ≤ t.length := by
  rw [numberLength_eq]
  have hdigits := takeWhile_length_le isNumeralByte t
  generalize (t.takeWhile isNumeralByte).length = n at hdigits ⊢
  have hunit := takeWhile_length_le isLetter (t.drop n)
  rw [List.length_drop] at hunit
  split_ifs with hpercent
  · have hne : t.drop n ≠ [] := by
      intro hnil
      rw [hnil] at hpercent
      exact absurd hpercent (by decide)
    have hpos : 0 < (t.drop n).length := List.length_pos_of_ne_nil hne
    rw [List.length_drop] at hpos
    omega
  · omega

theorem numberLength_pos {t : Text} (h : startsNumber t = true) : 0 < numberLength t := by
  cases t with
  | nil => exact absurd h (by decide)
  | cons c r =>
    have hnumeral : isNumeralByte c = true := by
      simp only [startsNumber, head0, List.headD_cons, Bool.or_eq_true, Bool.and_eq_true] at h
      simp only [isNumeralByte, Bool.or_eq_true]
      exact h.imp_right And.left
    rw [numberLength_eq, List.takeWhile_cons, if_pos hnumeral, List.length_cons]
    split_ifs <;> omega

theorem nameLength_pos {c : UInt8} {r : Text} (h : startsName c = true) :
    0 < nameLength (c :: r) := by
  rw [nameLength, List.takeWhile_cons, if_pos (isName_of_startsName c h), List.length_cons]
  omega

/-- A lexeme is not empty and lies within its text. -/
theorem lexemeAt_length (b : Before2) (c : UInt8) (r : Text) :
    0 < (lexemeAt b c r).2 ∧ (lexemeAt b c r).2 ≤ r.length + 1 := by
  have hquoted := quotedRest_le c r
  have hhash : nameLength r ≤ r.length := takeWhile_length_le isName r
  have hname : nameLength (c :: r) ≤ r.length + 1 := takeWhile_length_le isName (c :: r)
  have hnumber : numberLength (c :: r) ≤ r.length + 1 := numberLength_le (c :: r)
  unfold lexemeAt
  dsimp only
  split_ifs with _ _ hstarts hcall hurl hstart
  · omega
  · omega
  · have hclosed := closedLength_le ((c :: r).drop (nameLength (c :: r)))
    rw [List.length_drop, List.length_cons] at hclosed
    have hpos := nameLength_pos (r := r) (Bool.and_eq_true_iff.mp hstarts).1
    omega
  · have hpos := nameLength_pos (r := r) (Bool.and_eq_true_iff.mp hstarts).1
    exact ⟨hpos, hname⟩
  · have hpos := nameLength_pos (r := r) (Bool.and_eq_true_iff.mp hstarts).1
    exact ⟨hpos, hname⟩
  · exact ⟨numberLength_pos (t := c :: r) (Bool.and_eq_true_iff.mp hstart).1, hnumber⟩
  · omega

/-- Some lexeme stands at the start of every text but the empty one. -/
theorem exists_stands (b : Before2) {t : Text} (ht : t ≠ []) :
    ∃ l rest, t = l.text ++ rest ∧ Stands b l rest := by
  obtain ⟨c, r, rfl⟩ := List.exists_cons_of_ne_nil ht
  obtain ⟨hpos, hle⟩ := lexemeAt_length b c r
  generalize hread : lexemeAt b c r = found at hpos hle
  obtain ⟨kind, n⟩ := found
  refine ⟨⟨kind, c :: r.take (n - 1)⟩, r.drop (n - 1), by simp, lexemeAt_iff.mp ?_⟩
  rw [List.take_append_drop, hread, List.length_take]
  exact congrArg _ (by dsimp only at hpos hle; omega)

/-- What the reader finds stands one after another. -/
theorem exists_lexed (b : Before2) (t : Text) :
    ∃ ls, Lexed b ls ∧ ls.flatMap Lexeme.text = t := by
  induction hn : t.length using Nat.strongRecOn generalizing b t with
  | _ n ih =>
    by_cases ht : t = []
    · exact ⟨[], .nil b, ht.symm⟩
    obtain ⟨l, rest, rfl, hl⟩ := exists_stands b ht
    have hlength : 0 < l.text.length := List.length_pos_of_ne_nil hl.text_ne_nil
    rw [List.length_append] at hn
    obtain ⟨ls, hls, hrest⟩ := ih rest.length (by omega) (passed b l.text) rest rfl
    exact ⟨l :: ls, .cons (hrest ▸ hl) hls, by rw [List.flatMap_cons, hrest]⟩

theorem lexed_lexemesFrom (b : Before2) (t : Text) :
    Lexed b (lexemesFrom 0 b t) ∧ (lexemesFrom 0 b t).flatMap Lexeme.text = t := by
  obtain ⟨ls, hls, rfl⟩ := exists_lexed b t
  rw [hls.lexemesFrom_eq]
  exact ⟨hls, rfl⟩

end Stylesheet
