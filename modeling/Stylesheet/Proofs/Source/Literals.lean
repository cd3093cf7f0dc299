import Stylesheet.Expression.Parser
import Stylesheet.Output.Shorten
import Stylesheet.Proofs.Source.Chunks
import Stylesheet.Source.Normalize
import Stylesheet.Value

/-!
# Quoted literals

A quoted literal passes through five readers on its way from the source to the output: the
normalizer, the pass that finds blocks, the reader of expressions, the reader of values to
shorten, and the one that restores private characters. They do not agree on what a backslash
escapes. This file shows what each makes of a literal as the normalizer delimits it.

Three of them take a backslash to escape whatever follows it, and so end the literal where
the normalizer does. The reader of expressions takes it to escape the quotation mark alone;
it can miss the end of a literal, but it never ends one early, and what it reads is written
back as it was.

## Main definitions

* `IsLiteral` — a text that the normalizer takes for one string
* `Closing`, `Guarded` — what follows the opening mark of a literal
* `Interpolated` — there is a complete interpolation in a text

## Main results

* `IsLiteral.protectText` — a literal with its structural bytes protected is a literal
* `restore_protectText` — restoring undoes protecting
* `Scan.run_literal` — the pass that finds blocks goes over a literal as over nothing
* `parse_literal` — a literal is read as an expression for itself, or as none
* `Style.shorten_literal` — a literal is not shortened
-/

namespace Stylesheet

open Text

/-! ### Literals -/

/-- A text that the normalizer takes for one string: a quotation mark, and all that is up to
the one that closes it. -/
def IsLiteral (w : Text) : Prop :=
  isQuote (head0 w) = true ∧ stringRest? (head0 w) (w.drop 1) = some (w.length - 1)

instance (w : Text) : Decidable (IsLiteral w) := inferInstanceAs (Decidable (_ ∧ _))

/-- What follows the opening mark `q` of a literal: bytes, each backslash with the byte it
escapes, up to a mark `q`. A line ends only if its end is escaped. -/
inductive Closing (q : UInt8) : Text → Prop
  | close : Closing q [q]
  | escape {d : UInt8} {r : Text} (hr : Closing q r) : Closing q (ch '\\' :: d :: r)
  | byte {c : UInt8} {r : Text} (hescape : c ≠ ch '\\') (hquote : c ≠ q) (hline : c ≠ ch '\n')
      (hr : Closing q r) : Closing q (c :: r)

theorem ne_backslash_of_isQuote {q : UInt8} (hq : isQuote q = true) : q ≠ ch '\\' := by
  rintro rfl
  exact absurd hq (by decide)

theorem Closing.ne_nil {q : UInt8} {r : Text} (h : Closing q r) : r ≠ [] := by
  cases h <;> exact List.cons_ne_nil _ _

/-- A literal ends in its quotation mark. -/
theorem Closing.exists_concat {q : UInt8} {r : Text} (h : Closing q r) : ∃ t, r = t ++ [q] := by
  induction h with
  | close => exact ⟨[], rfl⟩
  | escape _ ih =>
    obtain ⟨t, rfl⟩ := ih
    exact ⟨_ :: _ :: t, rfl⟩
  | byte _ _ _ _ ih =>
    obtain ⟨t, rfl⟩ := ih
    exact ⟨_ :: t, rfl⟩

/-- A string is found up to the mark that closes it. -/
theorem closing_take_of_stringRest? {q : UInt8} {r : Text} {n : Nat}
    (h : stringRest? q r = some n) : Closing q (r.take n) := by
  fun_induction stringRest? q r generalizing n with
  | case1 => cases h
  | case2 =>
    obtain rfl := Option.some.inj h
    exact .close
  | case3 => cases h
  | case4 d r ih =>
    obtain ⟨m, hm, rfl⟩ := Option.map_eq_some_iff.mp h
    exact .escape (ih hm)
  | case5 d r hescape =>
    obtain rfl := Option.some.inj h
    exact .close
  | case6 => cases h
  | case7 c d r hescape hquote hline ih =>
    obtain ⟨m, hm, rfl⟩ := Option.map_eq_some_iff.mp h
    exact .byte hescape hquote hline (ih hm)

theorem closing_of_stringRest? {q : UInt8} {r : Text} (h : stringRest? q r = some r.length) :
    Closing q r := by
  simpa using closing_take_of_stringRest? h

/-- The end of a literal is found whatever follows it. -/
theorem Closing.stringRest? {q : UInt8} (hq : isQuote q = true) {r : Text} (h : Closing q r)
    (rest : Text) : stringRest? q (r ++ rest) = some r.length := by
  induction h with
  | close =>
    cases rest with
    | nil => simp [Stylesheet.stringRest?]
    | cons d rest => simp [Stylesheet.stringRest?, ne_backslash_of_isQuote hq]
  | escape hr ih => simp [Stylesheet.stringRest?, ih]
  | @byte c r hescape hquote hline hr ih =>
    obtain ⟨d, r, rfl⟩ := List.exists_cons_of_ne_nil hr.ne_nil
    rw [List.cons_append] at ih
    simp [Stylesheet.stringRest?, hescape, hquote, hline, ih]

theorem isLiteral_iff {w : Text} :
    IsLiteral w ↔ ∃ q r, w = q :: r ∧ isQuote q = true ∧ Closing q r := by
  constructor
  · rintro ⟨hq, hrest⟩
    cases w with
    | nil => exact absurd hq (by decide)
    | cons q r => exact ⟨q, r, rfl, hq, closing_of_stringRest? hrest⟩
  · rintro ⟨q, r, rfl, hq, hr⟩
    have hrest := hr.stringRest? hq []
    rw [List.append_nil] at hrest
    exact ⟨hq, hrest⟩

/-! ### Private characters -/

/-- There is a complete interpolation in the text. -/
def Interpolated (w : Text) : Prop :=
  ∃ a b c : Text, w = a ++ [ch '#', ch '\x7b'] ++ b ++ [ch '\x7d'] ++ c

theorem interpolation?_eq_none {a w : Text} (hw : ¬Interpolated (a ++ w)) :
    interpolation? w = none := by
  unfold interpolation?
  split_ifs with hstarts
  · refine Option.map_eq_none_iff.mpr (Option.eq_none_iff_forall_ne_some.mpr fun n hn => hw ?_)
    obtain ⟨r, rfl⟩ := List.isPrefixOf_iff_prefix.mp hstarts
    have hclose : ch '\x7d' ∈ [ch '#', ch '\x7b'] ++ r := by
      obtain ⟨hi, hat, _⟩ := List.findIdx?_eq_some_iff_getElem.mp hn
      exact of_decide_eq_true hat ▸ List.getElem_mem hi
    have hr : ch '\x7d' ∈ r := (List.mem_append.mp hclose).resolve_left (by decide)
    obtain ⟨b, c, rfl⟩ := List.append_of_mem hr
    exact ⟨a, b, c, by simp⟩
  · rfl

/-- Where nothing is interpolated, every structural byte of a string is protected. -/
theorem map_fst_protectFrom {w : Text} {a : Text} (hw : ¬Interpolated (a ++ w)) (i : Nat) :
    (protectFrom 0 i w).map (·.1) = protectText w := by
  induction w generalizing a i with
  | nil => rfl
  | cons c r ih =>
    have hr : ¬Interpolated ((a ++ [c]) ++ r) := by simpa using hw
    rw [protectFrom, interpolation?_eq_none hw]
    dsimp only
    rw [List.map_append, ih hr, List.map_map]
    exact congrArg (· ++ protectText r) (List.map_id _)

/-- A byte is kept, or it is structural and becomes a private character. -/
theorem protectByte_cases (c : UInt8) :
    (protectByte c = [c] ∧ privateByte? c = none) ∨
      ∃ b, protectByte c = [0xEE, 0x80, b] ∧ 0x80 ≤ b ∧ privateByte? b = none ∧
        publicByte? b = some c := by
  have hall : ∀ n < 256, (protectByte (.ofNat n) = [.ofNat n] ∧ privateByte? (.ofNat n) = none) ∨
      ∃ b ∈ [0x80, 0x81, 0x82, 0x83, 0x84, 0x85], protectByte (.ofNat n) = [0xEE, 0x80, b] ∧
        0x80 ≤ b ∧ privateByte? b = none ∧ publicByte? b = some (.ofNat n) := by decide +kernel
  have hc := hall c.toNat c.toNat_lt
  rw [UInt8.ofNat_toNat] at hc
  exact hc.imp_right fun ⟨b, _, hb⟩ => ⟨b, hb⟩

theorem protectText_cons (c : UInt8) (r : Text) :
    protectText (c :: r) = protectByte c ++ protectText r := rfl

/-- The first byte of a protected text is the first of the text, or starts a private character. -/
theorem exists_of_protectText_eq_cons {w u : Text} {c : UInt8} (h : protectText w = c :: u) :
    ∃ d r, w = d :: r ∧ (c = d ∧ u = protectText r ∨ c = 0xEE) := by
  cases w with
  | nil => cases h
  | cons d r =>
    refine ⟨d, r, rfl, ?_⟩
    rw [protectText_cons] at h
    rcases protectByte_cases d with ⟨hd, -⟩ | ⟨b, hd, -⟩
    · rw [hd, List.singleton_append, List.cons.injEq] at h
      exact .inl ⟨h.1.symm, h.2.symm⟩
    · rw [hd, List.cons_append, List.cons.injEq] at h
      exact .inr h.1.symm

/-- No structural byte is left in a protected text. -/
theorem privateByte?_of_mem_protectText {w : Text} {c : UInt8} (hc : c ∈ protectText w) :
    privateByte? c = none := by
  obtain ⟨d, -, hc⟩ := List.mem_flatMap.mp hc
  rcases protectByte_cases d with ⟨hd, hnone⟩ | ⟨b, hd, -, hnone, -⟩
  · rw [hd] at hc
    exact List.mem_singleton.mp hc ▸ hnone
  · rw [hd] at hc
    simp only [List.mem_cons, List.not_mem_nil, or_false] at hc
    rcases hc with rfl | rfl | rfl
    · decide
    · decide
    · exact hnone

theorem ne_of_high {c d : UInt8} (hc : 0x80 ≤ c) (hd : d < 0x80) : c ≠ d :=
  fun h => UInt8.lt_irrefl d (UInt8.lt_of_lt_of_le hd (h ▸ hc))

theorem isQuote_cases {q : UInt8} (hq : isQuote q = true) : q = ch '"' ∨ q = ch '\'' := by
  simpa [isQuote] using hq

theorem ascii_of_isQuote {q : UInt8} (hq : isQuote q = true) : q < 0x80 := by
  rcases isQuote_cases hq with rfl | rfl <;> decide

/-- Bytes outside ASCII end neither literals nor lines. -/
theorem Closing.high {q c : UInt8} {r : Text} (hq : isQuote q = true) (hr : Closing q r)
    (hc : 0x80 ≤ c) : Closing q (c :: r) :=
  .byte (ne_of_high hc (by decide)) (ne_of_high hc (ascii_of_isQuote hq))
    (ne_of_high hc (by decide)) hr

/-- Protecting a literal leaves its end where it is: a byte that is escaped takes one byte of
its private character with it, and the others end nothing. -/
theorem Closing.protectText {q : UInt8} (hq : isQuote q = true) {r : Text} (h : Closing q r) :
    Closing q (protectText r) := by
  induction h with
  | close =>
    rcases isQuote_cases hq with rfl | rfl
    · exact .close
    · exact .close
  | @escape d r hr ih =>
    have hbackslash : protectByte (ch '\\') = [ch '\\'] := by decide
    rw [protectText_cons, protectText_cons, hbackslash, List.singleton_append]
    rcases protectByte_cases d with ⟨hd, -⟩ | ⟨b, hd, hb, -⟩
    · rw [hd]
      exact .escape ih
    · -- the first byte of the private character is escaped, and the others end nothing
      rw [hd]
      exact .escape ((ih.high hq hb).high hq (by decide))
  | @byte c r hescape hquote hline hr ih =>
    rw [protectText_cons]
    rcases protectByte_cases c with ⟨hc, -⟩ | ⟨b, hc, hb, -⟩
    · rw [hc]
      exact .byte hescape hquote hline ih
    · rw [hc]
      exact ((ih.high hq hb).high hq (by decide)).high hq (by decide)

theorem IsLiteral.protectText {w : Text} (hw : IsLiteral w) : IsLiteral (protectText w) := by
  obtain ⟨q, r, rfl, hq, hr⟩ := isLiteral_iff.mp hw
  refine isLiteral_iff.mpr ⟨q, Stylesheet.protectText r, ?_, hq, hr.protectText hq⟩
  rcases isQuote_cases hq with rfl | rfl <;> rfl

/-- None of the characters in the text are private. -/
def Public (w : Text) : Prop :=
  ∀ c ∈ [0x80, 0x81, 0x82, 0x83, 0x84, 0x85], ¬[0xEE, 0x80, c] <:+: w

instance (w : Text) : Decidable (Public w) := inferInstanceAs (Decidable (∀ _ ∈ _, _))

theorem Public.publicByte? {w : Text} (hw : Public w) {c : UInt8} (hc : [0xEE, 0x80, c] <:+: w) :
    publicByte? c = none := by
  have hall : ∀ n < 256, UInt8.ofNat n ∉ [0x80, 0x81, 0x82, 0x83, 0x84, 0x85] →
      Stylesheet.publicByte? (.ofNat n) = none := by decide +kernel
  have hnone := hall c.toNat c.toNat_lt
  rw [UInt8.ofNat_toNat] at hnone
  exact hnone fun hmem => hw c hmem hc

theorem restore_cons_eq {c : UInt8} {u : Text}
    (h : ∀ d t, c = 0xEE → u = 0x80 :: d :: t → publicByte? d = none) :
    restore (c :: u) = c :: restore u := by
  match u with
  | [] => rfl
  | [d] => rfl
  | b :: d :: u =>
    rw [restore]
    split_ifs with hprivate
    · simp only [Bool.and_eq_true, decide_eq_true_eq] at hprivate
      rw [h d u hprivate.1 (by rw [hprivate.2])]
    · rfl

/-- Restoring undoes protecting where no private character stood before. Two bytes of the
text and one of a private character after them are not taken for one, since its first byte
is none of the last ones. -/
theorem restore_protectText {w : Text} (hw : Public w) : restore (protectText w) = w := by
  induction w with
  | nil => rfl
  | cons c r ih =>
    have hr : Public r := fun d hd hmem => hw d hd (hmem.trans (List.suffix_cons c r).isInfix)
    rw [protectText_cons]
    rcases protectByte_cases c with ⟨hc, -⟩ | ⟨b, hc, -, -, hb⟩
    · rw [hc, List.singleton_append, restore_cons_eq, ih hr]
      rintro d t rfl ht
      -- `EE 80` in the protected text is `EE 80` in the text, and the byte after it is a byte of
      -- the text too, or the first of a private character
      obtain ⟨_, r, rfl, ⟨rfl, hnext⟩ | hlead⟩ := exists_of_protectText_eq_cons ht
      · obtain ⟨_, r, rfl, ⟨rfl, -⟩ | rfl⟩ := exists_of_protectText_eq_cons hnext.symm
        · exact hw.publicByte? (List.prefix_append [0xEE, 0x80, d] r).isInfix
        · decide
      · exact absurd hlead (by decide)
    · rw [hc, List.cons_append, List.cons_append, List.cons_append, List.nil_append, restore,
        if_pos (by decide), hb]
      exact congrArg (c :: ·) (ih hr)

/-! ### The pass that finds blocks -/

namespace Scan

variable {src : Text} {s : Scan} {i : Nat}

/-- From its opening mark on a literal is passed up to its end. -/
theorem run_closing {q : UInt8} (hq : isQuote q = true) {r : Text} (hr : Closing q r)
    (hquote : s.quote = none) (hescaped : s.escaped = false) (j : Nat) (rest : Text) :
    run src { s with quote := some (q, j) } i (r ++ rest) = run src s (i + r.length) rest := by
  -- the quote stays open up to its mark, and a backslash takes the next byte with it
  induction hr generalizing i with
  | close =>
    refine run_cons_silent ?_
    have hs : { s with quote := none, escaped := false } = s := by
      cases s
      simp_all
    simp [step, hescaped, ne_backslash_of_isQuote hq, hs]
  | @escape d r hr ih =>
    have hfirst : step src { s with quote := some (q, j) } i (ch '\\') =
        .ok ({ s with quote := some (q, j), escaped := true }, []) := by simp [step, hescaped]
    have hsecond : step src { s with quote := some (q, j), escaped := true } (i + 1) d =
        .ok ({ s with quote := some (q, j) }, []) := by simp [step, hescaped]
    rw [List.cons_append, List.cons_append, run_cons_silent hfirst, run_cons_silent hsecond, ih,
      List.length_cons, List.length_cons]
    congr 1
    omega
  | @byte c r hescape hquote' _ hr ih =>
    have hstep : step src { s with quote := some (q, j) } i c =
        .ok ({ s with quote := some (q, j) }, []) := by simp [step, hescaped, hescape, hquote']
    rw [List.cons_append, run_cons_silent hstep, ih, List.length_cons]
    congr 1
    omega

/-- A literal leaves no trace, wherever it stands. -/
theorem run_literal {w : Text} (hw : IsLiteral w) (hquote : s.quote = none)
    (hescaped : s.escaped = false) (rest : Text) :
    run src s i (w ++ rest) = run src s (i + w.length) rest := by
  obtain ⟨q, r, rfl, hq, hr⟩ := isLiteral_iff.mp hw
  have hstep : step src s i q = .ok ({ s with quote := some (q, i) }, []) := by
    simp [step, hquote, hq]
  rw [List.cons_append, run_cons_silent hstep, run_closing hq hr hquote hescaped, List.length_cons]
  congr 1
  omega

end Scan

/-! ### Expressions -/

/-- Every mark `q` but the last stands right after a backslash. -/
inductive Guarded (q : UInt8) : Text → Prop
  | close : Guarded q [q]
  | mark {r : Text} (hr : Guarded q r) : Guarded q (ch '\\' :: q :: r)
  | byte {c : UInt8} {r : Text} (hc : c ≠ q) (hr : Guarded q r) : Guarded q (c :: r)

theorem Closing.guarded {q : UInt8} (hq : isQuote q = true) {r : Text} (h : Closing q r) :
    Guarded q r := by
  induction h with
  | close => exact .close
  | @escape d r hr ih =>
    by_cases hd : d = q
    · subst hd
      exact .mark ih
    · exact .byte (ne_backslash_of_isQuote hq).symm (.byte hd ih)
  | byte hescape hquote hline hr ih => exact .byte hquote ih

theorem Guarded.ne_nil {q : UInt8} {r : Text} (h : Guarded q r) : r ≠ [] := by
  cases h <;> exact List.cons_ne_nil _ _

/-- Reading a string takes the whole of a literal, or misses its end. What it takes is
written with a backslash before every mark again. -/
theorem Guarded.stringBody {q : UInt8} (hq : isQuote q = true) {r : Text} (h : Guarded q r)
    (width : Nat) (before : Text) :
    Token.stringBody q width before r = none ∨
      ∃ t, Token.stringBody q width before r = some (before.reverse ++ t, width + r.length) ∧
        replace [q] [ch '\\', q] t ++ [q] = r := by
  -- what was read before is kept in reverse, and the marks in it without their backslashes
  induction h generalizing width before with
  | close => exact .inr ⟨[], by simp [Token.stringBody], rfl⟩
  | @mark r hr ih =>
    refine (ih (width + 2) (q :: before)).imp (fun hnone => ?_) fun ⟨t, ht, hr⟩ => ?_
    · simpa [Token.stringBody] using hnone
    · refine ⟨q :: t, ?_, ?_⟩
      · simp [Token.stringBody, ht]
        omega
      · rw [replace_singleton] at hr ⊢
        simp [← hr]
  | @byte c r hc hr ih =>
    obtain ⟨d, r', rfl⟩ := List.exists_cons_of_ne_nil hr.ne_nil
    by_cases hmark : c = ch '\\' ∧ d = q
    · -- The last mark is taken for an escaped one.
      obtain ⟨rfl, rfl⟩ := hmark
      left
      cases hr with
      | close => simp [Token.stringBody]
      | mark => exact absurd rfl (ne_backslash_of_isQuote hq)
      | byte hd => exact absurd rfl hd
    · refine (ih (width + 1) (c :: before)).imp (fun hnone => ?_) fun ⟨t, ht, hr⟩ => ?_
      · simpa [Token.stringBody, hmark, hc] using hnone
      · refine ⟨c :: t, ?_, ?_⟩
        · simp [Token.stringBody, hmark, hc, ht]
          omega
        · rw [replace_singleton] at hr ⊢
          simp [← hr, hc]

/-- The tree of a string alone. -/
theorem Expr.read_string (source t : Text) (start stop n : Nat) (q : Char) :
    Expr.read source [⟨.string, t, start, stop, some q, []⟩, Token.endAt n] =
      .constant (.string t (some q)) := rfl

/-- The token that starts with a quote is the string up to its end. -/
theorem lex_quote {q : UInt8} (hq : isQuote q = true) (r : Text) :
    Token.lex 0 q r = (Token.stringBody q 1 [] r).elim (.error (.unterminatedString 0))
      fun p => .ok ⟨.string, p.1, 0, 0 + p.2, some (Char.ofUInt8 q), []⟩ := by
  have hpunctuation (d : UInt8) : Token.punctuation? q d = none := by
    rcases isQuote_cases hq with rfl | rfl <;> rfl
  rw [Token.lex, hpunctuation]
  simp only [hq, if_true]
  cases Token.stringBody q 1 [] r <;> rfl

/-- The bytes of a token are passed over. -/
theorem scanFrom_length (n : Nat) (r : Text) :
    Token.scanFrom r.length n r = .ok [Token.endAt (n + r.length)] := by
  induction r generalizing n with
  | nil => rfl
  | cons c r ih =>
    rw [List.length_cons, Token.scanFrom, ih]
    congr 3
    omega

/-- A literal is read as a string that is written like it, or as no expression. -/
theorem parse_literal {w : Text} (hw : IsLiteral w) :
    (∃ cause, Expr.parse w = .error cause) ∨
      ∃ v : Value, Expr.parse w = .ok (.constant v) ∧ v.text = w := by
  obtain ⟨q, r, rfl, hq, hr⟩ := isLiteral_iff.mp hw
  have hspace : isSpace q = false := by rcases isQuote_cases hq with rfl | rfl <;> decide
  have hlex := lex_quote hq r
  rcases (hr.guarded hq).stringBody hq 1 [] with hnone | ⟨t, ht, hreplace⟩
  · left
    rw [hnone] at hlex
    refine ⟨.unterminatedString 0, ?_⟩
    simp [Expr.parse, Token.scan, Token.scanFrom, hspace, hlex, Except.map, bind, Except.bind]
  · right
    rw [ht] at hlex
    -- the string is all there is but for the end
    have hscan : Token.scan (q :: r) = .ok [⟨.string, t, 0, 1 + r.length,
        some (Char.ofUInt8 q), []⟩, Token.endAt (1 + r.length)] := by
      simp [Token.scan, Token.scanFrom, hspace, hlex, scanFrom_length, bind, Except.bind, pure,
        Except.pure]
    refine ⟨.string t (some (Char.ofUInt8 q)), ?_, ?_⟩
    · rw [Expr.parse, hscan, Except.map, Expr.read_string]
    · have hquoted : of (Char.ofUInt8 q).toString = [q] := by
        rcases isQuote_cases hq with rfl | rfl <;> rfl
      rw [Value.text, quotedWith, hquoted, List.append_assoc, hreplace, List.singleton_append]

/-! ### Values -/

theorem Closing.quotedRest {q : UInt8} {r : Text} (h : Closing q r) :
    quotedRest q r = r.length := by
  induction h with
  | close => rfl
  | @escape d r hr ih => simp [Stylesheet.quotedRest, ih]
  | @byte c r hescape hquote hline hr ih =>
    obtain ⟨d, r, rfl⟩ := List.exists_cons_of_ne_nil hr.ne_nil
    simp [Stylesheet.quotedRest, hescape, hquote, ih]

/-- A literal is one lexeme, and left as it is. -/
theorem Style.shorten_literal (style : Style) {w : Text} (hw : IsLiteral w) :
    style.shorten w = w := by
  obtain ⟨q, r, rfl, hq, hr⟩ := isLiteral_iff.mp hw
  have hlexeme : lexemeAt (0, 0) q r = (.quoted, r.length + 1) := by
    rw [lexemeAt, if_pos hq, hr.quotedRest]
  have hskip (b : Before2) (r : Text) : lexemesFrom r.length b r = [] := by
    induction r generalizing b with
    | nil => rfl
    | cons c r ih => exact ih _
  rw [shorten, lexemes, lexemesFrom, hlexeme]
  dsimp only
  rw [Nat.add_sub_cancel, hskip]
  simp [Style.lexeme]

end Stylesheet
