import Mathlib.Order.Nat
import Stylesheet.Proofs.Source.Pass

/-!
# Imbalances

A text that is not balanced is refused with an error that says what is wrong and where.
What is wrong can be read off the recogniser: it refuses a closing brace, or it ends with
something open, and then parentheses come before quotes inside braces and after them
outside.

Where the error stands comes from the marks the pass keeps for other purposes. For a brace
without a partner and for a quote they are the place itself. For an open brace the mark is
where the last header ended, which an interpolation does not move; for parentheses it is
the last one opened, which may well be closed.

## Main definitions

* `Brackets.fault` — the imbalance at the end of a text
* `Unclosed` — a quote, brace or parenthesis opened at a place and not closed
* `Culprit` — an error names the place that is at fault
* `Scan.Marks` — what the marks of the pass say of the text passed

## Main results

* `locate_verdict` — a text is refused exactly when it is not balanced, for the reason the
  recogniser gives
* `culprit_iff` — an error is in the text, and exactly when it names the place at fault
-/

namespace Stylesheet

open Text

/-! ### What is wrong -/

namespace Brackets

/-- The imbalance when a text ends here. -/
def fault (b : Brackets) : Option StructuralKind :=
  if b.depth > 0 then
    if b.paren > 0 then some .unclosedParen
    else if b.quote.isSome then some .unclosedString
    else some .unclosedBlock
  else if b.quote.isSome then some .unclosedString
  else if b.paren > 0 then some .unclosedParen
  else none

/-- Only a closing brace is refused, and only where nothing is open. -/
theorem step_eq_none_iff {b : Brackets} {c : UInt8} :
    b.step c = none ↔ b.Closed ∧ c = ch '\x7d' := by
  have hbrace : isQuote (ch '\x7d') = false := by decide
  constructor
  · intro h
    unfold step at h
    cases hquote : b.quote with
    | some q =>
      simp only [hquote] at h
      split_ifs at h
    | none =>
      simp only [hquote] at h
      split_ifs at h with hq hopen hclose hparen hbrace hend hdepth
      exact ⟨⟨hquote, by omega, hdepth⟩, hend⟩
  · rintro ⟨⟨hquote, hparen, hdepth⟩, rfl⟩
    have h1 : ch '\x7d' ≠ ch '(' := by decide
    have h2 : ch '\x7d' ≠ ch ')' := by decide
    have h3 : ch '\x7d' ≠ ch '\x7b' := by decide
    simp [step, hquote, hbrace, hparen, hdepth, h1, h2, h3]

/-- A text is refused iff some beginning of it closes everything and a closing brace
follows. -/
theorem run_eq_none_iff {b : Brackets} {t : Text} :
    b.run t = none ↔ ∃ u v b', t = u ++ ch '\x7d' :: v ∧ b.run u = some b' ∧ b'.Closed := by
  -- Either the first byte is the one refused, or the beginning that closes everything has it.
  induction t generalizing b with
  | nil => simp
  | cons c t ih =>
    rw [run_cons]
    cases hstep : b.step c with
    | none =>
      obtain ⟨hclosed, rfl⟩ := step_eq_none_iff.mp hstep
      simp only [Option.bind_none, true_iff]
      exact ⟨[], t, b, rfl, rfl, hclosed⟩
    | some b₁ =>
      rw [Option.bind_some, ih]
      constructor
      · rintro ⟨u, v, b', rfl, hrun, hclosed⟩
        exact ⟨c :: u, v, b', rfl, by simp [hstep, hrun], hclosed⟩
      · rintro ⟨u, v, b', heq, hrun, hclosed⟩
        cases u with
        | nil =>
          -- the byte would be a brace that closes nothing, which is refused
          obtain rfl := Option.some.inj hrun
          obtain ⟨rfl, -⟩ := List.cons.inj heq
          simp [step_eq_none_iff.mpr ⟨hclosed, rfl⟩] at hstep
        | cons d u =>
          obtain ⟨rfl, rfl⟩ := List.cons.inj heq
          exact ⟨u, v, b', rfl, by simpa [hstep] using hrun, hclosed⟩

end Brackets

namespace Scan

/-- The pass stops at a byte only when it is a closing brace and nothing is open. -/
theorem of_step_error {src : Text} {s : Scan} {i : Nat} {c : UInt8} {e : StructuralError}
    (h : s.step src i c = .error e) : e.kind = .unexpectedClose ∧ e.offset = i := by
  unfold step at h
  cases hquote : s.quote with
  | some q => simp [hquote] at h
  | none =>
    simp only [hquote] at h
    split_ifs at h
    cases h
    exact ⟨rfl, rfl⟩

/-- At the end the pass finds the fault the recogniser finds. -/
theorem kind_finish (src : Text) (s : Scan) :
    (s.finish src).2.map (·.kind) = s.brackets.fault := by
  unfold finish Brackets.fault brackets
  cases s.quote with
  | none => dsimp only; split_ifs <;> simp_all
  | some p => dsimp only; split_ifs <;> simp_all

/-- The rest of a text fails in the way the recogniser says. -/
theorem kind_run (src : Text) (s : Scan) (i : Nat) (rest : Text) :
    (run src s i rest).2.map (·.kind) =
      (s.brackets.run rest).elim (some .unexpectedClose) Brackets.fault := by
  induction rest generalizing s i with
  | nil => simp [run, kind_finish]
  | cons c rest ih =>
    rw [run, Brackets.run_cons]
    cases hstep : s.step src i c with
    | error e => simp [brackets_step_eq_none hstep, (of_step_error hstep).1]
    | ok r =>
      obtain ⟨s', found⟩ := r
      simp only [brackets_step hstep, Option.bind_some]
      exact ih s' (i + 1)

end Scan

/-- A text is cut into blocks without an error exactly if it is balanced. It is refused for
a closing brace without a partner exactly if one follows a balanced beginning; and in every
case for what the recogniser finds. -/
theorem locate_verdict (t : Text) :
    ((locate t).2 = none ↔ Balanced t) ∧
      ((locate t).2.map (·.kind) = some .unexpectedClose ↔
        ∃ u v, t = u ++ ch '\x7d' :: v ∧ Balanced u) ∧
      (locate t).2.map (·.kind) =
        (Brackets.run {} t).elim (some .unexpectedClose) Brackets.fault := by
  have hkind : (locate t).2.map (·.kind) =
      (Brackets.run {} t).elim (some .unexpectedClose) Brackets.fault :=
    Scan.kind_run t {} 0 t
  refine ⟨locate_eq_none_iff, ?_, hkind⟩
  have hrefused : (∃ u v, t = u ++ ch '\x7d' :: v ∧ Balanced u) ↔
      Brackets.run {} t = none := by
    rw [Brackets.run_eq_none_iff]
    constructor
    · rintro ⟨u, v, heq, b, hrun, hclosed⟩
      exact ⟨u, v, b, heq, hrun, hclosed⟩
    · rintro ⟨u, v, b, heq, hrun, hclosed⟩
      exact ⟨u, v, heq, b, hrun, hclosed⟩
  rw [hrefused, hkind]
  cases Brackets.run {} t with
  | none => simp
  | some b =>
    simp only [Option.elim_some, reduceCtorEq, iff_false]
    unfold Brackets.fault
    split_ifs <;> simp

/-! ### What is open at a place -/

namespace Brackets

/-- One open quote or none. -/
def quotes (b : Brackets) : Nat := if b.quote.isSome then 1 else 0

theorem step_open {b : Brackets} (hquote : b.quote = none) :
    b.step (ch '(') = some { b with paren := b.paren + 1 } := by
  have hplain : isQuote (ch '(') = false := by decide
  simp [step, hquote, hplain]

theorem step_close {b : Brackets} (hquote : b.quote = none) :
    b.step (ch ')') = some { b with paren := b.paren - 1 } := by
  have hplain : isQuote (ch ')') = false := by decide
  have hother : ch ')' ≠ ch '(' := by decide
  simp [step, hquote, hplain, hother]

/-- What a byte does to the parentheses: only one outside quotes opens or closes any. -/
theorem step_paren {b b' : Brackets} {c : UInt8} (h : b.step c = some b') :
    (b.quote = none ∧ c = ch '(' ∧ b'.paren = b.paren + 1) ∨
      (b.quote = none ∧ c = ch ')' ∧ b'.paren = b.paren - 1) ∨ b'.paren = b.paren := by
  unfold step at h
  cases hquote : b.quote with
  | some q =>
    simp only [hquote] at h
    split_ifs at h <;> cases h <;> exact .inr (.inr rfl)
  | none =>
    simp only [hquote] at h
    split_ifs at h with hq hopen hclose hparen hbrace hend hdepth
    all_goals cases h
    · exact .inr (.inr rfl)
    · exact .inl ⟨rfl, hopen, rfl⟩
    · exact .inr (.inl ⟨rfl, hclose, rfl⟩)
    all_goals exact .inr (.inr rfl)

/-- Only an opening brace outside quotes and parentheses raises the depth. -/
theorem of_step_depth {b b' : Brackets} {c : UInt8} (h : b.step c = some b')
    (hmore : b.depth < b'.depth) : b.quote = none ∧ b.paren = 0 ∧ c = ch '\x7b' := by
  unfold step at h
  cases hquote : b.quote with
  | some q =>
    simp only [hquote] at h
    split_ifs at h <;> cases h <;> exact absurd hmore (Nat.lt_irrefl _)
  | none =>
    simp only [hquote] at h
    split_ifs at h with hq hopen hclose hparen hbrace hend hdepth
    all_goals cases h
    · exact absurd hmore (Nat.lt_irrefl _)
    · exact absurd hmore (Nat.lt_irrefl _)
    · exact absurd hmore (Nat.lt_irrefl _)
    · exact absurd hmore (Nat.lt_irrefl _)
    · exact ⟨rfl, by omega, hbrace⟩
    · exact absurd hmore (by dsimp only; omega)
    · exact absurd hmore (Nat.lt_irrefl _)

end Brackets

/-- Something that is counted is opened at an offset and not closed: from there on more of it
is open than before. -/
def Unclosed (count : Brackets → Nat) (t : Text) (i : Nat) : Prop :=
  i < t.length ∧ ∃ b, Brackets.upTo t i = some b ∧
    ∀ j, i < j → j ≤ t.length → ∃ b', Brackets.upTo t j = some b' ∧ count b < count b'

/-- A byte stands at an offset, outside quotes. -/
def Bare (t : Text) (i : Nat) (c : UInt8) : Prop :=
  t[i]? = some c ∧ ∃ b, Brackets.upTo t i = some b ∧ b.quote = none

section Prefixes

variable {count : Brackets → Nat} {t : Text} {c : UInt8} {b b' : Brackets} {i : Nat}

/-- What the last byte opens is not closed. -/
theorem Unclosed.last (hrun : Brackets.run {} t = some b) (hstep : b.step c = some b')
    (hmore : count b < count b') : Unclosed count (t ++ [c]) t.length := by
  refine ⟨by simp, b, by rw [Brackets.upTo_append le_rfl, Brackets.upTo_length, hrun], ?_⟩
  intro j hlt hle
  -- After the last byte there is one place only, the end.
  have hj : j = (t ++ [c]).length := by simp at hle ⊢; omega
  refine ⟨b', ?_, hmore⟩
  rw [hj, Brackets.upTo_length, Brackets.run_append, hrun]
  simp [hstep]

/-- What is not closed stays so if enough is open after one more byte. -/
theorem Unclosed.snoc {b₀ : Brackets} (h : Unclosed count t i)
    (hbefore : Brackets.upTo t i = some b₀) (hrun : Brackets.run {} (t ++ [c]) = some b)
    (hmore : count b₀ < count b) : Unclosed count (t ++ [c]) i := by
  obtain ⟨hlt, b₁, hb₁, hstays⟩ := h
  obtain rfl := Option.some.inj (hb₁.symm.trans hbefore)
  refine ⟨by simp; omega, b₁, by rw [Brackets.upTo_append hlt.le, hb₁], ?_⟩
  intro j hij hle
  by_cases hj : j ≤ t.length
  · rw [Brackets.upTo_append hj]
    exact hstays j hij hj
  · have hlast : j = (t ++ [c]).length := by simp at hle ⊢; omega
    exact ⟨b, by rw [hlast, Brackets.upTo_length, hrun], hmore⟩

/-- At the end of the text what is not closed is open. -/
theorem Unclosed.lt (h : Unclosed count t i) (hbefore : Brackets.upTo t i = some b)
    (hrun : Brackets.run {} t = some b') : count b < count b' := by
  obtain ⟨hlt, b₁, hb₁, hstays⟩ := h
  obtain rfl := Option.some.inj (hb₁.symm.trans hbefore)
  obtain ⟨b₂, hb₂, hmore⟩ := hstays t.length hlt le_rfl
  rw [Brackets.upTo_length] at hb₂
  obtain rfl := Option.some.inj (hb₂.symm.trans hrun)
  exact hmore

/-- What is not closed is opened by the byte there. -/
theorem Unclosed.opens (h : Unclosed count t i) : ∃ c b b', t[i]? = some c ∧
    Brackets.upTo t i = some b ∧ b.step c = some b' ∧ count b < count b' := by
  obtain ⟨hlt, b, hb, hstays⟩ := h
  obtain ⟨b', hb', hmore⟩ := hstays (i + 1) (by omega) hlt
  rw [Brackets.upTo_succ hlt, hb, Option.bind_some] at hb'
  exact ⟨t[i], b, b', List.getElem?_eq_getElem hlt, hb, hb', hmore⟩

/-- A quote that is not closed is opened by a quotation mark. -/
theorem Unclosed.quote_byte (h : Unclosed Brackets.quotes t i) :
    ∃ q, Bare t i q ∧ isQuote q = true := by
  obtain ⟨c, b, b', hc, hb, hstep, hmore⟩ := h.opens
  -- One quote at most is open, so one more than before means that none was.
  have hnone : b.quote = none := by
    by_contra hsome
    have hone : b.quotes = 1 := by simp [Brackets.quotes, Option.isSome_iff_ne_none, hsome]
    have hle : b'.quotes ≤ 1 := by
      unfold Brackets.quotes
      split_ifs <;> omega
    omega
  refine ⟨c, ⟨hc, b, hb, hnone⟩, ?_⟩
  rcases Brackets.step_outside hnone hstep with ⟨hq, -⟩ | ⟨hnone', -⟩
  · exact hq
  · simp [Brackets.quotes, hnone, hnone'] at hmore

/-- A parenthesis that is not closed is an opening one, outside quotes. -/
theorem Unclosed.paren_byte (h : Unclosed Brackets.paren t i) : Bare t i (ch '(') := by
  obtain ⟨c, b, b', hc, hb, hstep, hmore⟩ := h.opens
  rcases Brackets.step_paren hstep with ⟨hnone, rfl, -⟩ | ⟨-, -, hless⟩ | hsame
  · exact ⟨hc, b, hb, hnone⟩
  · omega
  · omega

/-- A brace that is not closed is an opening one, outside quotes and parentheses. -/
theorem Unclosed.depth_byte (h : Unclosed Brackets.depth t i) : Bare t i (ch '\x7b') ∧
    ∃ b, Brackets.upTo t i = some b ∧ b.paren = 0 := by
  obtain ⟨c, b, b', hc, hb, hstep, hmore⟩ := h.opens
  obtain ⟨hnone, hparen, rfl⟩ := Brackets.of_step_depth hstep hmore
  exact ⟨⟨hc, b, hb, hnone⟩, b, hb, hparen⟩

theorem bare_snoc {d : UInt8} :
    Bare (t ++ [c]) i d ↔ Bare t i d ∨
      i = t.length ∧ d = c ∧ ∃ b, Brackets.run {} t = some b ∧ b.quote = none := by
  rcases lt_trichotomy i t.length with hlt | rfl | hgt
  · simp [Bare, List.getElem?_append_left hlt, Brackets.upTo_append hlt.le, hlt.ne]
  · simp [Bare, Brackets.upTo_append le_rfl, Brackets.upTo_length, eq_comm]
  · have h1 : (t ++ [c])[i]? = none := by simp; omega
    have h2 : t[i]? = none := by simp; omega
    simp [Bare, h1, h2, hgt.ne']

/-- Between two places at which no parenthesis is opened the count does not grow, and if none
is closed either it is the same. -/
theorem paren_between {j : Nat} (hi : Brackets.upTo t i = some b) (hij : i ≤ j)
    (hj : j ≤ t.length) (hb' : Brackets.upTo t j = some b')
    (hopen : ∀ k, i ≤ k → k < j → ¬ Bare t k (ch '(')) :
    b'.paren ≤ b.paren ∧
      ((∀ k, i ≤ k → k < j → ¬ Bare t k (ch ')')) → b'.paren = b.paren) := by
  -- From the first place on, byte by byte; the bounds are those of the bytes passed.
  induction j, hij using Nat.le_induction generalizing b' with
  | base =>
    obtain rfl := Option.some.inj (hi.symm.trans hb')
    exact ⟨le_rfl, fun _ => rfl⟩
  | succ j hij ih =>
    rw [Brackets.upTo_succ hj] at hb'
    obtain ⟨b₁, hb₁, hstep⟩ := Option.bind_eq_some_iff.mp hb'
    obtain ⟨hbound, hsame⟩ := ih (by omega) hb₁ fun k hik hkj => hopen k hik (by omega)
    have hbare {d : UInt8} (hnone : b₁.quote = none) (hd : t[j] = d) : Bare t j d :=
      ⟨by rw [List.getElem?_eq_getElem hj, hd], b₁, hb₁, hnone⟩
    rcases Brackets.step_paren hstep with ⟨hnone, hc, -⟩ | ⟨hnone, hc, hless⟩ | heq
    · exact absurd (hbare hnone hc) (hopen j hij (by omega))
    · refine ⟨by omega, fun hclose => ?_⟩
      exact absurd (hbare hnone hc) (hclose j hij (by omega))
    · refine ⟨by omega, fun hclose => ?_⟩
      rw [heq]
      exact hsame fun k hik hkj => hclose k hik (by omega)

/-- An open parenthesis and no later one: it stays open iff no parenthesis is closed after
it. -/
theorem unclosed_paren_iff (hrun : Brackets.run {} t = some b) (hopen : Bare t i (ch '('))
    (hlast : ∀ k, i < k → ¬ Bare t k (ch '(')) :
    Unclosed Brackets.paren t i ↔ ∀ j, i < j → ¬ Bare t j (ch ')') := by
  obtain ⟨hbyte, b₀, hb₀, hquote⟩ := hopen
  obtain ⟨hlt, hget⟩ := List.getElem?_eq_some_iff.mp hbyte
  -- From the byte after the parenthesis the counts are compared, where one more is open.
  have hfirst : Brackets.upTo t (i + 1) = some { b₀ with paren := b₀.paren + 1 } := by
    rw [Brackets.upTo_succ hlt, hb₀, hget]
    exact Brackets.step_open hquote
  constructor
  · rintro ⟨-, b₁, hb₁, hstays⟩ j hij ⟨hclose, b₂, hb₂, hnone⟩
    obtain rfl := Option.some.inj (hb₁.symm.trans hb₀)
    obtain ⟨hj, hget⟩ := List.getElem?_eq_some_iff.mp hclose
    -- before the closing parenthesis at most one more is open, after it none
    obtain ⟨hbound, -⟩ := paren_between hfirst hij hj.le hb₂ fun k hik _ => hlast k hik
    obtain ⟨b₃, hb₃, hmore⟩ := hstays (j + 1) (by omega) hj
    rw [Brackets.upTo_succ hj, hb₂, hget, Option.bind_some, Brackets.step_close hnone] at hb₃
    obtain rfl := Option.some.inj hb₃
    simp only at hbound hmore
    omega
  · intro hnever
    refine ⟨hlt, b₀, hb₀, fun j hij hle => ?_⟩
    obtain ⟨b₁, hb₁⟩ := Brackets.exists_upTo hrun j
    obtain ⟨-, hsame⟩ := paren_between hfirst hij hle hb₁ fun k hik _ => hlast k hik
    refine ⟨b₁, hb₁, ?_⟩
    have hcount := hsame fun k hik _ => hnever k hik
    simp only at hcount
    omega

end Prefixes

/-! ### The marks of the pass -/

namespace Scan

/-- What the marks of the pass say of the text `before`, once it is passed. -/
structure Marks (src before : Text) (s : Scan) : Prop where
  run : Brackets.run {} before = some s.brackets
  quote : ∀ q i, s.quote = some (q, i) → Unclosed Brackets.quotes before i
  start : s.start < before.length ∨ s.start = 0
  /-- At the top level no interpolation is open. -/
  skip : s.depth = 0 → s.skip = false
  /-- The outermost open brace is marked, unless it belongs to an interpolation: then the
  mark is an older one. -/
  brace : s.depth ≠ 0 → ∃ k, Unclosed Brackets.depth before k ∧ Balanced (before.take k) ∧
    s.skip = afterHash src k ∧ if s.skip then s.start < k else s.start = k
  /-- The last parenthesis opened is just before its mark. -/
  paren : s.paren ≠ 0 → ∃ m, s.safe = m + 1 ∧ Bare before m (ch '(') ∧
    ∀ k, m < k → ¬ Bare before k (ch '(')

section Step

variable {src before : Text} {s s' : Scan} {c : UInt8} {found : List Block}

/-- The open quote is the one met last. -/
theorem Marks.quote_step (h : Marks src before s) (hmove : Moves src before.length c s s' found)
    (hrun : Brackets.run {} (before ++ [c]) = some s'.brackets) {q : UInt8} {i : Nat}
    (hquote : s'.quote = some (q, i)) : Unclosed Brackets.quotes (before ++ [c]) i := by
  have hopen : s'.brackets.quotes = 1 := by simp [Brackets.quotes, brackets, hquote]
  -- A quote that stays open needs no more than that one is open after the byte.
  have hkept (hs : s.quote = some (q, i)) : Unclosed Brackets.quotes (before ++ [c]) i := by
    have hunclosed := h.quote q i hs
    obtain ⟨-, b, hb, -⟩ := id hunclosed
    have hless : b.quotes < s.brackets.quotes := hunclosed.lt hb h.run
    have hone : s.brackets.quotes = 1 := by simp [Brackets.quotes, brackets, hs]
    exact hunclosed.snoc hb hrun (by omega)
  cases hmove with
  | quoted escaped hs => exact hkept hquote
  | unquote hs => simp at hquote
  | quote hnone hc =>
    obtain ⟨-, rfl⟩ := Prod.mk.inj (Option.some.inj hquote)
    have hstep : s.brackets.step c = some { s.brackets with quote := some c } := by
      simp [Brackets.step, brackets, hnone, hc]
    exact .last h.run hstep (by simp [Brackets.quotes, brackets, hnone])
  | «open» hnone hc => exact hkept hquote
  | close hnone hc => exact hkept hquote
  | enclosed hnone hc hparen => exact hkept hquote
  | openBrace hnone hparen hc =>
    rcases openBrace_cases src s before.length with
      ⟨-, heq⟩ | ⟨-, -, heq⟩ | ⟨init, loose, -, -, -, -, heq⟩ <;>
    · rw [heq] at hquote
      exact hkept hquote
  | closeBrace hnone hparen hc hdepth =>
    rcases closeBrace_cases src s before.length with ⟨-, heq⟩ | ⟨-, -, heq⟩ | ⟨-, -, heq⟩ <;>
    · rw [heq] at hquote
      exact hkept hquote
  | boundary hnone hparen hdepth =>
    obtain ⟨init, line, safe, heq⟩ := boundary_eq src s before.length c
    rw [heq] at hquote
    exact hkept hquote
  | inner hnone hparen hdepth => exact hkept hquote

/-- The last parenthesis stays the last one until another is opened. -/
theorem Marks.paren_step (h : Marks src before s)
    (hmove : Moves src before.length c s s' found) (hparen : s'.paren ≠ 0) :
    ∃ m, s'.safe = m + 1 ∧ Bare (before ++ [c]) m (ch '(') ∧
      ∀ k, m < k → ¬ Bare (before ++ [c]) k (ch '(') := by
  -- Only an opening parenthesis outside quotes moves the mark, and then the last one is that byte.
  have hkept (hs : s.paren ≠ 0) (hsafe : s'.safe = s.safe)
      (hother : s.quote = none → c ≠ ch '(') :
      ∃ m, s'.safe = m + 1 ∧ Bare (before ++ [c]) m (ch '(') ∧
        ∀ k, m < k → ¬ Bare (before ++ [c]) k (ch '(') := by
    obtain ⟨m, hm, hbare, hlast⟩ := h.paren hs
    refine ⟨m, hsafe.trans hm, bare_snoc.mpr (.inl hbare), fun k hk hnew => ?_⟩
    rcases bare_snoc.mp hnew with hold | ⟨-, hc, b, hb, hnone⟩
    · exact hlast k hk hold
    · obtain rfl := Option.some.inj (hb.symm.trans h.run)
      exact hother (by simpa [brackets] using hnone) hc.symm
  cases hmove with
  | quoted escaped hs => exact hkept hparen rfl fun hnone => by simp [hnone] at hs
  | unquote hs => exact hkept hparen rfl fun hnone => by simp [hnone] at hs
  | quote hnone hc =>
    refine hkept hparen rfl fun _ => ?_
    rintro rfl
    exact absurd hc (by decide)
  | «open» hnone hc =>
    refine ⟨before.length, rfl, bare_snoc.mpr (.inr ⟨rfl, hc.symm, _, h.run, ?_⟩), ?_⟩
    · simp [brackets, hnone]
    · rintro k hk ⟨hget, -⟩
      have hbound := (List.getElem?_eq_some_iff.mp hget).1
      simp at hbound
      omega
  | close hnone hc =>
    have hs : s.paren - 1 ≠ 0 := hparen
    refine hkept (by omega) rfl fun _ => ?_
    rintro rfl
    exact absurd hc (by decide)
  | enclosed hnone hc hs => exact hkept hs rfl fun _ => hc
  | openBrace hnone hzero hc =>
    rcases openBrace_cases src s before.length with
      ⟨-, heq⟩ | ⟨-, -, heq⟩ | ⟨init, loose, -, -, -, -, heq⟩ <;>
    · rw [heq] at hparen
      exact absurd hzero hparen
  | closeBrace hnone hzero hc hdepth =>
    rcases closeBrace_cases src s before.length with ⟨-, heq⟩ | ⟨-, -, heq⟩ | ⟨-, -, heq⟩ <;>
    · rw [heq] at hparen
      exact absurd hzero hparen
  | boundary hnone hzero hdepth =>
    obtain ⟨init, line, safe, heq⟩ := boundary_eq src s before.length c
    rw [heq] at hparen
    exact absurd hzero hparen
  | inner hnone hzero hdepth => exact absurd hzero hparen

/-- Below the outermost open brace its mark stays what it was. -/
theorem Marks.brace_kept (h : Marks src before s)
    (hrun : Brackets.run {} (before ++ [c]) = some s'.brackets) (hs : s.depth ≠ 0)
    (hs' : s'.depth ≠ 0) (hstart : s'.start = s.start) (hskip : s'.skip = s.skip) :
    ∃ k, Unclosed Brackets.depth (before ++ [c]) k ∧ Balanced ((before ++ [c]).take k) ∧
      s'.skip = afterHash src k ∧ if s'.skip then s'.start < k else s'.start = k := by
  obtain ⟨k, hunclosed, ⟨b, hb, hclosed⟩, hhash, hmark⟩ := h.brace hs
  have hzero : b.depth < s'.brackets.depth := by
    have : 0 < s'.depth := Nat.pos_of_ne_zero hs'
    rw [hclosed.2.2]
    exact this
  refine ⟨k, hunclosed.snoc hb hrun hzero, ?_, hskip.trans hhash, ?_⟩
  · rw [List.take_append_of_le_length hunclosed.1.le]
    exact ⟨b, hb, hclosed⟩
  · rw [hskip, hstart]
    exact hmark

/-- The mark of the outermost brace, and where an interpolation leaves it. -/
theorem Marks.brace_step (h : Marks src before s)
    (hmove : Moves src before.length c s s' found)
    (hrun : Brackets.run {} (before ++ [c]) = some s'.brackets) (hdepth : s'.depth ≠ 0) :
    ∃ k, Unclosed Brackets.depth (before ++ [c]) k ∧ Balanced ((before ++ [c]).take k) ∧
      s'.skip = afterHash src k ∧ if s'.skip then s'.start < k else s'.start = k := by
  -- A brace at the top level opens the outermost one, and what is before it is balanced.
  have hopens (hnone : s.quote = none) (hparen : s.paren = 0) (hzero : s.depth = 0) :
      Unclosed Brackets.depth (before ++ [c]) before.length ∧
        Balanced ((before ++ [c]).take before.length) := by
    have hclosed : s.brackets.Closed := ⟨by simp [brackets, hnone], hparen, hzero⟩
    have hstep : s.brackets.step c = some s'.brackets := by
      simpa [Brackets.run_append, h.run] using hrun
    have hmore : s.brackets.depth < s'.brackets.depth := by
      rw [hclosed.2.2]
      exact Nat.pos_of_ne_zero hdepth
    refine ⟨.last h.run hstep hmore, s.brackets, ?_, hclosed⟩
    rw [List.take_left, h.run]
  cases hmove with
  | quoted escaped hs => exact h.brace_kept hrun hdepth hdepth rfl rfl
  | unquote hs => exact h.brace_kept hrun hdepth hdepth rfl rfl
  | quote hnone hc => exact h.brace_kept hrun hdepth hdepth rfl rfl
  | «open» hnone hc => exact h.brace_kept hrun hdepth hdepth rfl rfl
  | close hnone hc => exact h.brace_kept hrun hdepth hdepth rfl rfl
  | enclosed hnone hc hs => exact h.brace_kept hrun hdepth hdepth rfl rfl
  | openBrace hnone hzero hc =>
    rcases openBrace_cases src s before.length with
      ⟨hdeep, heq⟩ | ⟨htop, hhash, heq⟩ | ⟨init, loose, htop, hhash, -, -, heq⟩
    · exact h.brace_kept hrun hdeep hdepth (by rw [heq]) (by rw [heq])
    · obtain ⟨hunclosed, hbalanced⟩ := hopens hnone hzero htop
      refine ⟨before.length, hunclosed, hbalanced, by rw [heq, hhash], ?_⟩
      rw [heq, if_pos rfl]
      -- there is a byte before the brace, so the mark is behind it even if none was set
      have hafter : 0 < before.length := by
        rw [afterHash, Bool.and_eq_true] at hhash
        exact of_decide_eq_true hhash.1
      have hstart := h.start
      dsimp only
      omega
    · obtain ⟨hunclosed, hbalanced⟩ := hopens hnone hzero htop
      refine ⟨before.length, hunclosed, hbalanced, ?_, ?_⟩
      · rw [heq, hhash]
        exact h.skip htop
      · rw [heq]
        simp [h.skip htop]
  | closeBrace hnone hzero hc hs =>
    rcases closeBrace_cases src s before.length with
      ⟨-, heq⟩ | ⟨-, -, heq⟩ | ⟨-, -, heq⟩
    · exact h.brace_kept hrun hs hdepth (by rw [heq]) (by rw [heq])
    · exact absurd (by rw [heq]) hdepth
    · exact absurd (by rw [heq]) hdepth
  | boundary hnone hzero htop =>
    obtain ⟨init, line, safe, heq⟩ := boundary_eq src s before.length c
    rw [heq] at hdepth
    exact absurd htop hdepth
  | inner hnone hzero hs => exact h.brace_kept hrun hs hdepth rfl rfl

/-- One byte keeps the marks. -/
theorem Marks.step (h : Marks src before s) (hstep : s.step src before.length c = .ok (s', found)) :
    Marks src (before ++ [c]) s' := by
  have hmove := moves_of_step hstep
  have hrun : Brackets.run {} (before ++ [c]) = some s'.brackets := by
    rw [Brackets.run_append, h.run]
    simp [brackets_step hstep]
  have hlength : (before ++ [c]).length = before.length + 1 := by simp
  have hstart := h.start
  refine ⟨hrun, fun q i => h.quote_step hmove hrun, ?_, ?_, h.brace_step hmove hrun,
    h.paren_step hmove⟩
  · -- The mark moves to the byte at most, and none was set at the start.
    rcases step_cases hstep with ⟨-, -, heq, -⟩ | ⟨-, -, hopen⟩ | ⟨-, -, -, hclose⟩
    · omega
    · rcases openBrace_cases src s before.length with
        ⟨-, heq⟩ | ⟨-, -, heq⟩ | ⟨init, loose, -, -, -, -, heq⟩
      all_goals
        obtain ⟨rfl, -⟩ := Prod.mk.inj (heq.symm.trans hopen)
        dsimp only
        omega
    · rcases closeBrace_cases src s before.length with ⟨-, heq⟩ | ⟨-, -, heq⟩ | ⟨-, -, heq⟩
      all_goals
        obtain ⟨rfl, -⟩ := Prod.mk.inj (heq.symm.trans hclose)
        dsimp only
        omega
  · -- Back at the top level the interpolation is closed, if there was one.
    intro hdepth
    rcases step_cases hstep with ⟨-, hsame, -, hskip⟩ | ⟨-, -, hopen⟩ | ⟨-, -, -, hclose⟩
    · exact hskip.trans (h.skip (hsame ▸ hdepth))
    · rcases openBrace_cases src s before.length with
        ⟨-, heq⟩ | ⟨-, -, heq⟩ | ⟨init, loose, -, -, -, -, heq⟩
      all_goals
        obtain ⟨rfl, -⟩ := Prod.mk.inj (heq.symm.trans hopen)
        simp at hdepth
    · rcases closeBrace_cases src s before.length with
        ⟨hdeep, heq⟩ | ⟨-, -, heq⟩ | ⟨-, hskip, heq⟩
      all_goals obtain ⟨rfl, -⟩ := Prod.mk.inj (heq.symm.trans hclose)
      · simp only at hdepth
        omega
      · rfl
      · exact hskip

end Step

/-- The errors at the end of a text, and the marks they name. -/
theorem finish_cases {src : Text} {s : Scan} {e : StructuralError}
    (h : (s.finish src).2 = some e) :
    (s.depth ≠ 0 ∧ s.paren ≠ 0 ∧ e.kind = .unclosedParen ∧ e.offset = s.start) ∨
      (∃ q i, s.quote = some (q, i) ∧ e.kind = .unclosedString ∧ e.offset = i) ∨
      (s.depth ≠ 0 ∧ e.kind = .unclosedBlock ∧ e.offset = s.start) ∨
      (s.depth = 0 ∧ s.paren ≠ 0 ∧ e.kind = .unclosedParen ∧ e.offset = s.safe - 1) := by
  by_cases hdepth : s.depth > 0
  · simp only [finish, if_pos hdepth] at h
    by_cases hparen : s.paren > 0
    · rw [if_pos hparen] at h
      cases h
      exact .inl ⟨by omega, by omega, rfl, rfl⟩
    · rw [if_neg hparen] at h
      split at h
      case h_1 q i hquote =>
        cases h
        exact .inr (.inl ⟨q, i, hquote, rfl, rfl⟩)
      case h_2 hquote =>
        cases h
        exact .inr (.inr (.inl ⟨by omega, rfl, rfl⟩))
  · simp only [finish, if_neg hdepth] at h
    split at h
    case h_1 q i hquote =>
      cases h
      exact .inr (.inl ⟨q, i, hquote, rfl, rfl⟩)
    case h_2 hquote =>
      split_ifs at h with hparen
      · cases h
        exact .inr (.inr (.inr ⟨by omega, by omega, rfl, rfl⟩))

end Scan

/-! ### Where it is -/

/-- A place is at fault for an imbalance: a closing brace that follows a balanced beginning, a
quote or a brace that is not closed, or, if no brace is open, a parenthesis that is not
closed. -/
def AtFault (t : Text) (i : Nat) : StructuralKind → Prop
  | .unexpectedClose => t[i]? = some (ch '\x7d') ∧ Balanced (t.take i)
  | .unclosedString => Unclosed Brackets.quotes t i
  | .unclosedBlock => Unclosed Brackets.depth t i
  | .unclosedParen => (∀ k, ¬ Unclosed Brackets.depth t k) → Unclosed Brackets.paren t i

/-- An error names a place in the text, and that place is at fault. -/
def Culprit (t : Text) (e : StructuralError) : Prop :=
  ∃ i : Nat, e.offset = i ∧ i < t.length ∧ AtFault t i e.kind

theorem culprit_iff_atFault {t : Text} {e : StructuralError} {i : Nat} (hoffset : e.offset = i)
    (hlt : i < t.length) : Culprit t e ↔ AtFault t i e.kind := by
  constructor
  · rintro ⟨j, hj, -, hfault⟩
    obtain rfl : j = i := Int.ofNat.inj (hj.symm.trans hoffset)
    exact hfault
  · exact fun hfault => ⟨i, hoffset, hlt, hfault⟩

/-- The outermost open brace belongs to an interpolation. -/
def OpenInterpolation (t : Text) : Prop :=
  ∃ k, Unclosed Brackets.depth t k ∧ Balanced (t.take k) ∧ afterHash t k = true

/-- A parenthesis is closed after the last one that is opened. -/
def ClosedAfterLast (t : Text) : Prop :=
  ∃ i j, i < j ∧ Bare t i (ch '(') ∧ (∀ k, i < k → ¬ Bare t k (ch '(')) ∧ Bare t j (ch ')')

/-- Where the text before it is balanced, no brace is open. -/
theorem not_unclosed_of_balanced {t : Text} {i k : Nat} (hik : i < k) (hk : k ≤ t.length)
    (hbalanced : Balanced (t.take k)) : ¬ Unclosed Brackets.depth t i := by
  rintro ⟨-, b, -, hstays⟩
  obtain ⟨b₁, hb₁, hmore⟩ := hstays k hik hk
  obtain ⟨b₂, hb₂, hclosed⟩ := hbalanced
  obtain rfl := Option.some.inj (hb₁.symm.trans hb₂)
  have := hclosed.2.2
  omega

/-- There is one outermost open brace only. -/
theorem eq_of_outermost {t : Text} {i k : Nat} (hi : Unclosed Brackets.depth t i)
    (hbefore : Balanced (t.take i)) (hk : Unclosed Brackets.depth t k)
    (hbefore' : Balanced (t.take k)) : i = k := by
  rcases lt_trichotomy i k with hlt | heq | hgt
  · exact absurd hi (not_unclosed_of_balanced hlt hk.1.le hbefore')
  · exact heq
  · exact absurd hk (not_unclosed_of_balanced hgt hi.1.le hbefore)

namespace Scan

variable {t : Text} {s : Scan}

/-- Below a brace the mark is in the text. It is a brace that is not closed, unless the outermost
one belongs to an interpolation. -/
theorem Marks.unclosed_start_iff (h : Marks t t s) (hdepth : s.depth ≠ 0) :
    s.start < t.length ∧ (Unclosed Brackets.depth t s.start ↔ ¬ OpenInterpolation t) := by
  obtain ⟨k, hunclosed, hbalanced, hskip, hmark⟩ := h.brace hdepth
  cases hs : s.skip with
  | true =>
    rw [hs, if_pos rfl] at hmark
    refine ⟨hmark.trans hunclosed.1, ?_⟩
    -- The mark is older than the brace, and before the brace nothing is open.
    have hinterpolation : OpenInterpolation t := ⟨k, hunclosed, hbalanced, hskip ▸ hs⟩
    simp [not_unclosed_of_balanced hmark hunclosed.1.le hbalanced, hinterpolation]
  | false =>
    rw [hs, if_neg Bool.false_ne_true] at hmark
    rw [hmark]
    refine ⟨hunclosed.1, iff_of_true hunclosed ?_⟩
    rintro ⟨k', hunclosed', hbalanced', hhash⟩
    rw [eq_of_outermost hunclosed' hbalanced' hunclosed hbalanced, ← hskip, hs] at hhash
    cases hhash

/-- Where no brace is open but a parenthesis is, the mark stands behind the last parenthesis that
was opened. That one is not closed, unless one is closed after it. -/
theorem Marks.unclosed_safe_iff (h : Marks t t s) (hdepth : s.depth = 0) (hparen : s.paren ≠ 0) :
    (∀ k, ¬ Unclosed Brackets.depth t k) ∧
      ∃ m, s.safe = m + 1 ∧ m < t.length ∧
        (Unclosed Brackets.paren t m ↔ ¬ ClosedAfterLast t) := by
  obtain ⟨m, hm, hbare, hlast⟩ := h.paren hparen
  obtain ⟨hlt, -⟩ := List.getElem?_eq_some_iff.mp hbare.1
  refine ⟨fun k hunclosed => ?_, m, hm, hlt, ?_⟩
  · obtain ⟨-, b, hb, -⟩ := id hunclosed
    have hmore : b.depth < s.depth := hunclosed.lt hb h.run
    omega
  rw [unclosed_paren_iff h.run hbare hlast]
  constructor
  · rintro hnever ⟨i, j, hij, hopen, hlast', hclose⟩
    -- The last parenthesis opened is the same one.
    have hsame : i = m := by
      rcases lt_trichotomy i m with hlt' | heq | hgt
      · exact absurd hbare (hlast' m hlt')
      · exact heq
      · exact absurd hopen (hlast i hgt)
    exact hnever j (hsame ▸ hij) hclose
  · intro hnone j hj hclose
    exact hnone ⟨m, j, hj, hbare, hlast, hclose⟩

/-- When a text is refused at its end, the error names a place in the text, and the place at
fault but for two cases. -/
theorem Marks.culprit_iff_of_finish {e : StructuralError} (h : Marks t t s)
    (hfinish : (s.finish t).2 = some e) :
    (∃ i : Nat, e.offset = i ∧ i < t.length) ∧
      (Culprit t e ↔ (e.kind = .unclosedBlock → ¬ OpenInterpolation t) ∧
        (e.kind = .unclosedParen → (∀ k, ¬ Unclosed Brackets.depth t k) →
          ¬ ClosedAfterLast t)) := by
  rcases finish_cases hfinish with ⟨hdepth, -, hkind, hoffset⟩ |
    ⟨q, i, hquote, hkind, hoffset⟩ | ⟨hdepth, hkind, hoffset⟩ | ⟨hdepth, hparen, hkind, hoffset⟩
  · -- A parenthesis below an open brace: the error names the mark of the brace, and nothing is
    -- asked of it.
    obtain ⟨hlt, -⟩ := h.unclosed_start_iff hdepth
    refine ⟨⟨s.start, hoffset, hlt⟩, ?_⟩
    obtain ⟨k, hunclosed, -⟩ := h.brace hdepth
    have hopen : ¬ ∀ k, ¬ Unclosed Brackets.depth t k := fun hnone => hnone k hunclosed
    rw [culprit_iff_atFault hoffset hlt, hkind, AtFault]
    simp [hopen]
  · have hunclosed := h.quote q i hquote
    refine ⟨⟨i, hoffset, hunclosed.1⟩, ?_⟩
    rw [culprit_iff_atFault hoffset hunclosed.1, hkind, AtFault]
    simp [hunclosed]
  · obtain ⟨hlt, hiff⟩ := h.unclosed_start_iff hdepth
    refine ⟨⟨s.start, hoffset, hlt⟩, ?_⟩
    rw [culprit_iff_atFault hoffset hlt, hkind, AtFault, hiff]
    simp
  · obtain ⟨hnobrace, m, hm, hlt, hiff⟩ := h.unclosed_safe_iff hdepth hparen
    have hplace : e.offset = m := by
      rw [hoffset, hm]
      omega
    refine ⟨⟨m, hplace, hlt⟩, ?_⟩
    rw [culprit_iff_atFault hplace hlt, hkind, AtFault, hiff]
    simp [hnobrace]

end Scan

/-- A text is refused at a byte or at its end, and until then the marks are kept. -/
theorem Scan.Marks.run_cases {rest before : Text} {s : Scan} {e : StructuralError}
    (h : Marks (before ++ rest) before s)
    (hfail : (Scan.run (before ++ rest) s before.length rest).2 = some e) :
    (∃ u c v s', before ++ rest = u ++ c :: v ∧ Marks (before ++ rest) u s' ∧
        s'.step (before ++ rest) u.length c = .error e) ∨
      ∃ s', Marks (before ++ rest) (before ++ rest) s' ∧
        (s'.finish (before ++ rest)).2 = some e := by
  -- By the rest of the text; the marks go along with what was passed.
  induction rest generalizing before s with
  | nil =>
    rw [List.append_nil] at h hfail ⊢
    exact .inr ⟨s, h, hfail⟩
  | cons c rest ih =>
    rw [Scan.run] at hfail
    cases hstep : s.step (before ++ c :: rest) before.length c with
    | error e' =>
      simp only [hstep, Option.some.injEq] at hfail
      exact .inl ⟨before, c, rest, s, rfl, h, hfail ▸ hstep⟩
    | ok r =>
      obtain ⟨s', found⟩ := r
      simp only [hstep] at hfail
      have hsplit : before ++ c :: rest = before ++ [c] ++ rest := by simp
      have hlength : (before ++ [c]).length = before.length + 1 := by simp
      have hmarks := h.step hstep
      rw [hsplit] at hmarks hfail ⊢
      rw [← hlength] at hfail
      exact ih hmarks hfail

/-- When a text is refused, the error names a place in the text. It is the place at fault, but
for two cases: the outermost open brace belongs to an interpolation, or no brace is open and
a parenthesis is closed after the last one opened. -/
theorem culprit_iff {t : Text} {e : StructuralError} (h : (locate t).2 = some e) :
    (∃ i : Nat, e.offset = i ∧ i < t.length) ∧
      (Culprit t e ↔ (e.kind = .unclosedBlock → ¬ OpenInterpolation t) ∧
        (e.kind = .unclosedParen → (∀ k, ¬ Unclosed Brackets.depth t k) →
          ¬ ClosedAfterLast t)) := by
  have hstart : Scan.Marks ([] ++ t) [] {} := by
    refine ⟨rfl, ?_, .inr rfl, fun _ => rfl, ?_, ?_⟩
    · intro q i hquote
      cases hquote
    · exact fun hdepth => absurd rfl hdepth
    · exact fun hparen => absurd rfl hparen
  rcases hstart.run_cases h with ⟨u, c, v, s, ht, hmarks, hstep⟩ | ⟨s, hmarks, hfinish⟩
  · obtain ⟨hkind, hoffset⟩ := Scan.of_step_error hstep
    obtain ⟨hclosed, rfl⟩ := Brackets.step_eq_none_iff.mp (Scan.brackets_step_eq_none hstep)
    rw [List.nil_append] at ht
    have hlt : u.length < t.length := by simp [ht]
    refine ⟨⟨u.length, hoffset, hlt⟩, ?_⟩
    rw [culprit_iff_atFault hoffset hlt, hkind, AtFault]
    have hbalanced : Balanced (t.take u.length) := by
      rw [ht, List.take_left]
      exact ⟨_, hmarks.run, hclosed⟩
    have hbyte : t[u.length]? = some (ch '\x7d') := by simp [ht]
    simp only [hbyte, hbalanced, reduceCtorEq, false_implies, and_self]
  · exact hmarks.culprit_iff_of_finish hfinish

/-- An open block is named at its brace. -/
theorem openBlock_culprit :
    (locate (of "a\x7bb")).2 = some ⟨.unclosedBlock, 1, of "a"⟩ ∧
      Culprit (of "a\x7bb") ⟨.unclosedBlock, 1, of "a"⟩ := by
  have hfail : (locate (of "a\x7bb")).2 = some ⟨.unclosedBlock, 1, of "a"⟩ := by decide
  have hplain : ∀ k < 3, afterHash (of "a\x7bb") k = false := by decide
  refine ⟨hfail, (culprit_iff hfail).2.mpr ⟨fun _ => ?_, fun hkind => by cases hkind⟩⟩
  rintro ⟨k, ⟨hk, -⟩, -, hhash⟩
  rw [hplain k hk] at hhash
  cases hhash

/-- Of an open interpolation the start of the text is named, where nothing is opened, and of
two parentheses the one that is closed. -/
theorem openInterpolation_not_culprit :
    ((locate (of "a: #\x7bb")).2 = some ⟨.unclosedBlock, 0, []⟩ ∧
        ¬ Culprit (of "a: #\x7bb") ⟨.unclosedBlock, 0, []⟩) ∧
      (locate (of "((b)")).2 = some ⟨.unclosedParen, 1, []⟩ ∧
        ¬ Culprit (of "((b)") ⟨.unclosedParen, 1, []⟩ := by
  refine ⟨⟨by decide, ?_⟩, by decide, ?_⟩
  · rw [culprit_iff_atFault (i := 0) rfl (by decide), AtFault]
    rintro ⟨-, b, hb, hstays⟩
    obtain ⟨b', hb', hmore⟩ := hstays 1 (by decide) (by decide)
    have hnothing : Brackets.upTo (of "a: #\x7bb") 1 = some {} := by decide
    obtain rfl := Option.some.inj (hb.symm.trans rfl)
    obtain rfl := Option.some.inj (hb'.symm.trans hnothing)
    exact absurd hmore (by decide)
  · rw [culprit_iff_atFault (i := 1) rfl (by decide), AtFault]
    have hrun : Brackets.run {} (of "((b)") = some { paren := 1 } := by decide
    intro hfault
    have hunclosed : Unclosed Brackets.paren (of "((b)") 1 := by
      refine hfault fun k hbrace => ?_
      obtain ⟨-, b, hb, -⟩ := id hbrace
      exact absurd (hbrace.lt hb hrun) (Nat.not_lt_zero _)
    have hone : Brackets.upTo (of "((b)") 1 = some { paren := 1 } := by decide
    exact absurd (hunclosed.lt hone hrun) (by decide)

end Stylesheet
