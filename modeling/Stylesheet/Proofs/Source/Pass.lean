import Stylesheet.Proofs.Source.Balance

/-!
# The moves of the pass

One byte moves the pass that finds blocks in one of ten ways. What the pass knows about the
text behind it is kept by all of them, so it is proved by going through them; the braces,
which find something, have their own cases.

## Main definitions

* `Brackets.upTo` — what is open at a place of a text
* `Scan.Moves` — what a byte does to the pass

## Main results

* `Scan.moves_of_step` — these are all the moves
* `Scan.openBrace_cases`, `Scan.closeBrace_cases`, `Scan.boundary_cases` — what braces and
  the ends of lines and declarations do
-/

namespace Stylesheet

open Text

/-! ### The recogniser on the way -/

namespace Brackets

/-- What is open before the byte at an offset. -/
def upTo (t : Text) (i : Nat) : Option Brackets := run {} (t.take i)

theorem upTo_append {t u : Text} {i : Nat} (h : i ≤ t.length) : upTo (t ++ u) i = upTo t i := by
  rw [upTo, upTo, List.take_append_of_le_length h]

theorem upTo_length (t : Text) : upTo t t.length = run {} t := by rw [upTo, List.take_length]

theorem upTo_succ {t : Text} {i : Nat} (h : i < t.length) :
    upTo t (i + 1) = (upTo t i).bind (·.step t[i]) := by
  rw [upTo, upTo, List.take_succ_eq_append_getElem h, run_append]
  simp

/-- What is open is known all along a text that is not refused. -/
theorem exists_upTo {t : Text} {b : Brackets} (h : run {} t = some b) (i : Nat) :
    ∃ b', upTo t i = some b' := by
  rw [← List.take_append_drop i t, run_append] at h
  obtain ⟨b', hb', -⟩ := Option.bind_eq_some_iff.mp h
  exact ⟨b', hb'⟩

end Brackets

/-! ### Moves -/

namespace Scan

/-- What the byte `c` at `i` does to the pass, and the blocks it completes. -/
inductive Moves (src : Text) (i : Nat) (c : UInt8) (s : Scan) : Scan → List Block → Prop
  | quoted {q : UInt8} {j : Nat} (escaped : Bool) (hquote : s.quote = some (q, j)) :
    Moves src i c s { s with escaped } []
  | unquote {q : UInt8} {j : Nat} (hquote : s.quote = some (q, j)) :
    Moves src i c s { s with quote := none } []
  | quote (hquote : s.quote = none) (hc : isQuote c = true) :
    Moves src i c s { s with quote := some (c, i) } []
  | open (hquote : s.quote = none) (hc : c = ch '(') :
    Moves src i c s { s with paren := s.paren + 1, line := none, safe := i + 1 } []
  | close (hquote : s.quote = none) (hc : c = ch ')') :
    Moves src i c s { s with paren := s.paren - 1 } []
  | enclosed (hquote : s.quote = none) (hopen : c ≠ ch '(') (hparen : s.paren ≠ 0) :
    Moves src i c s s []
  | openBrace (hquote : s.quote = none) (hparen : s.paren = 0) (hc : c = ch '\x7b') :
    Moves src i c s (s.openBrace src i).1 (s.openBrace src i).2
  | closeBrace (hquote : s.quote = none) (hparen : s.paren = 0) (hc : c = ch '\x7d')
      (hdepth : s.depth ≠ 0) :
    Moves src i c s (s.closeBrace src i).1 (s.closeBrace src i).2
  | boundary (hquote : s.quote = none) (hparen : s.paren = 0) (hdepth : s.depth = 0) :
    Moves src i c s (s.boundary src i c) []
  | inner (hquote : s.quote = none) (hparen : s.paren = 0) (hdepth : s.depth ≠ 0) :
    Moves src i c s s []

/-- Every step is one of the moves. -/
theorem moves_of_step {src : Text} {s s' : Scan} {i : Nat} {c : UInt8} {found : List Block}
    (h : s.step src i c = .ok (s', found)) : Moves src i c s s' found := by
  unfold step at h
  split at h
  -- inside quotes, where only the mark that opened them and a backslash count
  case h_1 q j hquote =>
    simp only [Except.ok.injEq, Prod.mk.injEq] at h
    obtain ⟨rfl, rfl⟩ := h
    split_ifs
    · exact .quoted _ hquote
    · exact .quoted _ hquote
    · exact .unquote hquote
    · exact .quoted s.escaped hquote
  case h_2 hquote =>
    -- the conditions stand in the order in which the pass tries them
    split_ifs at h with hq hopen hclose hparen hbrace hend hzero hdepth <;>
      simp only [Except.ok.injEq, Prod.mk.injEq] at h
    · obtain ⟨rfl, rfl⟩ := h
      exact .quote hquote hq
    · obtain ⟨rfl, rfl⟩ := h
      exact .open hquote hopen
    · obtain ⟨rfl, rfl⟩ := h
      exact .close hquote hclose
    · obtain ⟨rfl, rfl⟩ := h
      exact .enclosed hquote hopen (by omega)
    · have hmove : Moves src i c s (s.openBrace src i).1 (s.openBrace src i).2 :=
        .openBrace hquote (by omega) hbrace
      rwa [h] at hmove
    · have hmove : Moves src i c s (s.closeBrace src i).1 (s.closeBrace src i).2 :=
        .closeBrace hquote (by omega) hend hzero
      rwa [h] at hmove
    · obtain ⟨rfl, rfl⟩ := h
      exact .boundary hquote (by omega) hdepth
    · obtain ⟨rfl, rfl⟩ := h
      exact .inner hquote (by omega) hdepth

/-- An opening brace is one more, starts an interpolation, or ends a header, and then the
loose declarations before the header are released. -/
theorem openBrace_cases (src : Text) (s : Scan) (i : Nat) :
    (s.depth ≠ 0 ∧ s.openBrace src i = ({ s with depth := s.depth + 1 }, [])) ∨
      (s.depth = 0 ∧ afterHash src i = true ∧
        s.openBrace src i = ({ s with depth := 1, skip := true }, [])) ∨
      ∃ init loose, s.depth = 0 ∧ afterHash src i = false ∧
        init = (s.lineStarted src i).getD s.init ∧ loose = max s.loose init ∧
        s.openBrace src i = ({ s with depth := 1, start := i, init, loose, line := none },
          if s.loose < init then looseBlocks src s.loose init else []) := by
  by_cases hdepth : s.depth = 0
  · by_cases hhash : afterHash src i = true
    · exact .inr (.inl ⟨hdepth, hhash, by simp [openBrace, hdepth, hhash]⟩)
    · refine .inr (.inr ⟨_, _, hdepth, by simpa using hhash, rfl, rfl, ?_⟩)
      simp only [openBrace, if_pos hdepth, if_neg hhash]
      split_ifs with hloose
      · rw [Nat.max_eq_right (Nat.le_of_lt hloose)]
      · rw [Nat.max_eq_left (by omega)]
  · exact .inl ⟨hdepth, by simp [openBrace, hdepth]⟩

/-- A closing brace is one less, ends an interpolation, or ends a block. -/
theorem closeBrace_cases (src : Text) (s : Scan) (i : Nat) :
    (s.depth > 1 ∧ s.closeBrace src i = ({ s with depth := s.depth - 1 }, [])) ∨
      (s.depth ≤ 1 ∧ s.skip = true ∧
        s.closeBrace src i = ({ s with depth := 0, skip := false }, [])) ∨
      (s.depth ≤ 1 ∧ s.skip = false ∧
        s.closeBrace src i = ({ s with
          depth := 0, init := i + 1, safe := i + 1, loose := i + 1, line := none },
          s.finished src i)) := by
  by_cases hdepth : s.depth > 1
  · exact .inl ⟨hdepth, by simp [closeBrace, hdepth]⟩
  · cases hskip : s.skip with
    | true => exact .inr (.inl ⟨by omega, rfl, by simp [closeBrace, hdepth, hskip]⟩)
    | false => exact .inr (.inr ⟨by omega, rfl, by simp [closeBrace, hdepth, hskip]⟩)

/-- Where a header may start at an opening brace or a comma: where it started before, or at
the line under way. -/
theorem getD_lineStarted (src : Text) (s : Scan) (i : Nat) :
    (s.lineStarted src i).getD s.init = s.init ∨
      s.line = some ((s.lineStarted src i).getD s.init) := by
  unfold lineStarted
  cases s.line with
  | none => exact .inl rfl
  | some l =>
    dsimp only
    split_ifs
    · exact .inl rfl
    · exact .inr rfl

/-- At the top level a byte leaves the start of the header, moves it to the line under way, or
makes what follows the start of a header or a line. -/
theorem boundary_cases (src : Text) (s : Scan) (i : Nat) (c : UInt8) :
    ∃ init line safe, s.boundary src i c = { s with init, line, safe } ∧
      ((init = s.init ∧ (line = none ∨ line = s.line ∨ line = some (i + 1))) ∨
        (s.line = some init ∧ line = none) ∨ (init = i + 1 ∧ line = none)) := by
  by_cases hsemicolon : c = ch ';'
  · exact ⟨i + 1, none, i + 1, by rw [boundary, if_pos hsemicolon], .inr (.inr ⟨rfl, rfl⟩)⟩
  by_cases hcomma : c = ch ','
  · refine ⟨_, none, i + 1, by rw [boundary, if_neg hsemicolon, if_pos hcomma], ?_⟩
    rcases getD_lineStarted src s i with hinit | hline
    · exact .inl ⟨hinit, .inl rfl⟩
    · exact .inr (.inl ⟨hline, rfl⟩)
  -- a line end starts a line, or confirms that the line before it stood for itself
  by_cases hnewline : c = ch '\n'
  · rw [boundary, if_neg hsemicolon, if_neg hcomma, if_pos hnewline]
    cases hline : s.line with
    | none =>
      dsimp only
      split_ifs
      · exact ⟨s.init, s.line, s.safe, rfl, .inl ⟨rfl, .inl hline⟩⟩
      · exact ⟨s.init, some (i + 1), s.safe, rfl, .inl ⟨rfl, .inr (.inr rfl)⟩⟩
    | some l =>
      dsimp only
      split_ifs
      · exact ⟨s.init, s.line, s.safe, rfl, .inl ⟨rfl, .inr (.inl hline)⟩⟩
      · exact ⟨i + 1, none, s.safe, rfl, .inr (.inr ⟨rfl, rfl⟩)⟩
  · refine ⟨s.init, s.line, s.safe, ?_, .inl ⟨rfl, .inr (.inl rfl)⟩⟩
    rw [boundary, if_neg hsemicolon, if_neg hcomma, if_neg hnewline]

end Scan

end Stylesheet
