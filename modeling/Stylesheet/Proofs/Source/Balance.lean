import Stylesheet.Source.Block
import Stylesheet.Proofs.Text

/-!
# Balanced texts

Whether a text can be cut into blocks depends only on its quotes, parentheses and
braces. This file has a recogniser that keeps just those, shows that the pass that finds
blocks fails exactly where the recogniser does, and that the body of a block is balanced
whenever the block was found, however the text goes on.

The recogniser forgets where headers start. What makes the body of a block balanced is
that the pass, once inside the block, sees the body as a pass of its own would, one
brace deeper.

## Main definitions

* `Brackets` — what is open at a place of a text
* `Balanced` — everything that is opened is closed
* `Scan.Inside` — the pass inside a block agrees with a fresh one

## Main results

* `locate_eq_none_iff` — a text is cut into blocks without an error iff it is balanced
* `Balanced.trim` — white space at the ends does not matter
* `balanced_of_mem_locate` — the bodies of the blocks found are balanced
-/

namespace Stylesheet

open Text

/-! ### The recogniser -/

/-- What is open at a place of a text: a quote, parentheses, braces. -/
structure Brackets where
  quote : Option UInt8 := none
  /-- The next byte is escaped. -/
  escaped : Bool := false
  paren : Nat := 0
  depth : Nat := 0
  deriving DecidableEq

namespace Brackets

/-- Passes one byte. Braces count outside quotes and parentheses only; a closing brace
without a partner is refused. -/
def step (b : Brackets) (c : UInt8) : Option Brackets :=
  match b.quote with
  | some q =>
    if b.escaped then some { b with escaped := false }
    else if c = ch '\\' then some { b with escaped := true }
    else if c = q then some { b with quote := none }
    else some b
  | none =>
    if isQuote c then some { b with quote := some c }
    else if c = ch '(' then some { b with paren := b.paren + 1 }
    else if c = ch ')' then some { b with paren := b.paren - 1 }
    else if b.paren > 0 then some b
    else if c = ch '\x7b' then some { b with depth := b.depth + 1 }
    else if c = ch '\x7d' then if b.depth = 0 then none else some { b with depth := b.depth - 1 }
    else some b

/-- Passes a text. -/
def run (b : Brackets) (t : Text) : Option Brackets := t.foldlM step b

/-- Nothing is open. -/
def Closed (b : Brackets) : Prop := b.quote = none ∧ b.paren = 0 ∧ b.depth = 0

/-- One more brace is open around it. -/
def deeper (b : Brackets) : Brackets := { b with depth := b.depth + 1 }

@[simp] theorem run_nil (b : Brackets) : b.run [] = some b := rfl

@[simp] theorem run_cons (b : Brackets) (c : UInt8) (t : Text) :
    b.run (c :: t) = (b.step c).bind (·.run t) := rfl

theorem run_append (b : Brackets) (t u : Text) : b.run (t ++ u) = (b.run t).bind (·.run u) := by
  simp [run, List.foldlM_append]

end Brackets

/-- Everything that is opened in the text is closed, and nothing else. -/
def Balanced (t : Text) : Prop := ∃ b, Brackets.run {} t = some b ∧ b.Closed

/-! ### White space changes nothing -/

namespace Brackets

/-- White space is no bracket and no quotation mark. -/
theorem ne_of_inBlank {c d : UInt8} (hc : inBlank c) (hd : inBlank d = false) : c ≠ d := by
  rintro rfl
  simp [hc] at hd

theorem not_isQuote_of_inBlank {c : UInt8} (hc : inBlank c) : isQuote c = false := by
  have h1 : c ≠ ch '"' := ne_of_inBlank hc (by decide)
  have h2 : c ≠ ch '\'' := ne_of_inBlank hc (by decide)
  simp [isQuote, h1, h2]

/-- Outside quotes a byte of white space passes unnoticed. -/
theorem step_of_inBlank {b : Brackets} {c : UInt8} (hquote : b.quote = none)
    (hc : inBlank c) : b.step c = some b := by
  have h1 : c ≠ ch '(' := ne_of_inBlank hc (by decide)
  have h2 : c ≠ ch ')' := ne_of_inBlank hc (by decide)
  have h3 : c ≠ ch '\x7b' := ne_of_inBlank hc (by decide)
  have h4 : c ≠ ch '\x7d' := ne_of_inBlank hc (by decide)
  simp [step, hquote, not_isQuote_of_inBlank hc, h1, h2, h3, h4]

theorem run_of_inBlank {b : Brackets} {w : Text} (hquote : b.quote = none)
    (hw : ∀ c ∈ w, inBlank c) : b.run w = some b := by
  induction w with
  | nil => rfl
  | cons c w ih =>
    rw [run_cons, step_of_inBlank hquote (hw c List.mem_cons_self)]
    exact ih fun d hd => hw d (List.mem_cons_of_mem c hd)

/-- The open quote, if there is one, is a quotation mark, and only inside quotes is a byte
escaped. -/
structure Proper (b : Brackets) : Prop where
  isQuote : ∀ q, b.quote = some q → isQuote q
  escaped : b.quote = none → b.escaped = false

/-- What a byte outside quotes does: it opens a quote, or it changes a count at most. -/
theorem step_outside {b b' : Brackets} {c : UInt8} (hquote : b.quote = none)
    (h : b.step c = some b') :
    (isQuote c = true ∧ b'.quote = some c) ∨ b'.quote = none ∧ b'.escaped = b.escaped := by
  rw [step, hquote] at h
  dsimp only at h
  by_cases hq : isQuote c = true
  · rw [if_pos hq] at h
    cases h
    exact .inl ⟨hq, rfl⟩
  · rw [if_neg hq] at h
    refine .inr ?_
    repeat' split at h
    all_goals cases h
    · exact ⟨rfl, rfl⟩
    · exact ⟨rfl, rfl⟩
    · exact ⟨hquote, rfl⟩
    · exact ⟨rfl, rfl⟩
    · exact ⟨rfl, rfl⟩
    · exact ⟨hquote, rfl⟩

/-- What a byte inside quotes does: it may end the quote, and it may escape the next. -/
theorem step_inside {b b' : Brackets} {c q : UInt8} (hquote : b.quote = some q)
    (h : b.step c = some b') :
    b'.quote = some q ∨ b'.quote = none ∧ b'.escaped = false := by
  rw [step, hquote] at h
  dsimp only at h
  by_cases hescaped : b.escaped = true
  · rw [if_pos hescaped] at h
    cases h
    exact .inl rfl
  · rw [if_neg hescaped] at h
    split_ifs at h
    · cases h
      exact .inl rfl
    · cases h
      exact .inr ⟨rfl, Bool.eq_false_iff.mpr hescaped⟩
    · cases h
      exact .inl hquote

theorem Proper.step {b b' : Brackets} {c : UInt8} (h : b.Proper) (hstep : b.step c = some b') :
    b'.Proper := by
  cases hquote : b.quote with
  | none =>
    -- Outside quotes the byte can only be the mark of a new one, and then nothing is escaped yet.
    rcases step_outside hquote hstep with ⟨hq, hopened⟩ | ⟨hnone, hsame⟩
    · refine ⟨fun q heq => ?_, fun hnone => ?_⟩
      · cases hopened.symm.trans heq
        exact hq
      · cases hopened.symm.trans hnone
    · refine ⟨fun q heq => ?_, fun _ => hsame.trans (h.escaped hquote)⟩
      cases hnone.symm.trans heq
  | some q =>
    -- Inside quotes it stays the mark it was, or the quote ends and nothing escaped is left over.
    rcases step_inside hquote hstep with hsame | ⟨hnone, hescaped⟩
    · refine ⟨fun p heq => ?_, fun hnone => ?_⟩
      · exact h.isQuote p (hquote.trans (hsame.symm.trans heq))
      · cases hsame.symm.trans hnone
    · refine ⟨fun p heq => ?_, fun _ => hescaped⟩
      cases hnone.symm.trans heq

theorem Proper.run {b b' : Brackets} {t : Text} (h : b.Proper) (hrun : b.run t = some b') :
    b'.Proper := by
  induction t generalizing b with
  | nil =>
    obtain rfl := Option.some.inj hrun
    exact h
  | cons c t ih =>
    obtain ⟨b₁, hstep, hrest⟩ := Option.bind_eq_some_iff.mp (run_cons b c t ▸ hrun)
    exact ih (h.step hstep) hrest

theorem proper_empty : Proper {} := ⟨by simp, fun _ => rfl⟩

/-- White space does not close a quote: if none is open after it, none was before. -/
theorem quote_of_run_of_inBlank {b b' : Brackets} {w : Text} (h : b.Proper)
    (hw : ∀ c ∈ w, inBlank c) (hrun : b.run w = some b') (hquote : b'.quote = none) :
    b.quote = none := by
  -- Backwards through the blanks: none is open after the first of them, so none before it.
  induction w generalizing b with
  | nil =>
    obtain rfl := Option.some.inj hrun
    exact hquote
  | cons c w ih =>
    obtain ⟨b₁, hstep, hrest⟩ := Option.bind_eq_some_iff.mp (run_cons b c w ▸ hrun)
    have hb₁ : b₁.quote = none :=
      ih (h.step hstep) (fun d hd => hw d (List.mem_cons_of_mem c hd)) hrest
    cases hb : b.quote with
    | none => rfl
    | some q =>
      -- The blank byte is no mark, so it is not the one that closes the quote.
      have hne : c ≠ q := by
        rintro rfl
        simpa [not_isQuote_of_inBlank (hw c List.mem_cons_self)] using h.isQuote c hb
      simp only [Brackets.step, hb] at hstep
      split_ifs at hstep <;> obtain rfl := Option.some.inj hstep <;> simp_all

end Brackets

/-- White space at the ends does not matter. -/
theorem Balanced.trim {t : Text} (h : Balanced t) : Balanced (trim t) := by
  obtain ⟨w, v, ht, hw, hv⟩ := exists_trim_eq t
  obtain ⟨b, hrun, hclosed⟩ := h
  rw [ht, List.append_assoc, Brackets.run_append, Brackets.run_of_inBlank rfl hw,
    Option.bind_some, Brackets.run_append] at hrun
  obtain ⟨b₁, htrim, hrest⟩ := Option.bind_eq_some_iff.mp hrun
  have hproper : b₁.Proper := Brackets.proper_empty.run htrim
  -- what is dropped at the end leaves the recogniser where it was
  have hquote := Brackets.quote_of_run_of_inBlank hproper hv hrest hclosed.1
  rw [Brackets.run_of_inBlank hquote hv] at hrest
  obtain rfl := Option.some.inj hrest
  exact ⟨b₁, htrim, hclosed⟩

/-! ### The pass and the recogniser -/

namespace Scan

/-- What is open in a state of the pass. -/
def brackets (s : Scan) : Brackets :=
  { quote := s.quote.map (·.1), escaped := s.escaped, paren := s.paren, depth := s.depth }

theorem brackets_openBrace (src : Text) (s : Scan) (i : Nat) :
    (s.openBrace src i).1.brackets = s.brackets.deeper := by
  by_cases hdepth : s.depth = 0
  · simp only [openBrace, if_pos hdepth]
    split_ifs <;> simp [brackets, Brackets.deeper, hdepth]
  · simp [openBrace, brackets, Brackets.deeper, hdepth]

theorem brackets_closeBrace (src : Text) (s : Scan) (i : Nat) :
    (s.closeBrace src i).1.brackets = { s.brackets with depth := s.depth - 1 } := by
  by_cases hdeep : s.depth > 1
  · simp [closeBrace, brackets, hdeep]
  · have hzero : s.depth - 1 = 0 := by omega
    by_cases hskip : s.skip <;> simp [closeBrace, brackets, hdeep, hskip, hzero]

/-- A byte at the top level that is no bracket only moves the places where a header or a
line starts. -/
theorem boundary_eq (src : Text) (s : Scan) (i : Nat) (c : UInt8) :
    ∃ init line safe, s.boundary src i c = { s with init, line, safe } := by
  unfold boundary
  cases s.line with
  | none =>
    dsimp only
    split_ifs <;> exact ⟨_, _, _, rfl⟩
  | some l =>
    dsimp only
    split_ifs <;> exact ⟨_, _, _, rfl⟩

/-- What a byte outside quotes does to the pass and to the recogniser: it leaves the depth,
opens a brace, closes one, or is refused by both. -/
theorem step_outside (src : Text) {s : Scan} (i : Nat) (c : UInt8) (hquote : s.quote = none) :
    (∃ s', s.step src i c = .ok (s', []) ∧ s.brackets.step c = some s'.brackets ∧
      s'.depth = s.depth ∧ s'.start = s.start ∧ s'.skip = s.skip) ∨
    (s.paren = 0 ∧ s.step src i c = .ok (s.openBrace src i) ∧
      s.brackets.step c = some s.brackets.deeper) ∨
    (s.paren = 0 ∧ s.depth ≠ 0 ∧ s.step src i c = .ok (s.closeBrace src i) ∧
      s.brackets.step c = some { s.brackets with depth := s.depth - 1 }) ∨
    ∃ e, s.step src i c = .error e ∧ s.brackets.step c = none := by
  have hnone : s.brackets.quote = none := by rw [brackets, hquote, Option.map_none]
  generalize hx : s.step src i c = x
  generalize hy : s.brackets.step c = y
  rw [step, hquote] at hx
  rw [Brackets.step, hnone] at hy
  dsimp only at hx hy
  -- Both decide in the same order, so one chain of cases serves them together.
  by_cases hq : isQuote c = true
  · rw [if_pos hq] at hx hy
    subst hx hy
    exact .inl ⟨_, rfl, rfl, rfl, rfl, rfl⟩
  rw [if_neg hq] at hx hy
  by_cases hopen : c = ch '('
  · rw [if_pos hopen] at hx hy
    subst hx hy
    exact .inl ⟨_, rfl, rfl, rfl, rfl, rfl⟩
  rw [if_neg hopen] at hx hy
  by_cases hclose : c = ch ')'
  · rw [if_pos hclose] at hx hy
    subst hx hy
    exact .inl ⟨_, rfl, rfl, rfl, rfl, rfl⟩
  rw [if_neg hclose] at hx hy
  by_cases hparen : s.paren > 0
  · rw [if_pos hparen] at hx
    rw [if_pos (show s.brackets.paren > 0 from hparen)] at hy
    subst hx hy
    exact .inl ⟨_, rfl, rfl, rfl, rfl, rfl⟩
  have hzero : s.paren = 0 := by omega
  rw [if_neg hparen] at hx
  rw [if_neg (show ¬ s.brackets.paren > 0 from hparen)] at hy
  by_cases hbrace : c = ch '\x7b'
  · rw [if_pos hbrace] at hx hy
    subst hx hy
    exact .inr (.inl ⟨hzero, rfl, by simp only [Brackets.deeper, hnone]⟩)
  rw [if_neg hbrace] at hx hy
  by_cases hend : c = ch '\x7d'
  · rw [if_pos hend] at hx hy
    by_cases hdepth : s.depth = 0
    · rw [if_pos hdepth] at hx
      rw [if_pos (show s.brackets.depth = 0 from hdepth)] at hy
      subst hx hy
      exact .inr (.inr (.inr ⟨_, rfl, rfl⟩))
    · rw [if_neg hdepth] at hx
      rw [if_neg (show ¬ s.brackets.depth = 0 from hdepth)] at hy
      subst hx hy
      exact .inr (.inr (.inl ⟨hzero, hdepth, rfl, by simp only [hnone]; rfl⟩))
  rw [if_neg hend] at hx hy
  subst hy
  by_cases hdepth : s.depth = 0
  · rw [if_pos hdepth] at hx
    subst hx
    -- At the top level the pass moves its places only, and the recogniser does not see them.
    obtain ⟨init, line, safe, hboundary⟩ := boundary_eq src s i c
    rw [hboundary]
    exact .inl ⟨_, rfl, rfl, rfl, rfl, rfl⟩
  · rw [if_neg hdepth] at hx
    subst hx
    exact .inl ⟨_, rfl, rfl, rfl, rfl, rfl⟩

/-- Inside quotes the pass finds nothing and moves as the recogniser does. -/
theorem step_inside (src : Text) {s : Scan} (i : Nat) (c : UInt8) (hquote : s.quote ≠ none) :
    ∃ s', s.step src i c = .ok (s', []) ∧ s.brackets.step c = some s'.brackets ∧
      s'.depth = s.depth ∧ s'.start = s.start ∧ s'.skip = s.skip := by
  obtain ⟨⟨q, j⟩, hq⟩ := Option.ne_none_iff_exists'.mp hquote
  have hsome : s.brackets.quote = some q := by rw [brackets, hq, Option.map_some]
  rw [step, hq, Brackets.step, hsome]
  refine ⟨_, rfl, ?_⟩
  dsimp only
  have hescaped : s.brackets.escaped = s.escaped := rfl
  rw [hescaped]
  split_ifs
  · exact ⟨rfl, rfl, rfl, rfl⟩
  · exact ⟨rfl, rfl, rfl, rfl⟩
  · exact ⟨rfl, rfl, rfl, rfl⟩
  · exact ⟨rfl, rfl, rfl, rfl⟩

/-- The pass moves as the recogniser does. -/
theorem brackets_step {src : Text} {s s' : Scan} {i : Nat} {c : UInt8} {found : List Block}
    (h : s.step src i c = .ok (s', found)) : s.brackets.step c = some s'.brackets := by
  by_cases hquote : s.quote = none
  · rcases step_outside src i c hquote with
      ⟨t, hstep, hmoves, -⟩ | ⟨-, hstep, hmoves⟩ | ⟨-, -, hstep, hmoves⟩ | ⟨e, hstep, -⟩
    · cases hstep.symm.trans h
      exact hmoves
    · have hs : s.openBrace src i = (s', found) := Except.ok.inj (hstep.symm.trans h)
      rw [hmoves, ← brackets_openBrace src s i, hs]
    · have hs : s.closeBrace src i = (s', found) := Except.ok.inj (hstep.symm.trans h)
      rw [hmoves, ← brackets_closeBrace src s i, hs]
    · cases hstep.symm.trans h
  · obtain ⟨t, hstep, hmoves, -⟩ := step_inside src i c hquote
    cases hstep.symm.trans h
    exact hmoves

/-- Where the pass stops, the recogniser refuses. -/
theorem brackets_step_eq_none {src : Text} {s : Scan} {i : Nat} {c : UInt8}
    {e : StructuralError} (h : s.step src i c = .error e) : s.brackets.step c = none := by
  by_cases hquote : s.quote = none
  · rcases step_outside src i c hquote with
      ⟨t, hstep, -⟩ | ⟨-, hstep, -⟩ | ⟨-, -, hstep, -⟩ | ⟨e, -, hrefused⟩
    · cases hstep.symm.trans h
    · cases hstep.symm.trans h
    · cases hstep.symm.trans h
    · exact hrefused
  · obtain ⟨t, hstep, -⟩ := step_inside src i c hquote
    cases hstep.symm.trans h

theorem finish_eq_none_iff (src : Text) (s : Scan) :
    (s.finish src).2 = none ↔ s.brackets.Closed := by
  unfold finish Brackets.Closed brackets
  cases s.quote with
  | none => dsimp only; split_ifs <;> simp <;> omega
  | some p => dsimp only; split_ifs <;> simp

/-- The rest of a text is cut without an error iff the recogniser closes what is open. -/
theorem run_eq_none_iff (src : Text) (rest : Text) (s : Scan) (i : Nat) :
    (run src s i rest).2 = none ↔ ∃ b, s.brackets.run rest = some b ∧ b.Closed := by
  -- Both go on from a state of their own, so that of the pass and its offset are general.
  induction rest generalizing s i with
  | nil => simp [run, finish_eq_none_iff]
  | cons c rest ih =>
    rw [run, Brackets.run_cons]
    cases hstep : s.step src i c with
    | error e => simp [brackets_step_eq_none hstep]
    | ok r =>
      obtain ⟨s', found⟩ := r
      simp only [brackets_step hstep, Option.bind_some]
      exact ih s' (i + 1)

end Scan

/-- A text is cut into blocks without an error exactly if it is balanced. -/
theorem locate_eq_none_iff {t : Text} : (locate t).2 = none ↔ Balanced t :=
  Scan.run_eq_none_iff t t {} 0

/-! ### The bodies of blocks -/

namespace Brackets

/-- Below a brace that stays open the recogniser does what it does without it. -/
theorem step_of_step_deeper {b d : Brackets} {c : UInt8} (h : b.deeper.step c = some d)
    (hdepth : d.depth ≠ 0) : ∃ b', b.step c = some b' ∧ d = b'.deeper := by
  cases hquote : b.quote with
  | some q =>
    simp only [step, deeper, hquote] at h ⊢
    split_ifs at h ⊢ <;> simp_all
  | none =>
    have hdeeper : b.deeper.quote = none := hquote
    -- The tests are the same in the same order, and only that of a closing brace asks for the
    -- depth.
    generalize hy : b.step c = y
    rw [step, hdeeper] at h
    rw [step, hquote] at hy
    dsimp only at h hy
    by_cases hq : isQuote c = true
    · rw [if_pos hq] at h hy
      subst hy
      cases h
      exact ⟨_, rfl, rfl⟩
    rw [if_neg hq] at h hy
    by_cases hopen : c = ch '('
    · rw [if_pos hopen] at h hy
      subst hy
      cases h
      exact ⟨_, rfl, rfl⟩
    rw [if_neg hopen] at h hy
    by_cases hclose : c = ch ')'
    · rw [if_pos hclose] at h hy
      subst hy
      cases h
      exact ⟨_, rfl, rfl⟩
    rw [if_neg hclose] at h hy
    by_cases hparen : b.paren > 0
    · rw [if_pos (show b.deeper.paren > 0 from hparen)] at h
      rw [if_pos hparen] at hy
      subst hy
      cases h
      exact ⟨_, rfl, rfl⟩
    rw [if_neg (show ¬ b.deeper.paren > 0 from hparen)] at h
    rw [if_neg hparen] at hy
    by_cases hbrace : c = ch '\x7b'
    · rw [if_pos hbrace] at h hy
      subst hy
      cases h
      exact ⟨_, rfl, rfl⟩
    rw [if_neg hbrace] at h hy
    by_cases hend : c = ch '\x7d'
    · rw [if_pos hend, if_neg (show ¬ b.deeper.depth = 0 from b.depth.succ_ne_zero)] at h
      cases h
      -- The brace around is still open, so the one that closes is another.
      have hinner : b.depth ≠ 0 := hdepth
      rw [if_pos hend, if_neg hinner] at hy
      subst hy
      have hcount : b.deeper.depth - 1 = b.depth - 1 + 1 := by
        change b.depth + 1 - 1 = b.depth - 1 + 1
        omega
      exact ⟨_, rfl, by rw [hcount]; rfl⟩
    · rw [if_neg hend] at h hy
      subst hy
      cases h
      exact ⟨_, rfl, rfl⟩

end Brackets

namespace Scan

/-- What a byte can do to the depth: leave it, open a brace, or close one. -/
theorem step_cases {src : Text} {s s' : Scan} {i : Nat} {c : UInt8} {found : List Block}
    (h : s.step src i c = .ok (s', found)) :
    (found = [] ∧ s'.depth = s.depth ∧ s'.start = s.start ∧ s'.skip = s.skip) ∨
      (s.quote = none ∧ s.paren = 0 ∧ s.openBrace src i = (s', found)) ∨
      (s.quote = none ∧ s.paren = 0 ∧ s.depth ≠ 0 ∧ s.closeBrace src i = (s', found)) := by
  by_cases hquote : s.quote = none
  · rcases step_outside src i c hquote with
      ⟨t, hstep, -, hkeeps⟩ | ⟨hparen, hstep, -⟩ | ⟨hparen, hdepth, hstep, -⟩ | ⟨e, hstep, -⟩
    · cases hstep.symm.trans h
      exact .inl ⟨rfl, hkeeps⟩
    · exact .inr (.inl ⟨hquote, hparen, Except.ok.inj (hstep.symm.trans h)⟩)
    · exact .inr (.inr ⟨hquote, hparen, hdepth, Except.ok.inj (hstep.symm.trans h)⟩)
    · cases hstep.symm.trans h
  · obtain ⟨t, hstep, -, hkeeps⟩ := step_inside src i c hquote
    cases hstep.symm.trans h
    exact .inl ⟨rfl, hkeeps⟩

/-- Inside a block the pass is where a pass over the body so far would be, one brace
deeper. An interpolation is no block. -/
structure Inside (src : Text) (s : Scan) (i : Nat) : Prop where
  proper : s.brackets.Proper
  body : s.depth ≠ 0 → s.skip = false →
    s.start < i ∧ ∃ b, Brackets.run {} (slice src (s.start + 1) i) = some b ∧ s.brackets = b.deeper

/-- A loose declaration has no body. -/
theorem body_of_mem_looseParts {offset : Nat} {parts : List Text} {b : Block}
    (h : b ∈ looseParts offset parts) : b.body = none := by
  induction parts generalizing offset with
  | nil => simp [looseParts] at h
  | cons part rest ih =>
    simp only [looseParts] at h
    split_ifs at h
    · exact ih h
    · rcases List.mem_cons.mp h with rfl | h
      · rfl
      · exact ih h

theorem body_of_mem_openBrace {src : Text} {s : Scan} {i : Nat} {b : Block}
    (h : b ∈ (s.openBrace src i).2) : b.body = none := by
  unfold openBrace at h
  split_ifs at h with hdepth hhash
  · simp at h
  · dsimp only at h
    split_ifs at h
    · exact body_of_mem_looseParts h
    · simp at h
  · simp at h

/-- An opening brace starts a body with nothing in it yet. -/
theorem Inside.openBrace {src : Text} {s : Scan} {i : Nat} (hproper : s.brackets.Proper)
    (hquote : s.quote = none) (hparen : s.paren = 0) (hdepth : s.depth = 0) :
    Inside src (s.openBrace src i).1 (i + 1) := by
  -- At the top level, outside quotes and parentheses, nothing at all is open before the brace.
  have hempty : s.brackets = {} := by
    have := hproper.escaped (by simp [brackets, hquote])
    simp_all [brackets]
  have hbrackets : (s.openBrace src i).1.brackets = Brackets.deeper {} := by
    rw [brackets_openBrace, hempty]
  refine ⟨hbrackets ▸ ⟨by simp [Brackets.deeper], fun _ => rfl⟩, fun _ hskip => ?_⟩
  have hstart : (s.openBrace src i).1.start = i := by
    simp only [Scan.openBrace, if_pos hdepth] at hskip ⊢
    split_ifs at hskip ⊢ <;> simp_all
  rw [hstart, slice_self]
  exact ⟨by omega, {}, rfl, hbrackets⟩

/-- The block that ends at a closing brace has a balanced body. -/
theorem Inside.balanced_of_mem_finished {src : Text} {s : Scan} {i : Nat} (h : Inside src s i)
    (hquote : s.quote = none) (hparen : s.paren = 0) (hdepth : s.depth = 1)
    (hskip : s.skip = false) {b : Block} (hb : b ∈ s.finished src i) {body : Text}
    (hbody : b.body = some body) : Balanced body := by
  obtain ⟨-, inner, hrun, heq⟩ := h.body (by omega) hskip
  have hclosed : inner.Closed := by
    simp only [brackets, Brackets.deeper, Brackets.mk.injEq] at heq
    obtain ⟨hq, -, hp, hd⟩ := heq
    exact ⟨by simp [← hq, hquote], by omega, by omega⟩
  simp only [finished] at hb
  split_ifs at hb
  · simp at hb
  · obtain rfl := List.mem_singleton.mp hb
    obtain rfl := Option.some.inj hbody
    exact Balanced.trim ⟨inner, hrun, hclosed⟩

/-- One byte: inside a block the agreement with a fresh pass goes on, and a block that is
completed has a balanced body. -/
theorem Inside.step {before after : Text} {s s' : Scan} {c : UInt8} {found : List Block}
    (h : Inside (before ++ c :: after) s before.length)
    (hstep : s.step (before ++ c :: after) before.length c = .ok (s', found)) :
    Inside (before ++ c :: after) s' (before.length + 1) ∧
      ∀ b ∈ found, ∀ body, b.body = some body → Balanced body := by
  have hbrackets := brackets_step hstep
  have hproper := h.proper.step hbrackets
  -- a brace that is open before and after the byte leaves both passes in step
  have hstays (hdepth : s.depth ≠ 0) (hdepth' : s'.depth ≠ 0) (hstart : s'.start = s.start)
      (hskip : s'.skip = s.skip) : Inside (before ++ c :: after) s' (before.length + 1) := by
    refine ⟨hproper, fun _ hnoskip => ?_⟩
    obtain ⟨hlt, b, hb, heq⟩ := h.body hdepth (hskip ▸ hnoskip)
    rw [heq] at hbrackets
    obtain ⟨b', hb', heq'⟩ := Brackets.step_of_step_deeper hbrackets hdepth'
    refine ⟨by omega, b', ?_, heq'⟩
    rw [hstart, slice_succ (by omega), Brackets.run_append, hb]
    simp [hb']
  -- The byte leaves the depth as it is, opens a brace, or closes one.
  rcases step_cases hstep with ⟨rfl, hdepth, hstart, hskip⟩ | ⟨hquote, hparen, hopen⟩ |
    ⟨hquote, hparen, hdepth, hclose⟩
  · refine ⟨?_, by simp⟩
    by_cases hzero : s.depth = 0
    · exact ⟨hproper, fun hdepth' => absurd (hdepth.trans hzero) hdepth'⟩
    · exact hstays hzero (hdepth ▸ hzero) hstart hskip
  · have hfound : ∀ b ∈ found, b.body = none :=
      fun b hb => body_of_mem_openBrace (s := s) (by rwa [hopen])
    refine ⟨?_, fun b hb body hbody => by simp [hfound b hb] at hbody⟩
    by_cases hzero : s.depth = 0
    · -- the brace of a new block, with nothing in its body yet
      have hinside : Inside (before ++ c :: after)
          (s.openBrace (before ++ c :: after) before.length).1 (before.length + 1) :=
        Inside.openBrace h.proper hquote hparen hzero
      rwa [hopen] at hinside
    · simp only [Scan.openBrace, if_neg hzero] at hopen
      obtain ⟨rfl, rfl⟩ := Prod.mk.inj hopen
      exact hstays hzero (by simp) rfl rfl
  · by_cases hdeep : s.depth > 1
    · simp only [closeBrace, if_pos hdeep] at hclose
      obtain ⟨rfl, rfl⟩ := Prod.mk.inj hclose
      exact ⟨hstays hdepth (by simp; omega) rfl rfl, by simp⟩
    · -- the last open brace: that of an interpolation, or the end of the block
      have hlast : s.depth = 1 := by omega
      simp only [closeBrace, if_neg hdeep] at hclose
      split_ifs at hclose with hskip
      · obtain ⟨rfl, rfl⟩ := Prod.mk.inj hclose
        exact ⟨⟨hproper, fun h0 => absurd rfl h0⟩, by simp⟩
      · obtain ⟨rfl, rfl⟩ := Prod.mk.inj hclose
        refine ⟨⟨hproper, fun h0 => absurd rfl h0⟩, fun b hb body hbody => ?_⟩
        exact h.balanced_of_mem_finished hquote hparen hlast (by simpa using hskip) hb hbody

/-- The end of the text yields loose declarations only. -/
theorem mem_looseBlocks_of_mem_finish {src : Text} {s : Scan} {b : Block}
    (h : b ∈ (s.finish src).1) : b ∈ looseBlocks src s.loose src.length := by
  by_cases hdepth : s.depth > 0
  · simp only [finish, if_pos hdepth] at h
    cases hquote : s.quote <;> simp only [hquote] at h <;> split_ifs at h <;> simp at h
  · simp only [finish, if_neg hdepth] at h
    cases hquote : s.quote with
    | none =>
      simp only [hquote] at h
      split_ifs at h
      · simp at h
      · exact h
    | some p => simp [hquote] at h

theorem body_of_mem_finish {src : Text} {s : Scan} {b : Block} (h : b ∈ (s.finish src).1) :
    b.body = none :=
  body_of_mem_looseParts (mem_looseBlocks_of_mem_finish h)

/-- The whole pass: every block it finds has a balanced body, whether or not it fails
later. -/
theorem Inside.run {rest before : Text} {s : Scan}
    (h : Inside (before ++ rest) s before.length) {b : Block}
    (hb : b ∈ (Scan.run (before ++ rest) s before.length rest).1) {body : Text}
    (hbody : b.body = some body) : Balanced body := by
  -- What was passed grows at its end as the rest gets shorter; together they stay the same text.
  induction rest generalizing before s with
  | nil => simp [body_of_mem_finish hb] at hbody
  | cons c rest ih =>
    rw [Scan.run] at hb
    cases hstep : s.step (before ++ c :: rest) before.length c with
    | error e => simp [hstep] at hb
    | ok r =>
      obtain ⟨s', found⟩ := r
      obtain ⟨hinside, hfound⟩ := h.step hstep
      simp only [hstep, List.mem_append] at hb
      rcases hb with hb | hb
      · exact hfound b hb body hbody
      · have hlength : (before ++ [c]).length = before.length + 1 := by simp
        have hsplit : before ++ c :: rest = before ++ [c] ++ rest := by simp
        rw [hsplit, ← hlength] at hinside hb
        exact ih hinside hb

end Scan

/-- The body of a block is balanced, even if the text the block was found in is not. -/
theorem balanced_of_mem_locate {t body : Text} {b : Block} (hb : b ∈ (locate t).1)
    (hbody : b.body = some body) : Balanced body := by
  have hstart : Scan.Inside ([] ++ t) {} ([] : Text).length :=
    ⟨Brackets.proper_empty, fun hdepth => absurd rfl hdepth⟩
  exact hstart.run hb hbody

end Stylesheet
