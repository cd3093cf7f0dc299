import Stylesheet.Proofs.Source.Joined
import Stylesheet.Proofs.Source.Sections
import Stylesheet.Proofs.Text.Collapse

/-!
# The headers of sections

The header of a block is what the pass takes of the lead before it: all of the lead, or what
is left of it after a line that stands for itself. Which part that is depends on the lead
alone, and not on where the lead stands or on the body after it. So the blocks of a text are
those of its sections, each taken by itself, and a lead on one line is a header as a whole.

## Main definitions

* `braced` — the headers and bodies of the blocks of a text that have a body
* `headersOf` — the header a lead gives, if it gives one

## Main results

* `Sections.braced_eq` — the blocks of a text are those of its sections
* `headersOf_of_line` — the header of a lead on one line
-/

namespace Stylesheet

open Text

/-- The header and the body of a block that has one. -/
def Block.braced? (b : Block) : Option (Text × Text) := b.body.map (b.header, ·)

/-- The headers and bodies of the blocks that have a body. -/
def bracedOf (bs : List Block) : List (Text × Text) := bs.filterMap Block.braced?

/-- The headers and bodies of the blocks of a text that have a body. -/
def braced (t : Text) : List (Text × Text) := bracedOf (locate t).1

/-- The headers of the block that a lead is followed by, of which there is one at most. -/
def headersOf (u : Text) : List Text := (braced (u ++ [ch '\x7b', ch '\x7d'])).map (·.1)

theorem bracedOf_append (bs cs : List Block) :
    bracedOf (bs ++ cs) = bracedOf bs ++ bracedOf cs := List.filterMap_append

theorem bracedOf_eq_nil {bs : List Block} (h : ∀ b ∈ bs, b.body = none) : bracedOf bs = [] := by
  rw [bracedOf, List.filterMap_eq_nil_iff]
  intro b hb
  rw [Block.braced?, h b hb]
  rfl

namespace Scan

/-! ### The pass over a lead -/

/-- Only an interpolation is open. -/
def Interpolating (s : Scan) : Prop := s.depth ≠ 0 → s.skip = true

/-- A byte of an unbroken text, for the pass that has come to it: at the top level it is no
semicolon and opens an interpolation at most. -/
def Passable (src : Text) (s : Scan) (i : Nat) (c : UInt8) : Prop :=
  s.quote = none → s.paren = 0 → s.depth = 0 → isUnbroken (afterHash src i) c = true

/-- In an unbroken text the pass completes no block. What it takes for the start of the header
stays, but for the bytes at the top level. -/
theorem Interpolating.step {src : Text} {s s' : Scan} {i : Nat} {c : UInt8} {found : List Block}
    (h : s.Interpolating) (hc : s.Passable src i c) (hstep : s.step src i c = .ok (s', found)) :
    found = [] ∧ s'.Interpolating ∧
      (s'.init = s.init ∧ (s'.line = s.line ∨ s'.line = none) ∨
        s.quote = none ∧ s.paren = 0 ∧ s.depth = 0 ∧ c ≠ ch ';' ∧ s' = s.boundary src i c) := by
  cases moves_of_step hstep with
  | «open» hquote hc' => exact ⟨rfl, h, .inl ⟨rfl, .inr rfl⟩⟩
  | openBrace hquote hparen hc' =>
    rcases openBrace_cases src s i with ⟨hdeep, heq⟩ | ⟨-, -, heq⟩ | ⟨-, -, htop, hhash, -⟩
    · rw [heq]
      exact ⟨rfl, fun _ => h hdeep, .inl ⟨rfl, .inl rfl⟩⟩
    · rw [heq]
      exact ⟨rfl, fun _ => rfl, .inl ⟨rfl, .inl rfl⟩⟩
    · -- a brace that opens a block is not passable
      have hgoes := hc hquote hparen htop
      rw [hhash, hc'] at hgoes
      cases hgoes
  | closeBrace hquote hparen hc' hdepth =>
    rcases closeBrace_cases src s i with ⟨-, heq⟩ | ⟨-, -, heq⟩ | ⟨-, hskip, -⟩
    · rw [heq]
      exact ⟨rfl, fun _ => h hdepth, .inl ⟨rfl, .inl rfl⟩⟩
    · rw [heq]
      exact ⟨rfl, fun hopen => absurd rfl hopen, .inl ⟨rfl, .inl rfl⟩⟩
    · -- only a block would be completed here, and none is open
      cases (h hdepth).symm.trans hskip
  | boundary hquote hparen hdepth =>
    have hsemicolon : c ≠ ch ';' := by
      rintro rfl
      cases hc hquote hparen hdepth
    obtain ⟨init, line, safe, heq⟩ := boundary_eq src s i c
    refine ⟨rfl, ?_, .inr ⟨hquote, hparen, hdepth, hsemicolon, rfl⟩⟩
    rw [heq]
    exact h
  | _ => exact ⟨rfl, h, .inl ⟨rfl, .inl rfl⟩⟩

/-- What is so at the start of an unbroken text, and is kept byte by byte, is so at its end,
where nothing is open. -/
theorem exists_pass_of_unbroken {u : Text} (hu : Unbroken u) {I : Text → Scan → Prop}
    (hstart : I [] {})
    (hkept : ∀ done c rest s s', u = done ++ c :: rest → I done s → Cursors u done.length s →
      s.Interpolating → s.Passable u done.length c → s.step u done.length c = .ok (s', []) →
      I (done ++ [c]) s') :
    ∃ s, pass u {} 0 u = ([], .ok s) ∧ s.brackets = {} ∧ s.skip = false ∧ I u s := by
  have hprefix : ∀ done rest, u = done ++ rest → ∃ s, pass u {} 0 done = ([], .ok s) ∧
      Cursors u done.length s ∧ s.Interpolating ∧ I done s := by
    -- byte by byte from the left: the invariant speaks of what has been passed
    intro done
    induction done using List.reverseRecOn with
    | nil => exact fun rest _ => ⟨{}, rfl, cursors_empty u, fun hopen => absurd rfl hopen, hstart⟩
    | append_singleton done c ih =>
      intro rest hsplit
      rw [List.append_assoc, List.singleton_append] at hsplit
      obtain ⟨s, hpass, hcursors, hinter, hI⟩ := ih (c :: rest) hsplit
      have hrun : s.brackets.run (c :: rest) = some {} := by
        have hall := balanced_iff_run.mp hu.balanced
        have hplace := hcursors.run
        rw [Brackets.upTo, hsplit, List.take_left] at hplace
        rwa [hsplit, Brackets.run_append, hplace, Option.bind_some] at hall
      -- where the pass has nothing open, the text before is balanced, and the text says which bytes
      -- stand there
      have hpassable : s.Passable u done.length c := by
        intro hquote hparen hdepth
        have hbyte := hu.throughout done.length (by simp [hsplit])
          (hcursors.clear hquote hparen hdepth)
        rwa [hsplit, at0_length, ← hsplit] at hbyte
      cases hstep : s.step u done.length c with
      | error e => simp [brackets_step_eq_none hstep] at hrun
      | ok r =>
        -- the pass fails nowhere, since the brackets of the whole text match
        obtain ⟨s', found⟩ := r
        obtain ⟨rfl, hinter', -⟩ := hinter.step hpassable hstep
        refine ⟨s', ?_, ?_, hinter',
          hkept done c rest s s' hsplit hI hcursors hinter hpassable hstep⟩
        · rw [pass_append, hpass]
          simp [pass, hstep]
        · subst hsplit
          have hnext := hcursors.step hstep
          simpa using hnext
  obtain ⟨s, hpass, hcursors, -, hI⟩ := hprefix u [] (by simp)
  have hbrackets : s.brackets = {} := by
    have hend := hcursors.run
    rw [Brackets.upTo_length, balanced_iff_run.mp hu.balanced] at hend
    exact (Option.some.inj hend).symm
  exact ⟨s, hpass, hbrackets, hcursors.skip (congrArg Brackets.depth hbrackets), hI⟩

/-! ### Leads in the middle of a text -/

/-- The states of the pass over a text and of the pass over the same text in the middle of
another, after `k` bytes. Where blocks and loose declarations start is left out. -/
structure Shifted (k : Nat) (s s' : Scan) : Prop where
  depth : s'.depth = s.depth
  paren : s'.paren = s.paren
  quote : s'.quote.map (·.1) = s.quote.map (·.1)
  escaped : s'.escaped = s.escaped
  skip : s'.skip = s.skip
  init : s'.init = s.init + k
  safe : s'.safe = s.safe + k
  line : s'.line = s.line.map (· + k)

section Shifted

variable {before u : Text} {s s' : Scan} {i : Nat}

theorem blankBetween_middle (after : Text) (p : Nat) (hi : i ≤ u.length) :
    blankBetween (before ++ u ++ after) (p + before.length) (i + before.length - 1) =
      blankBetween u p (i - 1) := by
  by_cases hzero : i = 0
  · -- at the start both stretches are empty, and the subtraction is cut off
    subst hzero
    have hle : 0 + before.length - 1 ≤ p + before.length := by omega
    simp only [blankBetween, ge_iff_le, hle, decide_true, Bool.true_or, Nat.zero_le, Nat.zero_sub]
  · have hlast : i + before.length - 1 = i - 1 + before.length := by omega
    rw [hlast, blankBetween_eq, blankBetween_eq, slice, slice, List.append_assoc,
      Nat.add_comm (i - 1), List.take_length_add_append,
      List.take_append_of_le_length (by omega), Nat.add_comm p, List.drop_length_add_append]

theorem Shifted.lineStarted (hs : Shifted before.length s s') (after : Text) (hi : i ≤ u.length) :
    s'.lineStarted (before ++ u ++ after) (i + before.length) =
      (s.lineStarted u i).map (· + before.length) := by
  unfold Scan.lineStarted
  rw [hs.line]
  cases s.line with
  | none => rfl
  | some l =>
    dsimp only [Option.map_some]
    rw [blankBetween_middle after l hi]
    split_ifs <;> rfl

theorem Shifted.header (hs : Shifted before.length s s') (after : Text) (hi : i ≤ u.length) :
    (s'.lineStarted (before ++ u ++ after) (i + before.length)).getD s'.init =
      (s.lineStarted u i).getD s.init + before.length := by
  rw [hs.lineStarted after hi, hs.init]
  cases s.lineStarted u i <;> rfl

theorem Shifted.boundary (hs : Shifted before.length s s') (after : Text) (hi : i < u.length)
    (c : UInt8) :
    Shifted before.length (s.boundary u i c)
      (s'.boundary (before ++ u ++ after) (i + before.length) c) := by
  have hafter : i + before.length + 1 = i + 1 + before.length := by omega
  unfold Scan.boundary
  rw [hs.header after (by omega)]
  by_cases hsemicolon : c = ch ';'
  · rw [if_pos hsemicolon, if_pos hsemicolon]
    exact { hs with init := hafter, safe := hafter, line := rfl }
  rw [if_neg hsemicolon, if_neg hsemicolon]
  by_cases hcomma : c = ch ','
  · rw [if_pos hcomma, if_pos hcomma]
    exact { hs with init := rfl, safe := hafter, line := rfl }
  rw [if_neg hcomma, if_neg hcomma]
  by_cases hnewline : c = ch '\n'
  · rw [if_pos hnewline, if_pos hnewline, hs.line]
    cases hline : s.line with
    | none =>
      dsimp only [Option.map_none]
      rw [hs.safe, blankBetween_middle after _ (by omega)]
      split_ifs
      · exact hs
      · exact { hs with safe := rfl, line := congrArg some hafter }
    | some l =>
      dsimp only [Option.map_some]
      rw [blankBetween_middle after l (by omega)]
      split_ifs
      · exact hs
      · exact { hs with init := hafter, line := rfl }
  · rw [if_neg hnewline, if_neg hnewline]
    exact hs

/-- An opening brace in an unbroken text: the first byte of the text comes after no number
sign there, whatever it comes after in the text around it. -/
theorem Shifted.openBrace (hs : Shifted before.length s s') (after : Text) (hi : i < u.length)
    (hhash : s.depth = 0 → afterHash u i = true) :
    (s'.openBrace (before ++ u ++ after) (i + before.length)).2 = [] ∧
      Shifted before.length (s.openBrace u i).1
        (s'.openBrace (before ++ u ++ after) (i + before.length)).1 := by
  unfold Scan.openBrace
  rw [hs.depth]
  by_cases hdepth : s.depth = 0
  · have hat := hhash hdepth
    have hpos : i ≠ 0 := by
      rintro rfl
      cases hat
    have hsame : afterHash (before ++ u ++ after) (i + before.length) = true := by
      rw [Nat.add_comm, List.append_assoc, afterHash_append_add _ _ hpos, afterHash_append hi.le,
        hat]
    rw [if_pos hdepth, if_pos hdepth, if_pos hat, if_pos hsame]
    exact ⟨rfl, { hs with depth := rfl, skip := rfl }⟩
  · rw [if_neg hdepth, if_neg hdepth]
    exact ⟨rfl, { hs with depth := rfl }⟩

theorem Shifted.closeBrace (hs : Shifted before.length s s') (after u : Text) (i : Nat)
    (hskip : s.skip = true) :
    (s'.closeBrace (before ++ u ++ after) (i + before.length)).2 = [] ∧
      Shifted before.length (s.closeBrace u i).1
        (s'.closeBrace (before ++ u ++ after) (i + before.length)).1 := by
  unfold Scan.closeBrace
  rw [hs.depth, hs.skip]
  by_cases hdeep : s.depth > 1
  · rw [if_pos hdeep, if_pos hdeep]
    exact ⟨rfl, { hs with depth := rfl, skip := rfl }⟩
  · rw [if_neg hdeep, if_neg hdeep, if_pos hskip, if_pos hskip]
    exact ⟨rfl, { hs with depth := rfl, skip := rfl }⟩

/-- A byte inside quotes does the same to both states. -/
theorem Shifted.step_quoted {s₁ : Scan} {c q : UInt8} {j : Nat} (hs : Shifted before.length s s')
    (after : Text) (hquote : s.quote = some (q, j)) (hstep : s.step u i c = .ok (s₁, [])) :
    ∃ s₁', s'.step (before ++ u ++ after) (i + before.length) c = .ok (s₁', []) ∧
      Shifted before.length s₁ s₁' := by
  have hopen := hs.quote
  rw [hquote] at hopen
  -- the same quote is open in both states, opened `before.length` bytes later in the second
  obtain ⟨⟨q', j'⟩, hquote', hsame⟩ := Option.map_eq_some_iff.mp hopen
  obtain rfl : q' = q := hsame
  unfold Scan.step at hstep ⊢
  rw [hquote] at hstep
  rw [hquote']
  simp only [Except.ok.injEq, Prod.mk.injEq, and_true] at hstep
  subst hstep
  dsimp only
  rw [hs.escaped]
  refine ⟨_, rfl, ?_⟩
  split_ifs
  · exact { hs with escaped := rfl, quote := rfl }
  · exact { hs with escaped := rfl, quote := rfl }
  · exact { hs with escaped := rfl, quote := rfl }
  · exact hs

/-- One byte of an unbroken text does the same to both states. -/
theorem Shifted.step {s₁ : Scan} {c : UInt8} (hs : Shifted before.length s s') (after : Text)
    (hi : i < u.length) (hinter : s.Interpolating) (hc : s.Passable u i c)
    (hstep : s.step u i c = .ok (s₁, [])) :
    ∃ s₁', s'.step (before ++ u ++ after) (i + before.length) c = .ok (s₁', []) ∧
      Shifted before.length s₁ s₁' := by
  cases hquote : s.quote with
  | some q => exact hs.step_quoted after hquote hstep
  | none =>
    have hopen := hs.quote
    have hafter : i + before.length + 1 = i + 1 + before.length := by omega
    unfold Scan.step at hstep ⊢
    rw [hquote] at hopen hstep
    rw [Option.map_eq_none_iff.mp hopen]
    dsimp only at hstep ⊢
    rw [hs.paren, hs.depth]
    split_ifs at hstep ⊢ with hq hleft hright hparen hbrace hend hdepth hdepth <;>
      simp only [Except.ok.injEq, Prod.mk.injEq, and_true] at hstep
    · subst hstep
      exact ⟨_, rfl, { hs with depth := rfl, paren := rfl, quote := rfl }⟩
    · subst hstep
      exact ⟨_, rfl,
        { hs with depth := rfl, paren := rfl, quote := rfl, line := rfl, safe := hafter }⟩
    · subst hstep
      exact ⟨_, rfl, { hs with depth := rfl, paren := rfl, quote := rfl }⟩
    · subst hstep
      exact ⟨_, rfl, hs⟩
    · -- at the top level the brace is that of an interpolation, since the text is unbroken
      have hhash (htop : s.depth = 0) : afterHash u i = true := by
        have hgoes := hc hquote (by omega) htop
        rw [hbrace, isUnbroken, Bool.and_eq_true] at hgoes
        simpa using hgoes.2
      obtain ⟨hnone, hmoved⟩ := hs.openBrace after hi hhash
      rw [hstep] at hmoved
      exact ⟨_, congrArg _ (Prod.ext rfl hnone), hmoved⟩
    · -- and so what a closing brace closes is one, or is in one
      obtain ⟨hnone, hmoved⟩ := hs.closeBrace after u i (hinter hdepth)
      rw [hstep] at hmoved
      exact ⟨_, congrArg _ (Prod.ext rfl hnone), hmoved⟩
    · subst hstep
      exact ⟨_, rfl, hs.boundary after hi c⟩
    · subst hstep
      exact ⟨_, rfl, hs⟩

end Shifted

end Scan

/-- Where the header starts that a lead gives. -/
def headerStart (u : Text) : Nat :=
  match (Scan.pass u {} 0 u).2 with
  | .ok s => (s.lineStarted u u.length).getD s.init
  | .error _ => 0

namespace Scan

section Middle

variable {src before u body t : Text} {s : Scan} {i : Nat}

/-- The pass over a lead in the middle of a text. -/
theorem exists_pass_middle (hu : Unbroken u) (before after : Text) (loose start : Nat) :
    ∃ s, pass (before ++ u ++ after) (heading loose start before.length before.length 0)
        before.length u = ([], .ok s) ∧ s.brackets = {} ∧ s.skip = false ∧
      (s.lineStarted (before ++ u ++ after) (u.length + before.length)).getD s.init =
        headerStart u + before.length := by
  -- the two passes go side by side: what is kept is that the second state is the first one shifted
  obtain ⟨s, hpass, hbrackets, hskip, s', hpass', hs⟩ := exists_pass_of_unbroken hu
    (I := fun done s => ∃ s', pass (before ++ u ++ after)
      (heading loose start before.length before.length 0) before.length done = ([], .ok s') ∧
        Shifted before.length s s')
    ⟨_, rfl, rfl, rfl, rfl, rfl, rfl, (Nat.zero_add _).symm, (Nat.zero_add _).symm, rfl⟩
    (by
      rintro done c rest s s₁ hsplit ⟨s', hpass', hs⟩ - hinter hc hstep
      obtain ⟨s₁', hstep', hs₁⟩ :=
        hs.step after (by rw [hsplit]; simp) hinter hc hstep
      refine ⟨s₁', ?_, hs₁⟩
      rw [pass_append, hpass', Nat.add_comm before.length]
      simp only [pass, hstep', List.append_nil])
  refine ⟨s', hpass', ?_, hs.skip.trans hskip, ?_⟩
  · rw [← hbrackets]
    simp [brackets, hs.depth, hs.paren, hs.quote, hs.escaped]
  · rw [hs.header after le_rfl, headerStart, hpass]

theorem run_append_silent {r : Text} {s' : Scan} (h : pass src s i u = ([], .ok s')) :
    (run src s i (u ++ r)).1 = (run src s' (i + u.length) r).1 := by
  rw [run_append, h]
  rfl

/-- The brace after a lead starts a block. -/
theorem exists_step_openBrace {src : Text} {i : Nat} (hbrackets : s.brackets = {})
    (hhash : afterHash src i = false) :
    ∃ loose found, s.step src i (ch '\x7b') = .ok ({ s with
        depth := 1, start := i, init := (s.lineStarted src i).getD s.init, loose, line := none },
        found) ∧ bracedOf found = [] := by
  obtain ⟨hquote, -, hparen, hdepth⟩ := Brackets.mk.injEq .. ▸ hbrackets
  -- with nothing open, the brace is looked at as one that may open a block
  have hstep : s.step src i (ch '\x7b') = .ok (s.openBrace src i) := by
    have hne : isQuote (ch '\x7b') = false ∧ ch '\x7b' ≠ ch '(' ∧ ch '\x7b' ≠ ch ')' := by decide
    have hparen' : ¬ s.paren > 0 := by omega
    rw [Option.map_eq_none_iff] at hquote
    simp [Scan.step, hquote, hne, hparen']
  have hfound : bracedOf (s.openBrace src i).2 = [] :=
    bracedOf_eq_nil fun b hb => body_of_mem_openBrace hb
  rcases openBrace_cases src s i with ⟨hdeep, -⟩ | ⟨-, hat, -⟩ | ⟨init, loose, -, -, rfl, -, heq⟩
  · exact absurd hdepth hdeep
  · cases hat.symm.trans hhash
  · rw [heq] at hstep hfound
    exact ⟨_, _, hstep, hfound⟩

/-- A byte of a body keeps what the pass knows of the block. -/
theorem exists_step_body (src : Text) (i : Nat) {b b' : Brackets} {c : UInt8}
    (hs : s.brackets = b.deeper) (hstep : b.step c = some b') :
    ∃ s', s.step src i c = .ok (s', []) ∧ s'.brackets = b'.deeper ∧ s'.init = s.init ∧
      s'.start = s.start ∧ s'.skip = s.skip := by
  have hbrackets := Brackets.step_deeper hstep
  rw [← hs] at hbrackets
  -- the brace of the block is open before the byte and after it
  have hopen : s.depth ≠ 0 := by
    have hdepth : s.depth = b.deeper.depth := congrArg Brackets.depth hs
    rw [hdepth]
    exact Nat.succ_ne_zero _
  cases hmove : s.step src i c with
  | error e => cases (brackets_step_eq_none hmove).symm.trans hbrackets
  | ok r =>
    obtain ⟨s', found⟩ := r
    obtain hs' := Option.some.inj ((brackets_step hmove).symm.trans hbrackets)
    have hopen' : s'.depth ≠ 0 := by
      have hdepth : s'.depth = b'.deeper.depth := congrArg Brackets.depth hs'
      rw [hdepth]
      exact Nat.succ_ne_zero _
    cases moves_of_step hmove with
    | openBrace hquote hparen hc =>
      simp only [Scan.openBrace, if_neg hopen] at hs' ⊢
      exact ⟨_, rfl, hs', rfl, rfl, rfl⟩
    | closeBrace hquote hparen hc hdepth =>
      rcases closeBrace_cases src s i with ⟨-, heq⟩ | ⟨-, -, heq⟩ | ⟨-, -, heq⟩
      · rw [heq] at hs' ⊢
        exact ⟨_, rfl, hs', rfl, rfl, rfl⟩
      · -- closing the brace of the block itself would leave nothing open
        rw [heq] at hopen'
        exact absurd rfl hopen'
      · rw [heq] at hopen'
        exact absurd rfl hopen'
    | boundary hquote hparen hdepth => exact absurd hdepth hopen
    | _ => exact ⟨_, rfl, hs', rfl, rfl, rfl⟩

theorem exists_pass_body (src : Text) (i : Nat) {b b' : Brackets} (hs : s.brackets = b.deeper)
    (hrun : b.run body = some b') :
    ∃ s', pass src s i body = ([], .ok s') ∧ s'.brackets = b'.deeper ∧ s'.init = s.init ∧
      s'.start = s.start ∧ s'.skip = s.skip := by
  induction body generalizing s i b with
  | nil =>
    obtain rfl := Option.some.inj hrun
    exact ⟨s, rfl, hs, rfl, rfl, rfl⟩
  | cons c body ih =>
    obtain ⟨b₁, hstep, hrest⟩ := Option.bind_eq_some_iff.mp (Brackets.run_cons b c body ▸ hrun)
    obtain ⟨s₁, hstep₁, hs₁, hinit, hstart, hskip⟩ := exists_step_body src i hs hstep
    obtain ⟨s', hpass, hs', hinit', hstart', hskip'⟩ := ih (i + 1) hs₁ hrest
    refine ⟨s', ?_, hs', hinit'.trans hinit, hstart'.trans hstart, hskip'.trans hskip⟩
    rw [pass, hstep₁]
    simp [hpass]

/-- The brace that closes a block. -/
theorem step_closeBrace (src : Text) (i : Nat) (hbrackets : s.brackets = Brackets.deeper {})
    (hskip : s.skip = false) :
    s.step src i (ch '\x7d') =
      .ok (heading (i + 1) s.start (i + 1) (i + 1) 0, s.finished src i) := by
  obtain ⟨hquote, hescaped, hparen, hdepth⟩ := Brackets.mk.injEq .. ▸ hbrackets
  rw [Option.map_eq_none_iff] at hquote
  have hne : isQuote (ch '\x7d') = false ∧ ch '\x7d' ≠ ch '(' ∧ ch '\x7d' ≠ ch ')' ∧
      ch '\x7d' ≠ ch '\x7b' := by decide
  have hlast : s.depth = 1 := hdepth
  simp [Scan.step, Scan.closeBrace, heading, hquote, hescaped, hne, hparen, hlast, hskip]

/-- The block that is completed is none without a header. -/
theorem bracedOf_finished (src : Text) (s : Scan) (i : Nat) :
    bracedOf (s.finished src i) =
      if (trim (slice src s.init s.start)).isEmpty then []
      else [(trim (slice src s.init s.start), trim (slice src (s.start + 1) i))] := by
  unfold finished
  dsimp only
  split_ifs <;> rfl

end Middle

end Scan

/-- The header that a lead gives, by where it starts. -/
def leadHeader (u : Text) : List Text :=
  if (trim (u.drop (headerStart u))).isEmpty then [] else [trim (u.drop (headerStart u))]

namespace Scan

section Block

variable {src before u body t : Text}

theorem afterHash_lead (hhash : u.getLast? ≠ some (ch '#'))
    (hbefore : before.getLast? ≠ some (ch '#')) (after : Text) :
    afterHash (before ++ u ++ after) (before.length + u.length) = false := by
  have hlast : (before ++ u).getLast? ≠ some (ch '#') := by
    rw [List.getLast?_append]
    cases hlast : u.getLast? with
    | none => exact hbefore
    | some c => rwa [Option.some_or, ← hlast]
  rw [← List.length_append, afterHash_append le_rfl, ← Bool.not_eq_true]
  exact fun h => hlast (afterHash_length.mp h)

theorem slice_lead (before u after : Text) (k : Nat) :
    slice (before ++ u ++ after) (k + before.length) (before.length + u.length) = u.drop k := by
  rw [slice, ← List.length_append, List.take_left, Nat.add_comm, List.drop_length_add_append]

theorem slice_body (before u body t : Text) :
    slice (before ++ u ++ ch '\x7b' :: (body ++ ch '\x7d' :: t)) (before.length + u.length + 1)
      (before.length + u.length + 1 + body.length) = body := by
  have hmiddle := slice_middle (a := before ++ u ++ [ch '\x7b']) (b := body)
    (c := ch '\x7d' :: t) (t := before ++ u ++ ch '\x7b' :: (body ++ ch '\x7d' :: t)) (by simp)
  simpa [Nat.add_assoc, Nat.add_comm 1] using hmiddle

/-- The pass over a lead, a body in braces and what is after them. -/
theorem exists_bracedOf_run_block (hu : Unbroken u) (hhash : u.getLast? ≠ some (ch '#'))
    (hbefore : before.getLast? ≠ some (ch '#')) (hbody : Balanced body)
    (hsrc : src = before ++ u ++ ch '\x7b' :: (body ++ ch '\x7d' :: t)) {n : Nat}
    (hn : n = before.length + u.length + 1 + body.length + 1) (loose start : Nat) :
    ∃ start', bracedOf (run src (heading loose start before.length before.length 0) before.length
        (u ++ ch '\x7b' :: (body ++ ch '\x7d' :: t))).1 =
      (leadHeader u).map (·, trim body) ++ bracedOf (run src (heading n start' n n 0) n t).1 := by
  -- nothing is found in the lead, and nothing is open after it
  obtain ⟨s, hpass, hbrackets, hskip, hinit⟩ :=
    exists_pass_middle hu before (ch '\x7b' :: (body ++ ch '\x7d' :: t)) loose start
  rw [← hsrc] at hpass hinit
  rw [Nat.add_comm u.length] at hinit
  -- the brace after the lead
  have hafter : afterHash src (before.length + u.length) = false :=
    hsrc ▸ afterHash_lead hhash hbefore _
  obtain ⟨loose', found, hopen, hfound⟩ := exists_step_openBrace hbrackets hafter
  rw [hinit] at hopen
  -- the body, and the brace after it
  obtain ⟨s₁, hpass₁, hbrackets₁, hinit₁, hstart₁, hskip₁⟩ := exists_pass_body src
    (before.length + u.length + 1) (b := {}) (s := { s with
      depth := 1, start := before.length + u.length, init := headerStart u + before.length
      loose := loose', line := none })
    (by
      obtain ⟨hquote, hescaped, hparen, -⟩ := Brackets.mk.injEq .. ▸ hbrackets
      simp [brackets, Brackets.deeper, hquote, hescaped, hparen])
    (balanced_iff_run.mp hbody)
  have hclose := step_closeBrace src (before.length + u.length + 1 + body.length)
    hbrackets₁ (hskip₁.trans hskip)
  rw [← hn] at hclose
  have hfinished : bracedOf (s₁.finished src (before.length + u.length + 1 + body.length)) =
      (leadHeader u).map (·, trim body) := by
    rw [bracedOf_finished, hinit₁, hstart₁]
    dsimp only
    rw [hsrc, slice_lead, slice_body, leadHeader]
    split_ifs <;> rfl
  refine ⟨s₁.start, ?_⟩
  rw [run_append_silent hpass, run, hopen]
  dsimp only
  rw [bracedOf_append, hfound, List.nil_append, run_append_silent hpass₁, run, hclose]
  dsimp only
  rw [bracedOf_append, hfinished, ← hn]

/-- A semicolon after a lead lets the next one start. -/
theorem step_semicolon (src : Text) {s : Scan} (i : Nat) (hbrackets : s.brackets = {})
    (hskip : s.skip = false) :
    s.step src i (ch ';') = .ok (heading s.loose s.start (i + 1) (i + 1) 0, []) := by
  obtain ⟨hquote, hescaped, hparen, hdepth⟩ := Brackets.mk.injEq .. ▸ hbrackets
  rw [Option.map_eq_none_iff] at hquote
  have hne : isQuote (ch ';') = false ∧ ch ';' ≠ ch '(' ∧ ch ';' ≠ ch ')' ∧ ch ';' ≠ ch '\x7b' ∧
      ch ';' ≠ ch '\x7d' := by decide
  simp [Scan.step, Scan.boundary, heading, hquote, hescaped, hne, hparen, hdepth, hskip]

end Block

end Scan

open Scan

/-- The blocks the pass finds from a place on where it has left everything behind. -/
theorem Sections.bracedOf_run {t : Text} {ss : List (Text × Text)} (h : Sections t ss)
    (before : Text) (hbefore : before.getLast? ≠ some (ch '#')) (loose start : Nat) :
    bracedOf (run (before ++ t) (heading loose start before.length before.length 0)
      before.length t).1 = ss.flatMap fun s => (leadHeader s.1).map (·, trim s.2) := by
  -- section by section: before each one the pass is in the state it has at the start of a header
  induction h generalizing before loose start with
  | @rest u hu =>
    obtain ⟨s, hpass, -⟩ := exists_pass_middle hu before [] loose start
    rw [List.append_nil] at hpass
    have hrun := run_append_silent (r := []) hpass
    rw [List.append_nil] at hrun
    rw [hrun]
    exact bracedOf_eq_nil fun b hb => body_of_mem_finish hb
  | @ended u t ss hu ht ih =>
    obtain ⟨s, hpass, hbrackets, hskip, -⟩ := exists_pass_middle hu before (ch ';' :: t) loose start
    have hnext := step_semicolon (before ++ u ++ ch ';' :: t) (before.length + u.length) hbrackets
      hskip
    have hmore := ih (before ++ u ++ [ch ';']) (by simp; decide) s.loose s.start
    have hsplit : before ++ u ++ [ch ';'] ++ t = before ++ u ++ ch ';' :: t := by simp
    have hlength : (before ++ u ++ [ch ';']).length = before.length + u.length + 1 := by simp; omega
    rw [hsplit, hlength] at hmore
    have hassoc : before ++ (u ++ ch ';' :: t) = before ++ u ++ ch ';' :: t := by simp
    rw [hassoc, run_append_silent hpass, run_cons_silent hnext, hmore]
  | @block u body t ss hu hhash hbody ht ih =>
    obtain ⟨start', hblock⟩ := exists_bracedOf_run_block hu hhash hbefore hbody
      (List.append_assoc _ _ _).symm rfl loose start (t := t)
    have hmore := ih (before ++ u ++ ch '\x7b' :: body ++ [ch '\x7d'])
      (by rw [List.getLast?_concat]; decide)
      (before.length + u.length + 1 + body.length + 1) start'
    have hsplit : before ++ u ++ ch '\x7b' :: body ++ [ch '\x7d'] ++ t =
        before ++ (u ++ ch '\x7b' :: (body ++ ch '\x7d' :: t)) := by simp
    have hlength : (before ++ u ++ ch '\x7b' :: body ++ [ch '\x7d']).length =
        before.length + u.length + 1 + body.length + 1 := by
      simp
      omega
    rw [hsplit, hlength] at hmore
    rw [hblock, hmore, List.flatMap_cons]

/-- The blocks of a text, from its leads and bodies. -/
theorem Sections.braced_eq_leadHeader {t : Text} {ss : List (Text × Text)} (h : Sections t ss) :
    braced t = ss.flatMap fun s => (leadHeader s.1).map (·, trim s.2) :=
  h.bracedOf_run [] nofun 0 0

theorem headersOf_eq {u : Text} (hu : Unbroken u) (hhash : u.getLast? ≠ some (ch '#')) :
    headersOf u = leadHeader u := by
  have hblock := Sections.block hu hhash unbroken_nil.balanced .nil
  rw [List.nil_append] at hblock
  rw [headersOf, hblock.braced_eq_leadHeader]
  simp [Function.comp_def]

/-- The blocks of a text are those of its sections. -/
theorem Sections.braced_eq {t : Text} {ss : List (Text × Text)} (h : Sections t ss) :
    braced t = ss.flatMap fun s => (headersOf s.1).map (·, trim s.2) := by
  rw [h.braced_eq_leadHeader]
  refine List.flatMap_congr fun s hs => ?_
  obtain ⟨hu, hhash, -⟩ := h.of_mem hs
  rw [headersOf_eq hu hhash]

/-! ### Where headers start -/

/-- The start of a text, or of a line before which nothing is left open. -/
def StartsLine (t : Text) (i : Nat) : Prop :=
  i = 0 ∨ ∃ v w, t = v ++ ch '\n' :: w ∧ Balanced v ∧ i = v.length + 1

/-- In a lead the pass takes starts of lines for the start of the header. -/
theorem Scan.startsLine_step {src done rest : Text} {s s' : Scan} {c : UInt8} {found : List Block}
    (hsrc : src = done ++ c :: rest) (hcursors : Cursors src done.length s)
    (hinter : s.Interpolating) (hc : s.Passable src done.length c)
    (hstep : s.step src done.length c = .ok (s', found))
    (hinit : StartsLine src s.init) (hline : ∀ l ∈ s.line, StartsLine src l) :
    StartsLine src s'.init ∧ ∀ l ∈ s'.line, StartsLine src l := by
  -- only a byte at the top level moves the start of the header
  obtain ⟨-, -, ⟨hsame, hline' | hline'⟩ | ⟨hquote, hparen, hdepth, hsemicolon, rfl⟩⟩ :=
    hinter.step hc hstep
  · exact ⟨hsame ▸ hinit, hline' ▸ hline⟩
  · exact ⟨hsame ▸ hinit, by simp [hline']⟩
  have hheader : StartsLine src ((s.lineStarted src done.length).getD s.init) := by
    rcases getD_lineStarted src s done.length with heq | heq
    · rwa [heq]
    · exact hline _ heq
  rw [Scan.boundary, if_neg hsemicolon]
  by_cases hcomma : c = ch ','
  · rw [if_pos hcomma]
    exact ⟨hheader, by simp⟩
  rw [if_neg hcomma]
  by_cases hnewline : c = ch '\n'
  · -- the line that starts here starts where nothing is left open
    have hbalanced : Balanced done := by
      have hclear := hcursors.clear hquote hparen hdepth
      rw [hsrc, clear_append le_rfl] at hclear
      exact balanced_iff_clear.mpr hclear
    have hnext : StartsLine src (done.length + 1) :=
      .inr ⟨done, rest, by rw [hsrc, hnewline], hbalanced, rfl⟩
    rw [if_pos hnewline]
    cases hl : s.line with
    | none =>
      dsimp only
      split_ifs
      · exact ⟨hinit, hline⟩
      · exact ⟨hinit, by simpa using hnext⟩
    | some l =>
      dsimp only
      split_ifs
      · exact ⟨hinit, hline⟩
      · exact ⟨hnext, by simp⟩
  · rw [if_neg hnewline]
    exact ⟨hinit, hline⟩

/-- A header starts where its lead does, or at a line of it. -/
theorem startsLine_headerStart {u : Text} (hu : Unbroken u) : StartsLine u (headerStart u) := by
  obtain ⟨s, hpass, -, -, hinit, hline⟩ := exists_pass_of_unbroken hu
    (I := fun _ s => StartsLine u s.init ∧ ∀ l ∈ s.line, StartsLine u l)
    ⟨.inl rfl, by simp⟩
    fun done c rest s s' hsplit hI hcursors hinter hc hstep =>
      startsLine_step hsplit hcursors hinter hc hstep hI.1 hI.2
  rw [headerStart, hpass]
  dsimp only
  rcases getD_lineStarted u s u.length with heq | heq
  · rwa [heq]
  · exact hline _ heq

/-- White space is white space after each of its line ends. -/
theorem Text.Spaces.of_newline {v w : Text} (h : Spaces (v ++ ch '\n' :: w)) : Spaces w := by
  have hline : Spaces [ch '\n'] := .one (by decide) .nil
  have hwords := fields_append_spaces hline (List.cons_ne_nil _ _) v w
  rw [List.singleton_append, spaces_iff_fields.mp h] at hwords
  exact spaces_iff_fields.mpr (List.append_eq_nil_iff.mp hwords.symm).2

/-! ### Leads on one line -/

/-- No line ends where nothing is open. -/
def OnLine (u : Text) : Prop := Throughout (fun _ c => c ≠ ch '\n') u

instance (u : Text) : Decidable (OnLine u) :=
  inferInstanceAs (Decidable (Throughout (fun _ c => c ≠ ch '\n') u))

theorem OnLine.not_balanced {x r : Text} (h : OnLine (x ++ ch '\n' :: r)) : ¬Balanced x := by
  intro hbalanced
  rw [OnLine, List.append_cons] at h
  simpa using (throughout_concat.mp h.left).2 hbalanced

theorem OnLine.trimLeft {u : Text} (h : OnLine u) : OnLine (trimLeft u) := by
  obtain ⟨w, hsplit, hw⟩ := exists_trimLeft_spaces u
  rw [hsplit] at h
  exact h.right (balanced_of_inBlank (inBlank_of_mem_spaces hw))

/-- Of a lead that goes on in one line once it has started, the header is all of it but for the
white space before it. -/
theorem trim_drop_headerStart {u : Text} (hu : Unbroken u) (hline : OnLine (trimLeft u)) :
    trim (u.drop (headerStart u)) = trim u := by
  obtain ⟨w, hsplit, hw⟩ := exists_trimLeft_spaces u
  have htrim : trim u = trim (trimLeft u) := by
    conv_lhs => rw [hsplit]
    exact hw.trim_append _
  rcases startsLine_headerStart hu with heq | ⟨v, r, hnewline, hbalanced, heq⟩
  · rw [heq, List.drop_zero]
  rcases List.append_eq_append_iff.mp (hsplit.symm.trans hnewline) with
    ⟨x, rfl, hrest⟩ | ⟨x, rfl, hrest⟩
  · -- the line would start after the lead does
    rw [hrest] at hline
    rw [balanced_iff_run, Balanced.run_append (balanced_of_inBlank (inBlank_of_mem_spaces hw)),
      ← balanced_iff_run] at hbalanced
    exact absurd hbalanced hline.not_balanced
  · -- the line starts in the white space before the lead, which is trimmed away all the same
    cases x with
    | nil =>
      have hstart : trimLeft u = [] ++ ch '\n' :: r := hrest.symm
      rw [hstart] at hline
      exact absurd unbroken_nil.balanced hline.not_balanced
    | cons c x =>
      obtain ⟨rfl, rfl⟩ := List.cons.inj hrest
      have hdrop : u.drop (v.length + 1) = x ++ trimLeft u := by
        conv_lhs => rw [hnewline, ← List.singleton_append, ← List.append_assoc]
        simp
      rw [heq, hdrop, htrim, hw.of_newline.trim_append]

/-- White space leads up to no block. -/
theorem leadHeader_of_spaces {u : Text} (hspaces : Spaces u) : leadHeader u = [] := by
  have hu : Unbroken u := unbroken_of_inBlank (inBlank_of_mem_spaces hspaces)
  have hline : OnLine (trimLeft u) := hspaces.trimLeft ▸ throughout_nil
  rw [leadHeader, trim_drop_headerStart hu hline, spaces_iff_trim.mp hspaces]
  rfl

/-- The header of a lead on one line is the lead. -/
theorem headersOf_of_line {u : Text} (hu : Unbroken u) (hhash : u.getLast? ≠ some (ch '#'))
    (hline : OnLine (trimLeft u)) : headersOf u = if trim u = [] then [] else [trim u] := by
  rw [headersOf_eq hu hhash, leadHeader, trim_drop_headerStart hu hline]
  simp

end Stylesheet
