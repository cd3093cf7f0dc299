import Mathlib.Order.Nat
import Stylesheet.Proofs.Source.Pass

/-!
# The places the pass keeps

The pass that finds blocks keeps several places of the text behind it: where loose
declarations start, where a header starts, where its brace stands, where a line starts. They
stand in this order, and at all of them nothing is open. So every slice the pass takes is
within the text and does not end before it starts: a pass that checks this every time never
stops for it.

## Main definitions

* `Clear` — nothing is open at an offset
* `Scan.Cursors` — the places the pass keeps stand in order, and nothing is open there
* `Scan.pass` — the pass over a part of a text, up to the state it leaves
* `Scan.Guarded.run` — the pass with every slice checked

## Main results

* `Scan.Cursors.step`, `Scan.Cursors.pass` — one byte keeps the places in order, and so does a
  part of a text
* `Scan.Guarded.run_eq` — no slice is out of range
-/

namespace Stylesheet

open Text

namespace Text

theorem take_append_slice {t : Text} {i j : Nat} (hij : i ≤ j) :
    t.take i ++ slice t i j = t.take j := by
  have htake : (t.take j).take i = t.take i := by rw [List.take_take, Nat.min_eq_left hij]
  rw [slice, ← htake, List.take_append_drop]

theorem slice_append_drop {t : Text} {i j : Nat} (hij : i ≤ j) (hj : j ≤ t.length) :
    slice t i j ++ t.drop j = t.drop i := by
  conv_rhs => rw [← List.take_append_drop j t]
  rw [slice, List.drop_append_of_le_length (by simp; omega)]

theorem slice_append_slice {t : Text} {i j k : Nat} (hij : i ≤ j) (hjk : j ≤ k) :
    slice t i j ++ slice t j k = slice t i k := by
  refine (List.append_right_inj (t.take i)).mp ?_
  rw [← List.append_assoc, take_append_slice hij, take_append_slice hjk,
    take_append_slice (hij.trans hjk)]

theorem drop_of_getElem? {t : Text} {i : Nat} {c : UInt8} (h : t[i]? = some c) :
    t.drop i = c :: t.drop (i + 1) := by
  obtain ⟨hlt, hget⟩ := List.getElem?_eq_some_iff.mp h
  rw [List.drop_eq_getElem_cons hlt, hget]

end Text

/-! ### The places the pass keeps -/

/-- Nothing is open at an offset. -/
def Clear (t : Text) (i : Nat) : Prop := Brackets.upTo t i = some {}

/-- Between two places where nothing is open a text is balanced. -/
theorem Clear.balanced_slice {t : Text} {i j : Nat} (hi : Clear t i) (hj : Clear t j)
    (hij : i ≤ j) : Balanced (slice t i j) := by
  refine ⟨{}, ?_, rfl, rfl, rfl⟩
  rw [Clear, Brackets.upTo, ← take_append_slice hij, Brackets.run_append] at hj
  rwa [show Brackets.run {} (t.take i) = some {} from hi, Option.bind_some] at hj

namespace Scan

/-- The places the pass keeps when it has come to `i`: they stand in the order in which they
are named here, nothing is open at them, and below an open brace that is no interpolation's
the header before it is all that has not been yielded. -/
structure Cursors (src : Text) (i : Nat) (s : Scan) : Prop where
  run : Brackets.upTo src i = some s.brackets
  inside : Inside src s i
  skip : s.depth = 0 → s.skip = false
  loose : s.loose ≤ s.init ∧ Clear src s.loose
  init : s.init ≤ i ∧ Clear src s.init
  line : ∀ l, s.line = some l → s.init ≤ l ∧ l ≤ i ∧ Clear src l
  start : s.depth ≠ 0 → s.skip = false →
    s.loose = s.init ∧ s.init ≤ s.start ∧ Clear src s.start ∧ src[s.start]? = some (ch '\x7b')

/-- Outside quotes, parentheses and braces nothing is open. -/
theorem Cursors.clear {src : Text} {i : Nat} {s : Scan} (h : Cursors src i s)
    (hquote : s.quote = none) (hparen : s.paren = 0) (hdepth : s.depth = 0) : Clear src i := by
  have hescaped : s.escaped = false := h.inside.proper.escaped (by simp [brackets, hquote])
  rw [Clear, h.run]
  simp [brackets, hquote, hparen, hdepth, hescaped]

section Step

variable {src : Text} {i : Nat} {s s' : Scan}

/-- A move that leaves the places as they are, or forgets a line. -/
theorem Cursors.kept (h : Cursors src i s) (hrun : Brackets.upTo src (i + 1) = some s'.brackets)
    (hinside : Inside src s' (i + 1)) (hdepth : s'.depth = s.depth) (hskip : s'.skip = s.skip)
    (hloose : s'.loose = s.loose) (hinit : s'.init = s.init) (hstart : s'.start = s.start)
    (hline : s'.line = s.line ∨ s'.line = none) : Cursors src (i + 1) s' := by
  refine ⟨hrun, hinside, ?_, ?_, ?_, ?_, ?_⟩
  · rw [hdepth, hskip]
    exact h.skip
  · rw [hloose, hinit]
    exact h.loose
  · rw [hinit]
    exact ⟨by have := h.init.1; omega, h.init.2⟩
  · intro l hl
    rcases hline with hsame | hnone
    · obtain ⟨hle, hle', hclear⟩ := h.line l (hsame ▸ hl)
      exact ⟨hinit ▸ hle, by omega, hclear⟩
    · cases hnone.symm.trans hl
  · rw [hdepth, hskip, hloose, hinit, hstart]
    exact h.start

/-- A byte at the top level: a header or a line may start after it, or at a line that has
started. -/
theorem Cursors.boundary {c : UInt8} (h : Cursors src i s) (hquote : s.quote = none)
    (hparen : s.paren = 0) (hdepth : s.depth = 0)
    (hrun : Brackets.upTo src (i + 1) = some (s.boundary src i c).brackets)
    (hinside : Inside src (s.boundary src i c) (i + 1)) :
    Cursors src (i + 1) (s.boundary src i c) := by
  have hescaped : s.escaped = false := h.inside.proper.escaped (by simp [brackets, hquote])
  obtain ⟨init, line, safe, heq, hcases⟩ := boundary_cases src s i c
  have hclear : Clear src (i + 1) := by
    rw [Clear, hrun, heq]
    simp [brackets, hquote, hparen, hdepth, hescaped]
  obtain ⟨hloose, hloosec⟩ := h.loose
  obtain ⟨hinit, hinitc⟩ := h.init
  rw [heq] at hrun hinside ⊢
  -- the line is forgotten, is kept, or starts here; the header starts at the line, or here
  rcases hcases with ⟨rfl, rfl | rfl | rfl⟩ | ⟨hline, rfl⟩ | ⟨rfl, rfl⟩
  · exact h.kept hrun hinside rfl rfl rfl rfl rfl (.inr rfl)
  · exact h.kept hrun hinside rfl rfl rfl rfl rfl (.inl rfl)
  · refine ⟨hrun, hinside, h.skip, h.loose, ⟨by dsimp only; omega, hinitc⟩, ?_, ?_⟩
    · intro l hl
      obtain rfl := Option.some.inj hl
      exact ⟨by dsimp only; omega, le_rfl, hclear⟩
    · exact fun hopen => absurd hdepth hopen
  · obtain ⟨hle, hle', hclear'⟩ := h.line init hline
    refine ⟨hrun, hinside, h.skip, ⟨by dsimp only; omega, hloosec⟩, ⟨by dsimp only; omega, hclear'⟩,
      ?_, ?_⟩
    · exact fun l hl => by cases hl
    · exact fun hopen => absurd hdepth hopen
  · refine ⟨hrun, hinside, h.skip, ⟨by dsimp only; omega, hloosec⟩, ⟨le_rfl, hclear⟩, ?_, ?_⟩
    · exact fun l hl => by cases hl
    · exact fun hopen => absurd hdepth hopen

/-- The header that ends at a brace starts no earlier than the loose declarations, and
nothing is open where it starts. -/
theorem Cursors.header (h : Cursors src i s) :
    s.init ≤ (s.lineStarted src i).getD s.init ∧ (s.lineStarted src i).getD s.init ≤ i ∧
      Clear src ((s.lineStarted src i).getD s.init) := by
  rcases getD_lineStarted src s i with heq | hline
  · rw [heq]
    exact ⟨le_rfl, h.init⟩
  · exact h.line _ hline

/-- An opening brace: what is left of the places are the header and the brace. -/
theorem Cursors.openBrace (h : Cursors src i s) (hquote : s.quote = none)
    (hparen : s.paren = 0) (hc : src[i]? = some (ch '\x7b'))
    (hrun : Brackets.upTo src (i + 1) = some (s.openBrace src i).1.brackets)
    (hinside : Inside src (s.openBrace src i).1 (i + 1)) :
    Cursors src (i + 1) (s.openBrace src i).1 := by
  rcases openBrace_cases src s i with
    ⟨hdeep, heq⟩ | ⟨htop, hhash, heq⟩ | ⟨init, loose, htop, hhash, hinit, hloose, heq⟩
  · rw [heq] at hrun hinside ⊢
    refine ⟨hrun, hinside, fun hzero => absurd hzero (Nat.succ_ne_zero _), h.loose,
      ⟨by have := h.init.1; dsimp only; omega, h.init.2⟩, fun l hl => ?_, fun _ => h.start hdeep⟩
    obtain ⟨hle, hle', hclear⟩ := h.line l hl
    exact ⟨hle, by omega, hclear⟩
  · rw [heq] at hrun hinside ⊢
    refine ⟨hrun, hinside, fun hzero => absurd hzero Nat.one_ne_zero, h.loose,
      ⟨by have := h.init.1; dsimp only; omega, h.init.2⟩, fun l hl => ?_, fun _ hskip => ?_⟩
    · obtain ⟨hle, hle', hclear⟩ := h.line l hl
      exact ⟨hle, by omega, hclear⟩
    · cases hskip
  · obtain ⟨hle, hle', hclear⟩ := h.header
    rw [← hinit] at hle hle' hclear
    -- What was released, or had been before, ends where the header starts.
    have hlast : loose = init := by
      have := h.loose.1
      omega
    subst hlast
    rw [heq] at hrun hinside ⊢
    refine ⟨hrun, hinside, fun hzero => absurd hzero Nat.one_ne_zero, ⟨le_rfl, hclear⟩,
      ⟨by dsimp only; omega, hclear⟩, fun l hl => ?_, fun _ _ => ?_⟩
    · cases hl
    · exact ⟨rfl, hle', h.clear hquote hparen htop, hc⟩

/-- A closing brace: after the last one all places but that of the brace move behind it. -/
theorem Cursors.closeBrace (h : Cursors src i s) (hquote : s.quote = none)
    (hparen : s.paren = 0) (hdepth : s.depth ≠ 0)
    (hrun : Brackets.upTo src (i + 1) = some (s.closeBrace src i).1.brackets)
    (hinside : Inside src (s.closeBrace src i).1 (i + 1)) :
    Cursors src (i + 1) (s.closeBrace src i).1 := by
  have hescaped : s.escaped = false := h.inside.proper.escaped (by simp [brackets, hquote])
  rcases closeBrace_cases src s i with ⟨hdeep, heq⟩ | ⟨hlast, hskip, heq⟩ | ⟨hlast, hskip, heq⟩
  · rw [heq] at hrun hinside ⊢
    refine ⟨hrun, hinside, fun hzero => ?_, h.loose,
      ⟨by have := h.init.1; dsimp only; omega, h.init.2⟩, fun l hl => ?_, fun _ => h.start hdepth⟩
    · simp only at hzero
      omega
    · obtain ⟨hle, hle', hclear⟩ := h.line l hl
      exact ⟨hle, by omega, hclear⟩
  · rw [heq] at hrun hinside ⊢
    refine ⟨hrun, hinside, fun _ => rfl, h.loose,
      ⟨by have := h.init.1; dsimp only; omega, h.init.2⟩, fun l hl => ?_,
      fun hopen => absurd rfl hopen⟩
    obtain ⟨hle, hle', hclear⟩ := h.line l hl
    exact ⟨hle, by omega, hclear⟩
  · -- The last open brace is closed, so nothing is open after it.
    have hclear : Clear src (i + 1) := by
      rw [Clear, hrun, heq]
      simp [brackets, hquote, hparen, hescaped]
    rw [heq] at hrun hinside ⊢
    refine ⟨hrun, hinside, fun _ => hskip, ⟨le_rfl, hclear⟩, ⟨le_rfl, hclear⟩, fun l hl => ?_,
      fun hopen => absurd rfl hopen⟩
    cases hl

end Step

/-- One byte keeps the places in order. -/
theorem Cursors.step {before after : Text} {c : UInt8} {s s' : Scan} {found : List Block}
    (h : Cursors (before ++ c :: after) before.length s)
    (hstep : s.step (before ++ c :: after) before.length c = .ok (s', found)) :
    Cursors (before ++ c :: after) (before.length + 1) s' := by
  obtain ⟨hinside, -⟩ := h.inside.step hstep
  have hget : (before ++ c :: after)[before.length]? = some c := by simp
  have hrun : Brackets.upTo (before ++ c :: after) (before.length + 1) = some s'.brackets := by
    rw [Brackets.upTo_succ (by simp), h.run]
    simp [brackets_step hstep]
  cases moves_of_step hstep with
  | quoted escaped hquote => exact h.kept hrun hinside rfl rfl rfl rfl rfl (.inl rfl)
  | unquote hquote => exact h.kept hrun hinside rfl rfl rfl rfl rfl (.inl rfl)
  | quote hquote hc => exact h.kept hrun hinside rfl rfl rfl rfl rfl (.inl rfl)
  | «open» hquote hc => exact h.kept hrun hinside rfl rfl rfl rfl rfl (.inr rfl)
  | close hquote hc => exact h.kept hrun hinside rfl rfl rfl rfl rfl (.inl rfl)
  | enclosed hquote hc hparen => exact h.kept hrun hinside rfl rfl rfl rfl rfl (.inl rfl)
  | openBrace hquote hparen hc => exact h.openBrace hquote hparen (hc ▸ hget) hrun hinside
  | closeBrace hquote hparen hc hdepth =>
    exact h.closeBrace hquote hparen hdepth hrun hinside
  | boundary hquote hparen hdepth => exact h.boundary hquote hparen hdepth hrun hinside
  | inner hquote hparen hdepth => exact h.kept hrun hinside rfl rfl rfl rfl rfl (.inl rfl)

theorem cursors_empty (src : Text) : Cursors src 0 {} := by
  refine ⟨rfl, ⟨Brackets.proper_empty, fun hdepth => absurd rfl hdepth⟩, fun _ => rfl,
    ⟨le_rfl, rfl⟩, ⟨le_rfl, rfl⟩, fun l hl => ?_, fun hdepth => absurd rfl hdepth⟩
  cases hl

/-! ### The places on the way -/

/-- The pass over a part of a text: the blocks it finds, and the state it leaves. -/
def pass (src : Text) (s : Scan) : Nat → Text → List Block × Except StructuralError Scan
  | _, [] => ([], .ok s)
  | i, c :: r =>
    match s.step src i c with
    | .error e => ([], .error e)
    | .ok (s', found) =>
      let (more, last) := pass src s' (i + 1) r
      (found ++ more, last)

/-- The places stay in order over a part of a text. -/
theorem Cursors.pass {before t after : Text} {s s' : Scan} {found : List Block}
    (h : Cursors (before ++ t ++ after) before.length s)
    (hpass : s.pass (before ++ t ++ after) before.length t = (found, .ok s')) :
    Cursors (before ++ t ++ after) (before ++ t).length s' := by
  induction t generalizing before s found with
  | nil =>
    cases hpass
    simpa using h
  | cons c t ih =>
    have hsplit : before ++ c :: t ++ after = before ++ c :: (t ++ after) := by simp
    rw [Scan.pass] at hpass
    cases hstep : s.step (before ++ c :: t ++ after) before.length c with
    | error e =>
      rw [hstep] at hpass
      cases hpass
    | ok r =>
      obtain ⟨s₁, first⟩ := r
      rw [hstep] at hpass
      rw [hsplit] at h hstep
      -- the byte passes from what is to come to what stands before
      have hnext := h.step hstep
      have hlength : (before ++ [c]).length = before.length + 1 := by simp
      have hassoc : before ++ c :: (t ++ after) = before ++ [c] ++ t ++ after := by simp
      rw [← hlength, hassoc] at hnext
      rw [hsplit, hassoc, ← hlength] at hpass
      rcases hrest : s₁.pass (before ++ [c] ++ t ++ after) (before ++ [c]).length t with
        ⟨more, last⟩
      dsimp only at hpass
      rw [hrest] at hpass
      cases hpass
      have hend := ih hnext hrest
      rwa [List.append_cons]

end Scan

/-! ### Slices in range -/

/-- The bytes between two offsets, if these are in order and within the text. -/
def slice? (t : Text) (i j : Nat) : Option Text :=
  if i ≤ j ∧ j ≤ t.length then some (slice t i j) else none

theorem slice?_eq {t : Text} {i j : Nat} (hij : i ≤ j) (hj : j ≤ t.length) :
    slice? t i j = some (slice t i j) := if_pos ⟨hij, hj⟩

namespace Scan.Guarded

/-- Only white space between two offsets, which are compared first. -/
def blankBetween (src : Text) (i j : Nat) : Option Bool :=
  if i ≥ j then some true else (slice? src i j).map isBlank

/-- The loose declarations between two offsets. -/
def looseBlocks (src : Text) (i j : Nat) : Option (List Block) :=
  (slice? src i j).map fun t => looseParts i (split (ch ';') t)

/-- The line under way, if it has something before the byte at `i`. -/
def lineStarted (src : Text) (s : Scan) (i : Nat) : Option (Option Nat) :=
  match s.line with
  | some l => (blankBetween src l (i - 1)).map fun blank => if blank then none else some l
  | none => some none

/-- An opening brace at `i`. -/
def openBrace (src : Text) (s : Scan) (i : Nat) : Option (Scan × List Block) :=
  if s.depth = 0 then
    if afterHash src i then some ({ s with depth := 1, skip := true }, [])
    else
      (lineStarted src s i).bind fun line =>
        let init := line.getD s.init
        if s.loose < init then
          (looseBlocks src s.loose init).map fun found =>
            ({ s with depth := 1, start := i, init := init, loose := init, line := none }, found)
        else some ({ s with depth := 1, start := i, init := init, line := none }, [])
  else some ({ s with depth := s.depth + 1 }, [])

/-- The block whose body ends at `i`; without a header the body is not looked at. -/
def finished (src : Text) (s : Scan) (i : Nat) : Option (List Block) :=
  (slice? src s.init s.start).bind fun raw =>
    if (trim raw).isEmpty then some []
    else (slice? src (s.start + 1) i).map fun body =>
      [⟨trim raw, some (trim body), s.init + leading raw⟩]

/-- A closing brace at `i` that has a partner. -/
def closeBrace (src : Text) (s : Scan) (i : Nat) : Option (Scan × List Block) :=
  if s.depth > 1 then some ({ s with depth := s.depth - 1 }, [])
  else if s.skip then some ({ s with depth := 0, skip := false }, [])
  else (finished src s i).map fun found =>
    ({ s with depth := 0, init := i + 1, safe := i + 1, loose := i + 1, line := none }, found)

/-- Any other byte at `i` at the top level. -/
def boundary (src : Text) (s : Scan) (i : Nat) (c : UInt8) : Option Scan :=
  if c = ch ';' then some { s with init := i + 1, safe := i + 1, line := none }
  else if c = ch ',' then
    (lineStarted src s i).map fun line =>
      { s with init := line.getD s.init, line := none, safe := i + 1 }
  else if c = ch '\n' then
    match s.line with
    | none => (blankBetween src s.safe (i - 1)).map fun blank =>
      if blank then s else { s with line := some (i + 1) }
    | some l => (blankBetween src l (i - 1)).map fun blank =>
      if blank then s else { s with init := i + 1, line := none }
  else some s

/-- The byte `c` at `i`. -/
def step (src : Text) (s : Scan) (i : Nat) (c : UInt8) :
    Option (Except StructuralError (Scan × List Block)) :=
  match s.quote with
  | some _ => some (s.step src i c)
  | none =>
    if isQuote c ∨ c = ch '(' ∨ c = ch ')' ∨ s.paren > 0 then some (s.step src i c)
    else if c = ch '\x7b' then (openBrace src s i).map .ok
    else if c = ch '\x7d' then
      if s.depth = 0 then
        (slice? src s.loose i).map fun header => .error ⟨.unexpectedClose, i, trim header⟩
      else (closeBrace src s i).map .ok
    else if s.depth = 0 then (boundary src s i c).map fun s' => .ok (s', [])
    else some (.ok (s, []))

/-- What the end of the text leaves. -/
def finish (src : Text) (s : Scan) : Option (List Block × Option StructuralError) :=
  if s.depth > 0 then
    (if s.skip then some [] else (slice? src s.init s.start).map trim).map fun header =>
      if s.paren > 0 then ([], some ⟨.unclosedParen, s.start, header⟩)
      else match s.quote with
        | some (_, i) => ([], some ⟨.unclosedString, i, header⟩)
        | none => ([], some ⟨.unclosedBlock, s.start, header⟩)
  else match s.quote with
    | some (_, i) => some ([], some ⟨.unclosedString, i, []⟩)
    | none =>
      if s.paren > 0 then some ([], some ⟨.unclosedParen, s.safe - 1, []⟩)
      else (looseBlocks src s.loose src.length).map (·, none)

/-- The blocks of what is left of a text, from offset `i` on. -/
def run (src : Text) (s : Scan) : Nat → Text → Option (List Block × Option StructuralError)
  | _, [] => finish src s
  | i, c :: r =>
    (step src s i c).bind fun
      | .error e => some ([], some e)
      | .ok (s', found) =>
        (run src s' (i + 1) r).map fun (more, failure) => (found ++ more, failure)

/-! No check fails while the places the pass keeps stand in order. -/

section Equal

variable {src : Text} {i : Nat} {s : Scan}

theorem blankBetween_eq {j : Nat} (hj : j ≤ src.length) :
    blankBetween src i j = some (Stylesheet.blankBetween src i j) := by
  unfold blankBetween Stylesheet.blankBetween
  by_cases hij : i ≥ j
  · simp [hij]
  · rw [if_neg hij, slice?_eq (by omega) hj]
    simp [hij]

theorem looseBlocks_eq {j : Nat} (hij : i ≤ j) (hj : j ≤ src.length) :
    looseBlocks src i j = some (Stylesheet.looseBlocks src i j) := by
  rw [looseBlocks, slice?_eq hij hj]
  rfl

theorem lineStarted_eq (hi : i < src.length) :
    lineStarted src s i = some (s.lineStarted src i) := by
  unfold lineStarted Scan.lineStarted
  cases s.line with
  | none => rfl
  | some l =>
    dsimp only
    rw [blankBetween_eq (by omega)]
    rfl

theorem openBrace_eq (h : Cursors src i s) (hi : i < src.length) :
    openBrace src s i = some (s.openBrace src i) := by
  unfold openBrace Scan.openBrace
  split_ifs with hdepth hhash
  · rfl
  · obtain ⟨-, hle, -⟩ := h.header
    rw [lineStarted_eq hi, Option.bind_some]
    dsimp only
    split_ifs with hloose
    · rw [looseBlocks_eq hloose.le (by omega)]
      rfl
    · rfl
  · rfl

theorem closeBrace_eq (h : Cursors src i s) (hi : i < src.length) (hdepth : s.depth ≠ 0) :
    closeBrace src s i = some (s.closeBrace src i) := by
  unfold closeBrace Scan.closeBrace
  split_ifs with hdeep hskip
  · rfl
  · rfl
  · have hblock : s.skip = false := by simpa using hskip
    obtain ⟨-, hinit, -, -⟩ := h.start hdepth hblock
    obtain ⟨hstart, -⟩ := h.inside.body hdepth hblock
    have hfinished : finished src s i = some (s.finished src i) := by
      rw [finished, Scan.finished, slice?_eq hinit (by omega), Option.bind_some]
      split_ifs
      · rfl
      · rw [slice?_eq hstart hi.le]
        rfl
    rw [hfinished]
    rfl

theorem boundary_eq (c : UInt8) (hi : i < src.length) :
    boundary src s i c = some (s.boundary src i c) := by
  unfold boundary Scan.boundary
  by_cases hsemicolon : c = ch ';'
  · rw [if_pos hsemicolon, if_pos hsemicolon]
  rw [if_neg hsemicolon, if_neg hsemicolon]
  by_cases hcomma : c = ch ','
  · rw [if_pos hcomma, if_pos hcomma, lineStarted_eq hi]
    rfl
  rw [if_neg hcomma, if_neg hcomma]
  by_cases hnewline : c = ch '\n'
  · rw [if_pos hnewline, if_pos hnewline]
    cases s.line with
    | none =>
      dsimp only
      rw [blankBetween_eq (by omega)]
      rfl
    | some l =>
      dsimp only
      rw [blankBetween_eq (by omega)]
      rfl
  · rw [if_neg hnewline, if_neg hnewline]

theorem step_eq (h : Cursors src i s) (c : UInt8) (hi : i < src.length) :
    step src s i c = some (s.step src i c) := by
  cases hquote : s.quote with
  | some p => rw [step, hquote]
  | none =>
    rw [step, hquote]
    dsimp only
    -- Quotes and parentheses take no slice, and neither does a byte inside them.
    by_cases hmark : isQuote c ∨ c = ch '(' ∨ c = ch ')' ∨ s.paren > 0
    · rw [if_pos hmark]
    · rw [if_neg hmark, Scan.step, hquote]
      obtain ⟨hq, hopen, hclose, hparen⟩ :
          ¬ isQuote c ∧ c ≠ ch '(' ∧ c ≠ ch ')' ∧ ¬ s.paren > 0 := by
        simpa only [not_or] using hmark
      dsimp only
      rw [if_neg hq, if_neg hopen, if_neg hclose, if_neg hparen]
      split_ifs with hbrace hend hdepth hdepth
      · rw [openBrace_eq h hi]
        rfl
      · rw [slice?_eq (h.loose.1.trans h.init.1) hi.le]
        rfl
      · rw [closeBrace_eq h hi hdepth]
        rfl
      · rw [boundary_eq c hi]
        rfl
      · rfl

theorem finish_eq (h : Cursors src src.length s) : finish src s = some (s.finish src) := by
  unfold finish Scan.finish
  by_cases hdepth : s.depth > 0
  · rw [if_pos hdepth, if_pos hdepth]
    cases hskip : s.skip with
    | true => rfl
    | false =>
      obtain ⟨-, hinit, -, -⟩ := h.start (by omega) hskip
      obtain ⟨hstart, -⟩ := h.inside.body (by omega) hskip
      rw [if_neg Bool.false_ne_true, slice?_eq hinit hstart.le]
      rfl
  · rw [if_neg hdepth, if_neg hdepth]
    cases s.quote with
    | some p => rfl
    | none =>
      dsimp only
      split_ifs
      · rfl
      · rw [looseBlocks_eq (h.loose.1.trans h.init.1) le_rfl]
        rfl

theorem run_eq_of_cursors {rest before : Text} (h : Cursors (before ++ rest) before.length s) :
    run (before ++ rest) s before.length rest =
      some (Scan.run (before ++ rest) s before.length rest) := by
  -- The text stays the same from byte to byte, what is passed gets longer.
  induction rest generalizing before s with
  | nil =>
    rw [List.append_nil] at h ⊢
    exact finish_eq h
  | cons c rest ih =>
    rw [run, Scan.run, step_eq h c (by simp), Option.bind_some]
    cases hstep : s.step (before ++ c :: rest) before.length c with
    | error e => rfl
    | ok r =>
      obtain ⟨s', found⟩ := r
      have hsplit : before ++ c :: rest = before ++ [c] ++ rest := by simp
      have hlength : before.length + 1 = (before ++ [c]).length := by simp
      have hnext := h.step hstep
      rw [hsplit, hlength] at hnext ⊢
      dsimp only
      rw [ih hnext]
      rfl

end Equal

/-- No slice is out of range: checking each one changes nothing. -/
theorem run_eq (t : Text) : run t {} 0 t = some (locate t) := by
  have hstart : Cursors ([] ++ t) ([] : Text).length {} := cursors_empty t
  exact run_eq_of_cursors hstart

end Scan.Guarded

end Stylesheet
