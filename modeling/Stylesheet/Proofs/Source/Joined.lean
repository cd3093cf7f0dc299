import Stylesheet.Proofs.Source.Passages
import Stylesheet.Proofs.Source.Tiling

/-!
# Blocks of joined texts

When the pass has closed a block at the top level, nothing of what it has read matters any
more: the places it keeps are all at the end of the block. So the blocks of a text that ends
in a block, and of another after it on a new line, are those of the one and then those of the
other, at other offsets.

Both halves of the argument compare a pass over a text with one over the same text in the
middle of a longer one. The places in front of the text move by the length of what stands
before it, but for the places at its very start, which move to the line end there.

## Main definitions

* `Scan.Moved` — the states of a pass and of one over the text in the middle of another
* `Scan.Fresh` — states in which nothing that was come across matters any more

## Main results

* `Scan.Moved.pass` — the passes find the same blocks
* `locate_append` — the blocks of joined texts
-/

namespace Stylesheet

open Text

/-! ### Texts after a line end -/

/-- A text, or a line end and the text. -/
def NewLined (t t' : Text) : Prop := t' = t ∨ t' = ch '\n' :: t

theorem trim_newline_cons (t : Text) : trim (ch '\n' :: t) = trim t :=
  trim_blank_append (w := [ch '\n']) (by decide) t

theorem NewLined.trim_eq {t t' : Text} (h : NewLined t t') : trim t' = trim t := by
  rcases h with rfl | rfl
  · rfl
  · exact trim_newline_cons t

theorem NewLined.isBlank_eq {t t' : Text} (h : NewLined t t') : isBlank t' = isBlank t := by
  rw [isBlank, isBlank, h.trim_eq]

/-- The first part of a text goes on before it. -/
theorem splitFrom_eq_modifyHead (sep : UInt8) (part t : Text) :
    splitFrom sep part t = (split sep t).modifyHead (part.reverse ++ ·) := by
  induction t generalizing part with
  | nil => rw [split, splitFrom, splitFrom]; simp
  | cons c t ih =>
    rw [split, splitFrom, splitFrom]
    split_ifs
    · simp
    · rw [ih (c :: part), ih [c]]
      cases split sep t <;> simp

theorem NewLined.map_trim_split {t t' : Text} (h : NewLined t t') :
    (split (ch ';') t').map trim = (split (ch ';') t).map trim := by
  rcases h with rfl | rfl
  · rfl
  · have hne : ch '\n' ≠ ch ';' := by decide
    rw [split, splitFrom, if_neg hne, splitFrom_eq_modifyHead]
    cases split (ch ';') t with
    | nil => rfl
    | cons part parts => simp [trim_newline_cons]

namespace Scan

/-- The pass over a text, part by part. -/
theorem run_append (src : Text) (s : Scan) (i : Nat) (t u : Text) :
    run src s i (t ++ u) =
      match s.pass src i t with
      | (found, .error e) => (found, some e)
      | (found, .ok s') =>
        (found ++ (run src s' (i + t.length) u).1, (run src s' (i + t.length) u).2) := by
  -- the state and the place change with every byte
  induction t generalizing s i with
  | nil => rfl
  | cons c t ih =>
    rw [List.cons_append, run, pass]
    cases s.step src i c with
    | error e => rfl
    | ok r =>
      obtain ⟨s', found⟩ := r
      dsimp only
      have hlength : i + 1 + t.length = i + (c :: t).length := by
        rw [List.length_cons]
        omega
      rw [ih s' (i + 1), hlength]
      obtain ⟨more, last⟩ := s'.pass src (i + 1) t
      cases last <;> simp [List.append_assoc]

theorem pass_append (src : Text) (s : Scan) (i : Nat) (t u : Text) :
    pass src s i (t ++ u) =
      match s.pass src i t with
      | (found, .error e) => (found, .error e)
      | (found, .ok s') =>
        (found ++ (pass src s' (i + t.length) u).1, (pass src s' (i + t.length) u).2) := by
  induction t generalizing s i with
  | nil => rfl
  | cons c t ih =>
    rw [List.cons_append, pass, pass]
    cases s.step src i c with
    | error e => rfl
    | ok r =>
      obtain ⟨s', found⟩ := r
      dsimp only
      have hlength : i + 1 + t.length = i + (c :: t).length := by
        rw [List.length_cons]
        omega
      rw [ih s' (i + 1), hlength]
      obtain ⟨more, last⟩ := s'.pass src (i + 1) t
      cases last <;> simp [List.append_assoc]

/-! ### Places that move -/

/-- Where a place of a text is with `k` bytes before the text: further on, but the start of the
text is taken to be at the last of those bytes. -/
def shift (k p : Nat) : Nat := if p = 0 then k - 1 else p + k

theorem shift_pos {k p : Nat} (hp : p ≠ 0) : shift k p = p + k := if_neg hp

theorem shift_lt_iff {k p q : Nat} : shift k p < shift k q ↔ p < q := by
  unfold shift
  split_ifs <;> omega

/-- The states of a pass over a text and of one over the text after `k` other bytes. -/
structure Moved (k : Nat) (s s' : Scan) : Prop where
  depth : s'.depth = s.depth
  paren : s'.paren = s.paren
  quote : s'.quote.map (·.1) = s.quote.map (·.1)
  escaped : s'.escaped = s.escaped
  skip : s'.skip = s.skip
  init : s'.init = shift k s.init
  start : s.depth ≠ 0 → s.skip = false → s'.start = s.start + k
  safe : s'.safe = shift k s.safe
  loose : s'.loose = shift k s.loose
  line : s'.line = s.line.map (shift k)

/-- A text in the middle of another, at its start or at the start of a line. -/
structure Middle (src src' front : Text) : Prop where
  eq : ∃ rest, src' = front ++ src ++ rest
  front : front = [] ∨ ∃ u, front = u ++ [ch '\n']

section Moved

variable {src src' front : Text} {s s' : Scan} {i : Nat}

/-- A slice from a place the pass keeps. -/
theorem Middle.slice (h : Middle src src' front) (p : Nat) {q : Nat} (hq : q ≤ src.length) :
    NewLined (slice src p q) (slice src' (shift front.length p) (q + front.length)) := by
  obtain ⟨⟨rest, rfl⟩, hfront⟩ := h
  have htake : (front ++ src ++ rest).take (q + front.length) = front ++ src.take q := by
    rw [List.append_assoc, Nat.add_comm, List.take_length_add_append,
      List.take_append_of_le_length hq]
  rw [Text.slice, Text.slice, htake]
  by_cases hp : p = 0
  · -- only the start of the text takes a byte of the front along, and that is a line end
    subst hp
    rcases hfront with rfl | ⟨u, rfl⟩
    · exact .inl rfl
    · right
      simp [shift]
  · left
    rw [shift_pos hp, Nat.add_comm, List.drop_length_add_append]

theorem blankBetween_eq (src : Text) (p q : Nat) :
    blankBetween src p q = isBlank (slice src p q) := by
  unfold blankBetween
  by_cases hle : q ≤ p
  · have hempty : slice src p q = [] := by
      rw [Text.slice, List.drop_eq_nil_iff]
      exact Nat.le_trans (List.length_take_le _ _) hle
    rw [hempty]
    simp [hle]
    decide
  · simp [hle]

/-- Whether a line has started before the byte at `i`. -/
theorem Middle.blankBefore (h : Middle src src' front) (p : Nat) (hi : i ≤ src.length) :
    blankBetween src' (shift front.length p) (i + front.length - 1) =
      blankBetween src p (i - 1) := by
  by_cases hzero : i = 0
  · subst hzero
    have hle : 0 + front.length - 1 ≤ shift front.length p := by
      unfold shift
      split_ifs <;> omega
    simp only [blankBetween, ge_iff_le, hle, decide_true, Bool.true_or, Nat.zero_le, Nat.zero_sub]
  · have hlast : i + front.length - 1 = i - 1 + front.length := by omega
    rw [hlast, blankBetween_eq, blankBetween_eq]
    exact (h.slice p (by omega)).isBlank_eq

theorem Middle.lineStarted (h : Middle src src' front) (hs : Moved front.length s s')
    (hi : i ≤ src.length) :
    s'.lineStarted src' (i + front.length) =
      (s.lineStarted src i).map (shift front.length) := by
  unfold Scan.lineStarted
  rw [hs.line]
  cases s.line with
  | none => rfl
  | some l =>
    dsimp only [Option.map_some]
    rw [h.blankBefore l hi]
    split_ifs <;> rfl

theorem Middle.afterHash (h : Middle src src' front) (hi : i ≤ src.length) :
    afterHash src' (i + front.length) = afterHash src i := by
  obtain ⟨⟨rest, rfl⟩, hfront⟩ := h
  unfold Stylesheet.afterHash at0
  by_cases hzero : i = 0
  · subst hzero
    rcases hfront with rfl | ⟨u, rfl⟩
    · simp
    · -- what stands before the text ends in a line end, which is no number sign
      have hne : ch '\n' ≠ ch '#' := by decide
      simp [List.getD_eq_getElem?_getD, hne]
  · have hlast : i + front.length - 1 = front.length + (i - 1) := by omega
    have hpos : 0 < i + front.length ∧ 0 < i := by omega
    rw [hlast, List.append_assoc, List.getD_eq_getElem?_getD, List.getD_eq_getElem?_getD,
      List.getElem?_append_right (Nat.le_add_right _ _), Nat.add_sub_cancel_left,
      List.getElem?_append_left (by omega)]
    simp [hpos]

/-- Where a header may start. -/
theorem Middle.init (h : Middle src src' front) (hs : Moved front.length s s')
    (hi : i ≤ src.length) :
    (s'.lineStarted src' (i + front.length)).getD s'.init =
      shift front.length ((s.lineStarted src i).getD s.init) := by
  rw [h.lineStarted hs hi, hs.init]
  cases s.lineStarted src i <;> rfl

/-- The declarations after a place the pass keeps. -/
theorem Middle.looseBlocks (h : Middle src src' front) (p : Nat) {q : Nat} (hq : q ≤ src.length) :
    (looseBlocks src' (shift front.length p) (q + front.length)).map Block.parts =
      (looseBlocks src p q).map Block.parts := by
  rw [Stylesheet.looseBlocks, Stylesheet.looseBlocks, map_parts_looseParts, map_parts_looseParts,
    (h.slice p hq).map_trim_split]

theorem Moved.openBrace (hs : Moved front.length s s') (h : Middle src src' front)
    (hcursors : Cursors src i s) (hi : i < src.length) :
    Moved front.length (s.openBrace src i).1 (s'.openBrace src' (i + front.length)).1 ∧
      (s'.openBrace src' (i + front.length)).2.map Block.parts =
        (s.openBrace src i).2.map Block.parts := by
  unfold Scan.openBrace
  rw [hs.depth, h.afterHash (by omega)]
  dsimp only
  rw [h.init hs (by omega), hs.loose]
  -- which of the places is further on decides what is loose, and `shift` keeps their order
  have hheader := hcursors.header.2.1
  generalize (s.lineStarted src i).getD s.init = init at hheader ⊢
  simp only [shift_lt_iff]
  split_ifs with hdepth hhash hloose
  · exact ⟨⟨rfl, hs.paren, hs.quote, hs.escaped, rfl, hs.init, nofun, hs.safe, rfl, hs.line⟩,
      rfl⟩
  · refine ⟨⟨rfl, hs.paren, hs.quote, hs.escaped, hs.skip, rfl, fun _ _ => rfl, hs.safe, rfl, rfl⟩,
      ?_⟩
    rw [shift_pos (by omega : init ≠ 0)]
    exact h.looseBlocks s.loose (by omega)
  · exact ⟨⟨rfl, hs.paren, hs.quote, hs.escaped, hs.skip, rfl, fun _ _ => rfl, hs.safe, rfl, rfl⟩,
      rfl⟩
  · refine ⟨⟨rfl, hs.paren, hs.quote, hs.escaped, hs.skip, hs.init, ?_, hs.safe, rfl, hs.line⟩, rfl⟩
    exact fun _ => hs.start hdepth

theorem Moved.closeBrace (hs : Moved front.length s s') (h : Middle src src' front)
    (hcursors : Cursors src i s) (hi : i < src.length) (hdepth : s.depth ≠ 0) :
    Moved front.length (s.closeBrace src i).1 (s'.closeBrace src' (i + front.length)).1 ∧
      (s'.closeBrace src' (i + front.length)).2.map Block.parts =
        (s.closeBrace src i).2.map Block.parts := by
  have hafter : i + front.length + 1 = shift front.length (i + 1) := by
    rw [shift_pos (Nat.succ_ne_zero i)]
    omega
  unfold Scan.closeBrace
  rw [hs.depth, hs.skip]
  split_ifs with hdeep hskip
  · refine ⟨⟨rfl, hs.paren, hs.quote, hs.escaped, rfl, hs.init, ?_, hs.safe, hs.loose, hs.line⟩,
      rfl⟩
    exact fun _ => hs.start hdepth
  · exact ⟨⟨rfl, hs.paren, hs.quote, hs.escaped, rfl, hs.init, fun h => absurd rfl h, hs.safe,
      hs.loose, hs.line⟩, rfl⟩
  · refine ⟨⟨rfl, hs.paren, hs.quote, hs.escaped, rfl, hafter, fun h => absurd rfl h, hafter,
      hafter, rfl⟩, ?_⟩
    -- the header and the body are the same slices
    have hblock : s.skip = false := by simpa using hskip
    obtain ⟨-, -, -, hbrace⟩ := hcursors.start hdepth hblock
    have hstart : s.start < src.length := (List.getElem?_eq_some_iff.mp hbrace).1
    have hheader := h.slice s.init (Nat.le_of_lt hstart)
    have hbody := h.slice (s.start + 1) (Nat.le_of_lt hi)
    rw [shift_pos (Nat.succ_ne_zero _)] at hbody
    have hnext : s.start + front.length + 1 = s.start + 1 + front.length := by omega
    unfold finished
    dsimp only
    rw [hs.init, hs.start hdepth hblock, hheader.trim_eq, hnext]
    split_ifs
    · rfl
    · simp only [List.map_cons, List.map_nil, Block.parts]
      rw [hbody.trim_eq]

theorem Moved.boundary (hs : Moved front.length s s') (h : Middle src src' front)
    (hi : i < src.length) (hdepth : s.depth = 0) (c : UInt8) :
    Moved front.length (s.boundary src i c) (s'.boundary src' (i + front.length) c) := by
  have hafter : i + front.length + 1 = shift front.length (i + 1) := by
    rw [shift_pos (Nat.succ_ne_zero i)]
    omega
  -- at the top level no block has started
  have htop : s.depth ≠ 0 → s.skip = false → s'.start = s.start + front.length :=
    fun h => absurd hdepth h
  unfold Scan.boundary
  rw [h.init hs (by omega)]
  by_cases hsemicolon : c = ch ';'
  · rw [if_pos hsemicolon, if_pos hsemicolon]
    exact ⟨hs.depth, hs.paren, hs.quote, hs.escaped, hs.skip, hafter, htop, hafter, hs.loose, rfl⟩
  rw [if_neg hsemicolon, if_neg hsemicolon]
  by_cases hcomma : c = ch ','
  · rw [if_pos hcomma, if_pos hcomma]
    exact ⟨hs.depth, hs.paren, hs.quote, hs.escaped, hs.skip, rfl, htop, hafter, hs.loose, rfl⟩
  rw [if_neg hcomma, if_neg hcomma]
  by_cases hnewline : c = ch '\n'
  · rw [if_pos hnewline, if_pos hnewline, hs.line]
    cases hline : s.line with
    | none =>
      dsimp only [Option.map_none]
      rw [hs.safe, h.blankBefore _ (by omega)]
      split_ifs
      · exact hs
      · exact ⟨hs.depth, hs.paren, hs.quote, hs.escaped, hs.skip, hs.init, htop, rfl, hs.loose,
          congrArg some hafter⟩
    | some l =>
      dsimp only [Option.map_some]
      rw [h.blankBefore l (by omega)]
      split_ifs
      · exact hs
      · exact ⟨hs.depth, hs.paren, hs.quote, hs.escaped, hs.skip, hafter, htop, hs.safe, hs.loose,
          rfl⟩
  · rw [if_neg hnewline, if_neg hnewline]
    exact hs

/-! ### The pass -/

/-- What a byte does to two states: an error each, or states that are moved and the same blocks
but for their offsets. -/
inductive Parallel (k : Nat) : Except StructuralError (Scan × List Block) →
    Except StructuralError (Scan × List Block) → Prop
  | error (e e' : StructuralError) : Parallel k (.error e) (.error e')
  | ok {s s' : Scan} {found found' : List Block} (moved : Moved k s s')
      (parts : found'.map Block.parts = found.map Block.parts) :
      Parallel k (.ok (s, found)) (.ok (s', found'))

/-- One byte does the same to both states. -/
theorem Moved.step (hs : Moved front.length s s') (h : Middle src src' front)
    (hcursors : Cursors src i s) (hi : i < src.length) (c : UInt8) :
    Parallel front.length (s.step src i c) (s'.step src' (i + front.length) c) := by
  have hafter : i + front.length + 1 = shift front.length (i + 1) := by
    rw [shift_pos (Nat.succ_ne_zero i)]
    omega
  have hopen := hs.quote
  unfold Scan.step
  cases hquote : s.quote with
  | some q =>
    -- inside quotes both states see the same mark, though it stands at another place
    obtain ⟨q, j⟩ := q
    rw [hquote] at hopen
    obtain ⟨⟨q', j'⟩, hquote', hsame⟩ := Option.map_eq_some_iff.mp hopen
    obtain rfl : q' = q := hsame
    rw [hquote']
    dsimp only
    rw [hs.escaped]
    refine .ok ?_ rfl
    split_ifs
    · exact { hs with escaped := rfl, quote := rfl }
    · exact { hs with escaped := rfl, quote := rfl }
    · exact { hs with escaped := rfl, quote := rfl }
    · exact hs
  | none =>
    rw [hquote] at hopen
    rw [Option.map_eq_none_iff.mp hopen]
    dsimp only
    rw [hs.paren, hs.depth]
    -- what a byte is taken for depends on the depths alone, which are the same
    split_ifs with _ _ _ _ _ _ hdepth hdepth
    · exact .ok { hs with depth := rfl, paren := rfl, quote := rfl } rfl
    · exact .ok
        { hs with depth := rfl, paren := rfl, quote := rfl, line := rfl, safe := hafter } rfl
    · exact .ok { hs with depth := rfl, paren := rfl, quote := rfl } rfl
    · exact .ok hs rfl
    · obtain ⟨hmoved, hparts⟩ := hs.openBrace h hcursors hi
      exact .ok hmoved hparts
    · exact .error _ _
    · obtain ⟨hmoved, hparts⟩ := hs.closeBrace h hcursors hi hdepth
      exact .ok hmoved hparts
    · exact .ok (hs.boundary h hi hdepth c) rfl
    · exact .ok hs rfl

/-- What two passes leave: an error each, or states that are moved. -/
inductive Lasts (k : Nat) : Except StructuralError Scan → Except StructuralError Scan → Prop
  | error (e e' : StructuralError) : Lasts k (.error e) (.error e')
  | ok {s s' : Scan} (moved : Moved k s s') : Lasts k (.ok s) (.ok s')

/-- The passes over what is left of the text find the same blocks. -/
theorem Moved.pass {before t : Text} (h : Middle (before ++ t) src' front)
    (hs : Moved front.length s s') (hcursors : Cursors (before ++ t) before.length s) :
    (s'.pass src' (before.length + front.length) t).1.map Block.parts =
        (s.pass (before ++ t) before.length t).1.map Block.parts ∧
      Lasts front.length (s.pass (before ++ t) before.length t).2
        (s'.pass src' (before.length + front.length) t).2 := by
  -- byte by byte: the states stay moved, and what is found is the same
  induction t generalizing before s s' with
  | nil => exact ⟨rfl, .ok hs⟩
  | cons c t ih =>
    have hstep := hs.step h hcursors (by simp) c
    rw [Scan.pass, Scan.pass]
    generalize hr : s.step (before ++ c :: t) before.length c = r at hstep ⊢
    generalize s'.step src' (before.length + front.length) c = r' at hstep ⊢
    cases hstep with
    | error e e' => exact ⟨rfl, .error e e'⟩
    | @ok s₁ s₁' found found' hmoved hparts =>
      have hnext := hcursors.step hr
      have hlength : (before ++ [c]).length = before.length + 1 := by simp
      rw [← hlength] at hnext
      rw [List.append_cons] at h hnext ⊢
      obtain ⟨hmore, hlasts⟩ := ih h hmoved hnext
      rw [hlength, Nat.add_right_comm] at hmore hlasts
      refine ⟨?_, hlasts⟩
      dsimp only
      rw [List.map_append, List.map_append, hparts, hmore]

/-- At the end of both texts the same is left. -/
theorem Moved.finish (hs : Moved front.length s s') (h : Middle src src' front)
    (hend : src'.length = src.length + front.length) :
    (s'.finish src').1.map Block.parts = (s.finish src).1.map Block.parts ∧
      ((s'.finish src').2 = none ↔ (s.finish src).2 = none) := by
  have hopen := hs.quote
  unfold Scan.finish
  rw [hs.depth, hs.paren]
  cases hquote : s.quote with
  | some q =>
    rw [hquote] at hopen
    obtain ⟨q', hquote', -⟩ := Option.map_eq_some_iff.mp hopen
    rw [hquote']
    split_ifs <;> simp
  | none =>
    rw [hquote] at hopen
    rw [Option.map_eq_none_iff.mp hopen]
    by_cases hdepth : s.depth > 0
    · rw [if_pos hdepth, if_pos hdepth]
      split_ifs <;> simp
    rw [if_neg hdepth, if_neg hdepth]
    by_cases hparen : s.paren > 0
    · simp [hparen]
    · simp only [hparen, if_false, and_true, iff_self]
      rw [hs.loose, hend]
      exact h.looseBlocks s.loose (Nat.le_refl _)

end Moved

/-! ### After a block -/

theorem mem_splitFrom {sep c : UInt8} {part t : Text} (hne : c ≠ sep) (hc : c ∈ part ∨ c ∈ t) :
    ∃ u ∈ splitFrom sep part t, c ∈ u := by
  -- by the cases of the splitting: the part goes on, or ends at a separator
  fun_induction splitFrom sep part t with
  | case1 part => exact ⟨part.reverse, List.mem_singleton_self _, by simpa using hc⟩
  | case2 part r ih =>
    rcases hc with hc | hc
    · exact ⟨part.reverse, List.mem_cons_self, List.mem_reverse.mpr hc⟩
    · obtain ⟨u, hu, hcu⟩ := ih (.inr ((List.mem_cons.mp hc).resolve_left hne))
      exact ⟨u, List.mem_cons_of_mem _ hu, hcu⟩
  | case3 part a r ha ih =>
    refine ih ?_
    rcases hc with hc | hc
    · exact .inl (List.mem_cons_of_mem a hc)
    · rcases List.mem_cons.mp hc with rfl | hc
      · exact .inl List.mem_cons_self
      · exact .inr hc

/-- A byte that is neither white space nor a semicolon is part of a declaration. -/
theorem looseBlocks_ne_nil {src : Text} {p q : Nat} {c : UInt8} (hc : c ∈ slice src p q)
    (hne : c ≠ ch ';') (hblank : inBlank c = false) : looseBlocks src p q ≠ [] := by
  have hmem : c ∈ ([] : Text) ∨ c ∈ slice src p q := .inr hc
  obtain ⟨u, hu, hcu⟩ := mem_splitFrom hne hmem
  -- the part with the byte in it does not vanish when it is trimmed
  have htrim : trim u ≠ [] := by
    intro hnil
    obtain ⟨w, v, hsplit, hw, hv⟩ := exists_trim_eq u
    rw [hsplit, hnil, List.append_nil] at hcu
    have hcontra : inBlank c = true := (List.mem_append.mp hcu).elim (hw c) (hv c)
    simp [hblank] at hcontra
  have hparts : (trim u, none) ∈ (looseBlocks src p q).map Block.parts := by
    rw [looseBlocks, map_parts_looseParts]
    refine List.mem_map_of_mem (List.mem_filter.mpr ⟨List.mem_map_of_mem hu, ?_⟩)
    simpa using htrim
  intro hnil
  rw [hnil] at hparts
  cases hparts

/-- Nothing that a pass has come across in `n` bytes matters any more. -/
structure Fresh (n : Nat) (s : Scan) : Prop where
  depth : s.depth = 0
  paren : s.paren = 0
  quote : s.quote = none
  escaped : s.escaped = false
  skip : s.skip = false
  init : s.init = n
  safe : s.safe = n
  loose : s.loose = n
  line : s.line = none

/-- A closing brace after which nothing is open had a partner. -/
theorem closeBrace_of_step {src : Text} {s s' : Scan} {i : Nat} {found : List Block}
    (hproper : s.brackets.Proper) (hstep : s.step src i (ch '\x7d') = .ok (s', found))
    (hclosed : s'.brackets.Closed) :
    s.quote = none ∧ s.paren = 0 ∧ s.depth ≠ 0 ∧ s.closeBrace src i = (s', found) := by
  obtain ⟨hquote', hparen', -⟩ := hclosed
  have hplain : isQuote (ch '\x7d') = false := by decide
  unfold Scan.step at hstep
  cases hquote : s.quote with
  | some q =>
    obtain ⟨q, j⟩ := q
    have hq : isQuote q = true := hproper.isQuote q (by simp [brackets, hquote])
    -- in quotes a brace would leave the quotes open
    have hne : ch '\x7d' ≠ q := by
      rintro rfl
      exact absurd hq (by simp [hplain])
    have hescape : ch '\x7d' ≠ ch '\\' := by decide
    rw [hquote] at hstep
    simp only [hne, hescape, if_false, Except.ok.injEq, Prod.mk.injEq] at hstep
    obtain ⟨rfl, -⟩ := hstep
    split_ifs at hquote' <;> simp [brackets, hquote] at hquote'
  | none =>
    have hopen : ch '\x7d' ≠ ch '(' := by decide
    have hclose : ch '\x7d' ≠ ch ')' := by decide
    have hbrace : ch '\x7d' ≠ ch '\x7b' := by decide
    rw [hquote] at hstep
    simp only [hplain, hopen, hclose, hbrace, if_false, if_true, Bool.false_eq_true] at hstep
    -- inside parentheses it would leave them open
    split_ifs at hstep with hparen hdepth
    · simp only [Except.ok.injEq, Prod.mk.injEq] at hstep
      obtain ⟨rfl, -⟩ := hstep
      exact absurd hparen' (Nat.ne_of_gt hparen)
    · exact ⟨rfl, by omega, hdepth, Except.ok.inj hstep⟩

/-- A pass that ends with a block and leaves no declarations is fresh. -/
theorem fresh_of_closeBrace {src : Text} {s s' : Scan} {found : List Block}
    (hcursors : Cursors src (src.length - 1) s) (hlast : src.getLast? = some (ch '\x7d'))
    (hquote : s.quote = none) (hparen : s.paren = 0)
    (hstep : s.closeBrace src (src.length - 1) = (s', found)) (hclosed : s'.brackets.Closed)
    (hloose : looseBlocks src s'.loose src.length = []) : s'.Fresh src.length := by
  have hescaped : s.escaped = false := hcursors.inside.proper.escaped (by simp [brackets, hquote])
  have hlength : src.length - 1 + 1 = src.length := by
    have hne : src ≠ [] := by
      rintro rfl
      cases hlast
    have hpos := List.length_pos_iff.mpr hne
    omega
  rcases closeBrace_cases src s (src.length - 1) with ⟨hdeep, heq⟩ | ⟨-, -, heq⟩ | ⟨-, hskip, heq⟩
  · -- a brace deeper inside leaves another one open
    obtain ⟨rfl, -⟩ := Prod.mk.inj (heq.symm.trans hstep)
    have hdepth : s.depth - 1 = 0 := hclosed.2.2
    omega
  · -- An interpolation is part of declarations, which would be left.
    obtain ⟨rfl, -⟩ := Prod.mk.inj (heq.symm.trans hstep)
    have hle : s.loose ≤ src.length - 1 := Nat.le_trans hcursors.loose.1 hcursors.init.1
    have hmem : ch '\x7d' ∈ slice src s.loose src.length := by
      obtain ⟨before, rfl⟩ := List.getLast?_eq_some_iff.mp hlast
      rw [List.length_append, List.length_singleton, Nat.add_sub_cancel] at hle
      rw [slice, List.take_length, List.drop_append_of_le_length hle]
      simp
    exact absurd hloose (looseBlocks_ne_nil hmem (by decide) (by decide))
  · obtain ⟨rfl, -⟩ := Prod.mk.inj (heq.symm.trans hstep)
    exact ⟨rfl, hparen, hquote, hescaped, hskip, hlength, hlength, hlength, rfl⟩

/-- The last step of a pass that comes to its end. -/
theorem exists_step_of_pass {src t : Text} {c : UInt8} {s s' : Scan} {i : Nat}
    {found : List Block} (h : s.pass src i (t ++ [c]) = (found, .ok s')) :
    ∃ first s₁ last, s.pass src i t = (first, .ok s₁) ∧
      s₁.step src (i + t.length) c = .ok (s', last) := by
  rw [pass_append] at h
  rcases hbefore : s.pass src i t with ⟨first, e | s₁⟩
  · rw [hbefore] at h
    cases h
  rw [hbefore, Prod.mk.injEq, pass] at h
  cases hstep : s₁.step src (i + t.length) c with
  | error e =>
    rw [hstep] at h
    cases h.2
  | ok r =>
    obtain ⟨s₂, last⟩ := r
    rw [hstep] at h
    obtain rfl : s₂ = s' := Except.ok.inj h.2
    exact ⟨first, s₁, last, rfl, hstep⟩

end Scan

open Scan

/-- Where all is closed and there are blocks only, the pass finds them before its end, and
leaves no declarations. -/
theorem exists_pass_of_bodies {a : Text} (hok : (locate a).2 = none)
    (hbodies : ∀ b ∈ (locate a).1, b.body ≠ none) :
    ∃ s, Scan.pass a {} 0 a = ((locate a).1, .ok s) ∧ s.brackets.Closed ∧
      looseBlocks a s.loose a.length = [] := by
  have hlocate := run_append a {} 0 a []
  rw [List.append_nil] at hlocate
  change locate a = _ at hlocate
  rcases hpass : Scan.pass a {} 0 a with ⟨found, e | s⟩
  · rw [hpass] at hlocate
    rw [hlocate] at hok
    cases hok
  rw [hpass] at hlocate
  change locate a = (found ++ (s.finish a).1, (s.finish a).2) at hlocate
  rw [hlocate] at hok hbodies ⊢
  have hclosed := (finish_eq_none_iff a s).mp hok
  obtain ⟨hquote, hparen, hdepth⟩ := hclosed
  have hfinish : s.finish a = (looseBlocks a s.loose a.length, none) :=
    finish_of_clear (by simpa [brackets] using hquote) hparen hdepth
  -- what is left at the end would be a block without a body
  have hloose : looseBlocks a s.loose a.length = [] := by
    by_contra hne
    obtain ⟨b, hb⟩ := List.exists_mem_of_ne_nil _ hne
    refine hbodies b ?_ (body_of_mem_looseParts hb)
    rw [hfinish]
    exact List.mem_append_right _ hb
  exact ⟨s, by rw [hfinish, hloose, List.append_nil], ⟨hquote, hparen, hdepth⟩, hloose⟩

/-- A text that ends in a block, with nothing but blocks before it, leaves the pass fresh. -/
theorem exists_fresh {a : Text} (hlast : a.getLast? = some (ch '\x7d')) (hok : (locate a).2 = none)
    (hbodies : ∀ b ∈ (locate a).1, b.body ≠ none) :
    ∃ s, Scan.pass a {} 0 a = ((locate a).1, .ok s) ∧ s.Fresh a.length := by
  obtain ⟨s, hpass, hclosed, hloose⟩ := exists_pass_of_bodies hok hbodies
  refine ⟨s, hpass, ?_⟩
  obtain ⟨before, rfl⟩ := List.getLast?_eq_some_iff.mp hlast
  obtain ⟨first, s₁, last, hbefore, hstep⟩ := exists_step_of_pass hpass
  have hcursors : Cursors (before ++ [ch '\x7d']) before.length s₁ := by
    have hstart : Cursors ([] ++ before ++ [ch '\x7d']) ([] : Text).length {} := cursors_empty _
    exact hstart.pass hbefore
  rw [Nat.zero_add] at hstep
  obtain ⟨hquote, hparen, -, hbrace⟩ :=
    closeBrace_of_step hcursors.inside.proper hstep hclosed
  have hplace : (before ++ [ch '\x7d']).length - 1 = before.length := by simp
  rw [← hplace] at hcursors hbrace
  exact fresh_of_closeBrace hcursors hlast hquote hparen hbrace hclosed hloose

/-- From a fresh state a line end does nothing. -/
theorem Scan.Fresh.step {n : Nat} {s : Scan} (h : s.Fresh n) (src : Text) :
    s.step src n (ch '\n') = .ok (s, []) := by
  have hquote : isQuote (ch '\n') = false := by decide
  have hbytes : ch '\n' ≠ ch '(' ∧ ch '\n' ≠ ch ')' ∧ ch '\n' ≠ ch '\x7b' ∧
      ch '\n' ≠ ch '\x7d' ∧ ch '\n' ≠ ch ';' ∧ ch '\n' ≠ ch ',' := by decide
  have hblank : blankBetween src n (n - 1) = true := by simp [blankBetween]
  simp [Scan.step, h.quote, h.paren, h.depth, hquote, hbytes, Scan.boundary, h.line, h.safe, hblank]

/-- A fresh state is the state at the start of a text after a line end. -/
theorem Scan.Fresh.moved {n : Nat} {s : Scan} (h : s.Fresh n) : Moved (n + 1) {} s where
  depth := h.depth
  paren := h.paren
  quote := by rw [h.quote]
  escaped := h.escaped
  skip := h.skip
  init := h.init
  start hopen := absurd rfl hopen
  safe := h.safe
  loose := h.loose
  line := h.line

theorem shift_zero (p : Nat) : shift 0 p = p := by
  unfold shift
  split_ifs with hp
  · exact hp.symm
  · rfl

theorem moved_refl (s : Scan) : Moved 0 s s where
  depth := rfl
  paren := rfl
  quote := rfl
  escaped := rfl
  skip := rfl
  init := (shift_zero _).symm
  start _ _ := rfl
  safe := (shift_zero _).symm
  loose := (shift_zero _).symm
  line := by
    cases s.line with
    | none => rfl
    | some l => exact congrArg some (shift_zero l).symm

theorem Scan.Fresh.of_moved {n : Nat} {s s' : Scan} (h : s.Fresh n) (hs : Moved 0 s s') :
    s'.Fresh n where
  depth := hs.depth.trans h.depth
  paren := hs.paren.trans h.paren
  quote := by simpa [h.quote] using hs.quote
  escaped := hs.escaped.trans h.escaped
  skip := hs.skip.trans h.skip
  init := (hs.init.trans (shift_zero _)).trans h.init
  safe := (hs.safe.trans (shift_zero _)).trans h.safe
  loose := (hs.loose.trans (shift_zero _)).trans h.loose
  line := by simpa [h.line] using hs.line

/-- The pass over a text ends in a fresh state whatever comes after it. -/
theorem exists_fresh_append {a : Text} (hlast : a.getLast? = some (ch '\x7d'))
    (hok : (locate a).2 = none) (hbodies : ∀ b ∈ (locate a).1, b.body ≠ none) (rest : Text) :
    ∃ found s, Scan.pass (a ++ rest) {} 0 a = (found, .ok s) ∧ s.Fresh a.length ∧
      found.map Block.parts = (locate a).1.map Block.parts := by
  obtain ⟨s, hpass, hfresh⟩ := exists_fresh hlast hok hbodies
  have hmiddle : Middle ([] ++ a) (a ++ rest) [] := ⟨⟨rest, rfl⟩, .inl rfl⟩
  obtain ⟨hfound, hlasts⟩ := (moved_refl {}).pass hmiddle (cursors_empty a)
  change (Scan.pass (a ++ rest) {} 0 a).1.map Block.parts =
    (Scan.pass a {} 0 a).1.map Block.parts at hfound
  change Lasts 0 (Scan.pass a {} 0 a).2 (Scan.pass (a ++ rest) {} 0 a).2 at hlasts
  rw [hpass] at hfound hlasts
  generalize Scan.pass (a ++ rest) {} 0 a = p at hfound hlasts ⊢
  obtain ⟨found, last⟩ := p
  cases hlasts with
  | @ok _ s' hmoved => exact ⟨found, s', rfl, hfresh.of_moved hmoved, hfound⟩

/-- The pass over a text at the end of another, from the state at its start. -/
theorem Scan.Moved.run {front b : Text} {s : Scan} (hs : Moved front.length {} s)
    (h : Middle b (front ++ b) front) :
    (s.run (front ++ b) front.length b).1.map Block.parts = (locate b).1.map Block.parts ∧
      ((s.run (front ++ b) front.length b).2 = none ↔ (locate b).2 = none) := by
  obtain ⟨hfound, hlasts⟩ := hs.pass (show Middle ([] ++ b) _ _ from h) (cursors_empty b)
  change (Scan.pass (front ++ b) s (0 + front.length) b).1.map Block.parts =
    (Scan.pass b {} 0 b).1.map Block.parts at hfound
  change Lasts _ (Scan.pass b {} 0 b).2
    (Scan.pass (front ++ b) s (0 + front.length) b).2 at hlasts
  have halone := run_append b {} 0 b []
  have hmoved := run_append (front ++ b) s front.length b []
  rw [List.append_nil] at halone hmoved
  change locate b = _ at halone
  rw [Nat.zero_add] at hfound hlasts
  -- both passes as passes over the part, and what their ends leave
  rw [halone, hmoved]
  generalize Scan.pass b {} 0 b = p at hfound hlasts
  generalize Scan.pass (front ++ b) s front.length b = p' at hfound hlasts
  obtain ⟨found, last⟩ := p
  obtain ⟨found', last'⟩ := p'
  cases hlasts with
  | error e e' => exact ⟨hfound, by simp⟩
  | ok hend =>
    have hlength : (front ++ b).length = b.length + front.length := by
      rw [List.length_append, Nat.add_comm]
    obtain ⟨hparts, hnone⟩ := hend.finish h hlength
    refine ⟨?_, hnone⟩
    rw [List.map_append, List.map_append]
    exact congr (congrArg _ hfound) hparts

/-- Where a text ends in a block and has nothing but blocks, what comes on the next line adds
its blocks to them, and is unbalanced there as it is alone. -/
theorem locate_append {a : Text} (hlast : a.getLast? = some (ch '\x7d'))
    (hok : (locate a).2 = none) (hbodies : ∀ b ∈ (locate a).1, b.body ≠ none) (b : Text) :
    (locate (a ++ ch '\n' :: b)).1.map Block.parts =
        (locate a).1.map Block.parts ++ (locate b).1.map Block.parts ∧
      ((locate (a ++ ch '\n' :: b)).2 = none ↔ (locate b).2 = none) := by
  obtain ⟨found, s, hpass, hfresh, hfound⟩ := exists_fresh_append hlast hok hbodies (ch '\n' :: b)
  have hrun := run_append (a ++ ch '\n' :: b) {} 0 a (ch '\n' :: b)
  change locate (a ++ ch '\n' :: b) = _ at hrun
  rw [hpass] at hrun
  dsimp only at hrun
  -- the line end changes nothing, and the rest is passed as it is alone
  rw [Nat.zero_add, Scan.run, hfresh.step] at hrun
  dsimp only at hrun
  have hfront : a ++ ch '\n' :: b = (a ++ [ch '\n']) ++ b := by simp
  have hlength : (a ++ [ch '\n']).length = a.length + 1 := by simp
  have hmiddle : Middle b (a ++ [ch '\n'] ++ b) (a ++ [ch '\n']) :=
    ⟨⟨[], by simp⟩, .inr ⟨a, rfl⟩⟩
  have hmoved : Moved (a ++ [ch '\n']).length {} s := hlength ▸ hfresh.moved
  obtain ⟨hparts, hnone⟩ := hmoved.run hmiddle
  rw [← hfront, hlength] at hparts hnone
  rw [hrun, List.nil_append, List.map_append, hfound, hparts]
  exact ⟨rfl, hnone⟩

end Stylesheet
