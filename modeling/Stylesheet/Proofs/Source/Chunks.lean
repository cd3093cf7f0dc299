import Stylesheet.Proofs.Source.Balance
import Stylesheet.Proofs.Text.Words

/-!
# Texts put together from blocks

A text that is put together from headers, braces and contents is taken apart into the
same. The headers stand on one line each, with balanced parentheses, and the contents
have balanced braces and neither quotes nor parentheses. A text without any of these
marks is taken apart at its semicolons.

Each part of such a text has a lemma that says how the pass goes over it; the state of
the pass is one of three, before a header, in a header and inside a block.

## Main definitions

* `parensBalanced`, `bracesBalanced` — nesting by one kind of bracket
* `Chunk` — a header and the content of its block

## Main results

* `Scan.run_chunk` — how the pass goes over one block
* `locate_chunks` — the blocks of a text put together from chunks
* `locate_loose` — the declarations of a text without braces
-/

namespace Stylesheet

open Text

/-- Parentheses are balanced, `depth` of them being open before the text. -/
def parensBalanced : (depth : Nat) → Text → Bool
  | depth, [] => depth = 0
  | depth, c :: r =>
    if c = ch '(' then parensBalanced (depth + 1) r
    else if c = ch ')' then depth > 0 && parensBalanced (depth - 1) r
    else parensBalanced depth r

/-- Braces are balanced, `depth` of them being open before the text, and there are
neither quotes nor parentheses. -/
def bracesBalanced : (depth : Nat) → Text → Bool
  | depth, [] => depth = 0
  | depth, c :: r =>
    if c = ch '\x7b' then bracesBalanced (depth + 1) r
    else if c = ch '\x7d' then depth > 0 && bracesBalanced (depth - 1) r
    else !isQuote c && c ≠ ch '(' && c ≠ ch ')' && bracesBalanced depth r

/-- A byte of a header on one line, besides parentheses. -/
def isHeaderByte (c : UInt8) : Bool :=
  !isQuote c && c ≠ ch '\x7b' && c ≠ ch '\x7d' && c ≠ ch ';' && c ≠ ch '\n'

/-- A byte between the blocks of a text. -/
def isPadByte (c : UInt8) : Bool := c = ch ' ' || c = ch '\n'

theorem eq_of_isPadByte {c : UInt8} (hc : isPadByte c = true) : c = ch ' ' ∨ c = ch '\n' := by
  simpa [isPadByte] using hc

theorem blank1_of_isPadByte {c : UInt8} (hc : isPadByte c = true) : blank1 c = true := by
  rcases eq_of_isPadByte hc with rfl | rfl <;> decide

theorem bracesBalanced_append {t u : Text} {depth : Nat} (ht : bracesBalanced depth t = true)
    (hu : bracesBalanced 0 u = true) : bracesBalanced depth (t ++ u) = true := by
  induction t generalizing depth with
  | nil =>
    obtain rfl : depth = 0 := by simpa [bracesBalanced] using ht
    exact hu
  | cons c r ih =>
    rw [List.cons_append, bracesBalanced]
    rw [bracesBalanced] at ht
    split_ifs at ht ⊢ with hopen hclose
    · exact ih ht
    · simp only [Bool.and_eq_true] at ht ⊢
      exact ⟨ht.1, ih ht.2⟩
    · simp only [Bool.and_eq_true] at ht ⊢
      exact ⟨ht.1, ih ht.2⟩

/-- A block in braces is balanced if its content is. -/
theorem bracesBalanced_enclose {t : Text} {depth : Nat} (ht : bracesBalanced depth t = true) :
    bracesBalanced (depth + 1) (t ++ [ch '\x7d']) = true := by
  -- Below the brace around them all counts are one more, and the last brace takes that back.
  induction t generalizing depth with
  | nil =>
    obtain rfl : depth = 0 := by simpa [bracesBalanced] using ht
    rfl
  | cons c r ih =>
    rw [List.cons_append, bracesBalanced]
    rw [bracesBalanced] at ht
    split_ifs at ht ⊢ with hopen hclose
    · exact ih ht
    · simp only [Bool.and_eq_true, decide_eq_true_eq] at ht ⊢
      have hrest := ih ht.2
      rw [Nat.sub_add_cancel ht.1] at hrest
      exact ⟨Nat.succ_pos depth, hrest⟩
    · simp only [Bool.and_eq_true] at ht ⊢
      exact ⟨ht.1, ih ht.2⟩

theorem bracesBalanced_of_forall {t : Text}
    (ht : ∀ c ∈ t, isQuote c = false ∧ c ≠ ch '(' ∧ c ≠ ch ')' ∧ c ≠ ch '\x7b' ∧ c ≠ ch '\x7d') :
    bracesBalanced 0 t = true := by
  induction t with
  | nil => rfl
  | cons c r ih =>
    obtain ⟨hquote, hopen, hclose, hbrace, hbrace'⟩ := ht c List.mem_cons_self
    rw [bracesBalanced, if_neg hbrace, if_neg hbrace',
      ih fun d hd => ht d (List.mem_cons_of_mem c hd)]
    simp [hquote, hopen, hclose]

/-! ### The pass -/

namespace Scan

variable {src : Text} {loose start init safe i : Nat}

/-- In a header that starts at `init`, inside `paren` parentheses, with the declarations
from `loose` up to it not yet yielded. -/
def heading (loose start init safe paren : Nat) : Scan := { init, safe, loose, start, paren }

/-- Before a header that starts at `i`. -/
def between (start i : Nat) : Scan := heading i start i i 0

/-- Inside a block whose header starts at `init` and whose brace stands at `start`. -/
def inside (start init safe depth : Nat) : Scan :=
  { init, safe, loose := init, start, depth }

theorem run_cons_silent {s s' : Scan} {c : UInt8} {r : Text} (h : s.step src i c = .ok (s', [])) :
    run src s i (c :: r) = run src s' (i + 1) r := by
  rw [run, h]
  rfl

/-- A byte of a header: only parentheses and commas leave a trace. -/
theorem step_heading (src : Text) (loose start init safe paren i : Nat) {c : UInt8}
    (hc : isHeaderByte c = true) : ∃ safe', step src (heading loose start init safe paren) i c =
      .ok (heading loose start init safe'
        (if c = ch '(' then paren + 1 else if c = ch ')' then paren - 1 else paren), []) := by
  simp only [isHeaderByte, Bool.and_eq_true, Bool.not_eq_true', decide_eq_true_eq] at hc
  obtain ⟨⟨⟨⟨hquote, hopen⟩, hclose⟩, hsemicolon⟩, hline⟩ := hc
  by_cases hleft : c = ch '('
  · subst hleft
    exact ⟨i + 1, rfl⟩
  by_cases hright : c = ch ')'
  · subst hright
    exact ⟨safe, rfl⟩
  -- Parentheses aside, the byte is looked at only where none is open, and then it may be a comma.
  simp only [step, heading, hquote, if_neg hleft, if_neg hright, if_neg hopen, if_neg hclose,
    boundary, if_neg hsemicolon, if_neg hline, Bool.false_eq_true, if_false, if_true]
  by_cases hcomma : c = ch ','
  · by_cases hpos : paren > 0
    · exact ⟨safe, by simp [hpos]⟩
    · exact ⟨i + 1, by simp [hpos, hcomma, lineStarted]⟩
  · exact ⟨safe, by simp [hcomma]⟩

/-- A header, from its first byte to its last. -/
theorem run_heading (src : Text) (loose start init safe i : Nat) {h : Text} (rest : Text)
    {paren : Nat} (hh : ∀ c ∈ h, isHeaderByte c = true)
    (hparens : parensBalanced paren h = true) :
    ∃ safe', run src (heading loose start init safe paren) i (h ++ rest) =
      run src (heading loose start init safe' 0) (i + h.length) rest := by
  -- The mark behind commas and parentheses wanders from byte to byte, so it is general.
  induction h generalizing safe paren i with
  | nil =>
    obtain rfl : paren = 0 := by simpa [parensBalanced] using hparens
    exact ⟨safe, rfl⟩
  | cons c r ih =>
    obtain ⟨safe₁, hstep⟩ :=
      step_heading src loose start init safe paren i (hh c List.mem_cons_self)
    have hrest : parensBalanced
        (if c = ch '(' then paren + 1 else if c = ch ')' then paren - 1 else paren) r = true := by
      rw [parensBalanced] at hparens
      split_ifs at hparens ⊢
      · exact hparens
      · exact (Bool.and_eq_true_iff.mp hparens).2
      · exact hparens
    obtain ⟨safe₂, hrun⟩ := ih safe₁ (i + 1) (fun d hd => hh d (List.mem_cons_of_mem c hd)) hrest
    refine ⟨safe₂, ?_⟩
    rw [List.cons_append, run_cons_silent hstep, hrun, List.length_cons]
    congr 1
    omega

theorem looseBlocks_self (src : Text) (i : Nat) : looseBlocks src i i = [] := by
  rw [looseBlocks, slice_self]
  rfl

/-- The brace after a header yields the declarations before it. -/
theorem run_openBrace {rest : Text} (hloose : loose ≤ init) (hhash : afterHash src i = false) :
    run src (heading loose start init safe 0) i (ch '\x7b' :: rest) =
      (looseBlocks src loose init ++ (run src (inside i init safe 1) (i + 1) rest).1,
        (run src (inside i init safe 1) (i + 1) rest).2) := by
  have hopen : step src (heading loose start init safe 0) i (ch '\x7b') =
      .ok (inside i init safe 1, looseBlocks src loose init) := by
    have hbrace : step src (heading loose start init safe 0) i (ch '\x7b') =
        .ok ((heading loose start init safe 0).openBrace src i) := rfl
    rw [hbrace]
    -- Without a byte between them nothing is released, and the empty slice has no declarations.
    rcases Nat.lt_or_eq_of_le hloose with hlt | rfl
    · simp [openBrace, heading, hhash, lineStarted, inside, hlt]
    · simp [openBrace, heading, hhash, lineStarted, inside, looseBlocks_self]
  rw [run, hopen]

/-- The content of a block, up to its closing brace. -/
theorem run_inside {t rest : Text} {depth : Nat} (ht : bracesBalanced depth t = true) :
    run src (inside start init safe (depth + 1)) i (t ++ rest) =
      run src (inside start init safe 1) (i + t.length) rest := by
  induction t generalizing depth i with
  | nil =>
    obtain rfl : depth = 0 := by simpa [bracesBalanced] using ht
    rfl
  | cons c r ih =>
    -- One byte that only changes the depth, and then the rest of the content.
    have hnext {depth' : Nat} (hr : bracesBalanced depth' r = true)
        (hstep : step src (inside start init safe (depth + 1)) i c =
          .ok (inside start init safe (depth' + 1), [])) :
        run src (inside start init safe (depth + 1)) i (c :: r ++ rest) =
          run src (inside start init safe 1) (i + (c :: r).length) rest := by
      rw [List.cons_append, run_cons_silent hstep, ih hr, List.length_cons]
      congr 1
      omega
    rw [bracesBalanced] at ht
    split_ifs at ht with hopen hclose
    · subst hopen
      exact hnext ht rfl
    · subst hclose
      simp only [Bool.and_eq_true, decide_eq_true_eq] at ht
      refine hnext ht.2 ?_
      have hclosing : step src (inside start init safe (depth + 1)) i (ch '\x7d') =
          .ok ((inside start init safe (depth + 1)).closeBrace src i) := rfl
      rw [hclosing]
      simp [closeBrace, inside, ht.1, Nat.sub_add_cancel ht.1]
    · simp only [Bool.and_eq_true, Bool.not_eq_true', decide_eq_true_eq] at ht
      obtain ⟨⟨⟨hquote, hleft⟩, hright⟩, hrest⟩ := ht
      exact hnext hrest (by simp [step, inside, hquote, hleft, hright, hopen, hclose])

/-- The brace that closes a block yields it. -/
theorem run_closeBrace {rest : Text} :
    run src (inside start init safe 1) i (ch '\x7d' :: rest) =
      ((inside start init safe 1).finished src i ++
          (run src (between start (i + 1)) (i + 1) rest).1,
        (run src (between start (i + 1)) (i + 1) rest).2) := rfl

theorem blankBetween_pad {before v after : Text} (hv : ∀ c ∈ v, isPadByte c = true) :
    blankBetween (before ++ v ++ after) before.length (before.length + v.length - 1) = true := by
  rw [blankBetween, Bool.or_eq_true, decide_eq_true_eq]
  cases v with
  | nil => exact .inl (Nat.sub_le _ _)
  | cons c v =>
    refine .inr ?_
    have hlength : before.length + (c :: v).length - 1 = before.length + v.length := by
      rw [List.length_cons]
      omega
    rw [hlength, slice_append (Nat.le_succ _)]
    exact isBlank_of_blank1 fun d hd => blank1_of_isPadByte (hv d (List.mem_of_mem_take hd))

/-- Padding before a header changes nothing. -/
theorem run_pad (loose start : Nat) {before w after : Text} (hsrc : src = before ++ w ++ after)
    (hw : ∀ c ∈ w, isPadByte c = true) {v u : Text} (huv : w = v ++ u) :
    run src (heading loose start before.length before.length 0) (before.length + v.length)
        (u ++ after) =
      run src (heading loose start before.length before.length 0) (before.length + w.length)
        after := by
  -- By what is left of the padding; `v` is what was passed of it. A line end in it starts no line,
  -- since there is only white space from the start of the header on.
  induction u generalizing v with
  | nil => simp [huv]
  | cons c u ih =>
    have hstep : step src (heading loose start before.length before.length 0)
        (before.length + v.length) c =
          .ok (heading loose start before.length before.length 0, []) := by
      rcases eq_of_isPadByte (hw c (by simp [huv])) with rfl | rfl
      · rfl
      · have hblank : blankBetween src before.length (before.length + v.length - 1) = true := by
          rw [hsrc, huv, ← List.append_assoc, List.append_assoc (before ++ v)]
          exact blankBetween_pad fun d hd => hw d (huv ▸ List.mem_append_left _ hd)
        have hline : step src (heading loose start before.length before.length 0)
            (before.length + v.length) (ch '\n') =
              .ok ((heading loose start before.length before.length 0).boundary src
                (before.length + v.length) (ch '\n'), []) := rfl
        rw [hline, boundary, if_neg (by decide), if_neg (by decide), if_pos rfl]
        simp [heading, hblank]
    rw [List.cons_append, run_cons_silent hstep]
    have hnext := ih (v := v ++ [c]) (by simp [huv])
    rw [List.length_append, List.length_singleton, ← Nat.add_assoc] at hnext
    exact hnext

end Scan

/-! ### Blocks -/

/-- A header with the padding after it, and the content of its block in braces. -/
structure Chunk where
  header : Text
  pad : Text
  content : Text

/-- The text of a chunk. -/
def Chunk.text (p : Chunk) : Text := p.header ++ p.pad ++ ch '\x7b' :: p.content ++ [ch '\x7d']

/-- A chunk is balanced if its header and its content are. -/
theorem Chunk.bracesBalanced_text {p : Chunk}
    (hheader : bracesBalanced 0 (p.header ++ p.pad) = true)
    (hcontent : bracesBalanced 0 p.content = true) : bracesBalanced 0 p.text = true := by
  rw [Chunk.text, List.append_assoc (p.header ++ p.pad), List.cons_append]
  exact bracesBalanced_append hheader (bracesBalanced_enclose hcontent)

/-- A chunk that the pass takes for one block. -/
structure Chunk.Sound (p : Chunk) : Prop where
  snug : Snug p.header
  header_bytes : ∀ c ∈ p.header, isHeaderByte c = true
  parens : parensBalanced 0 p.header = true
  pad_bytes : ∀ c ∈ p.pad, c = ch ' '
  not_hash : ∀ t, p.header ≠ t ++ [ch '#']
  content : bracesBalanced 0 p.content = true

/-- A block found for a chunk, wherever it stands. -/
def Chunk.Yields (p : Chunk) (b : Block) : Prop :=
  b.header = p.header ∧ b.body = some (trim p.content)

theorem parensBalanced_append_pad {t pad : Text} {depth : Nat}
    (ht : parensBalanced depth t = true) (hpad : ∀ c ∈ pad, c = ch ' ') :
    parensBalanced depth (t ++ pad) = true := by
  have hspace (depth : Nat) (r : Text) :
      parensBalanced depth (ch ' ' :: r) = parensBalanced depth r := by
    rw [parensBalanced, if_neg (by decide), if_neg (by decide)]
  -- First the header, which may open and close parentheses, then the padding, which does not.
  induction t generalizing depth with
  | nil =>
    induction pad with
    | nil => exact ht
    | cons c pad ih =>
      obtain rfl := hpad c List.mem_cons_self
      rw [List.nil_append, hspace]
      exact ih fun d hd => hpad d (List.mem_cons_of_mem _ hd)
  | cons c r ih =>
    rw [List.cons_append, parensBalanced]
    rw [parensBalanced] at ht
    split_ifs at ht ⊢
    · exact ih ht
    · simp only [Bool.and_eq_true] at ht ⊢
      exact ⟨ht.1, ih ht.2⟩
    · exact ih ht

theorem afterHash_eq_false {before t after : Text} (hne : t ≠ []) (ht : ∀ u, t ≠ u ++ [ch '#']) :
    afterHash (before ++ t ++ after) (before ++ t).length = false := by
  obtain ⟨u, c, rfl⟩ : ∃ u c, t = u ++ [c] :=
    ⟨t.dropLast, t.getLast hne, (List.dropLast_append_getLast hne).symm⟩
  have hlength : (before ++ (u ++ [c])).length - 1 = (before ++ u).length := by simp
  have hat : at0 (before ++ (u ++ [c]) ++ after) (before ++ u).length = c := by
    simp [at0]
  rw [afterHash, hlength, hat]
  have hc : c ≠ ch '#' := fun h => ht u (by rw [h])
  simp [hc]

namespace Scan

variable {src before w after : Text} {p : Chunk}

/-- The block that is finished at the end of a chunk. -/
theorem finished_chunk (hp : p.Sound) (hw : ∀ c ∈ w, isPadByte c = true) (safe : Nat)
    (hsrc : src = before ++ w ++ p.text ++ after) :
    ∃ b, p.Yields b ∧
      (inside (before ++ (w ++ p.header ++ p.pad)).length before.length safe 1).finished src
        (before ++ (w ++ p.header ++ p.pad) ++ [ch '\x7b'] ++ p.content).length = [b] := by
  have hblank : ∀ c ∈ w, blank1 c = true := fun c hc => blank1_of_isPadByte (hw c hc)
  have hpad : ∀ c ∈ p.pad, blank1 c = true := by
    intro c hc
    rw [hp.pad_bytes c hc]
    decide
  have hraw : slice src before.length (before ++ (w ++ p.header ++ p.pad)).length =
      w ++ p.header ++ p.pad :=
    slice_middle (c := ch '\x7b' :: p.content ++ [ch '\x7d'] ++ after)
      (by simp [hsrc, Chunk.text])
  have hbody : slice src ((before ++ (w ++ p.header ++ p.pad)).length + 1)
      (before ++ (w ++ p.header ++ p.pad) ++ [ch '\x7b'] ++ p.content).length = p.content := by
    have hmiddle := slice_middle (t := src) (a := before ++ (w ++ p.header ++ p.pad) ++ [ch '\x7b'])
      (b := p.content) (c := ch '\x7d' :: after) (by simp [hsrc, Chunk.text])
    rwa [show (before ++ (w ++ p.header ++ p.pad) ++ [ch '\x7b']).length =
      (before ++ (w ++ p.header ++ p.pad)).length + 1 from List.length_append] at hmiddle
  refine ⟨⟨p.header, some (trim p.content), before.length + leading (w ++ p.header ++ p.pad)⟩,
    ⟨rfl, rfl⟩, ?_⟩
  have hne : p.header.isEmpty = false := by simpa using hp.snug.ne_nil
  simp only [finished, inside, hraw, hbody, hp.snug.trim_pad hblank hpad, hne]
  rfl

/-- The brace of a chunk does not follow a number sign, also where there is padding before it. -/
theorem afterHash_chunk (hp : p.Sound) (hsrc : src = before ++ w ++ p.text ++ after) :
    afterHash src (before ++ (w ++ p.header ++ p.pad)).length = false := by
  have hlast : ∀ u, p.header ++ p.pad ≠ u ++ [ch '#'] := by
    intro u hu
    rcases p.pad.eq_nil_or_concat with hnil | ⟨pad, c, hcons⟩
    · rw [hnil, List.append_nil] at hu
      exact hp.not_hash u hu
    · have hc : c = ch ' ' := hp.pad_bytes c (by simp [hcons])
      rw [hcons, List.concat_eq_append, hc, ← List.append_assoc] at hu
      exact absurd (List.append_inj_right' hu rfl) (by decide)
  have hsplit : src = (before ++ w) ++ (p.header ++ p.pad) ++
      (ch '\x7b' :: p.content ++ [ch '\x7d'] ++ after) := by simp [hsrc, Chunk.text]
  have hlength : (before ++ (w ++ p.header ++ p.pad)).length =
      ((before ++ w) ++ (p.header ++ p.pad)).length := by simp
  rw [hsplit, hlength]
  exact afterHash_eq_false (by simp [hp.snug.ne_nil]) hlast

/-- The pass over the padding before a chunk and the chunk: the declarations before it and
its block are yielded, and the pass goes on after it as it did before it. -/
theorem run_chunk {loose : Nat} (start : Nat) (hloose : loose ≤ before.length) (hp : p.Sound)
    (hw : ∀ c ∈ w, isPadByte c = true) (hsrc : src = before ++ w ++ p.text ++ after) :
    ∃ b start', p.Yields b ∧
      run src (heading loose start before.length before.length 0) before.length
          (w ++ p.text ++ after) =
        (looseBlocks src loose before.length ++
            b :: (run src (between start' (before ++ w ++ p.text).length)
              (before ++ w ++ p.text).length after).1,
          (run src (between start' (before ++ w ++ p.text).length)
            (before ++ w ++ p.text).length after).2) := by
  have hpad := run_pad loose start (by simpa using hsrc) hw (List.nil_append w).symm
  have hbytes : ∀ c ∈ p.header ++ p.pad, isHeaderByte c = true := by
    intro c hc
    rcases List.mem_append.mp hc with hc | hc
    · exact hp.header_bytes c hc
    · rw [hp.pad_bytes c hc]
      decide
  obtain ⟨safe, hheading⟩ := run_heading src loose start before.length before.length
    (before.length + w.length) (ch '\x7b' :: (p.content ++ ch '\x7d' :: after)) hbytes
    (parensBalanced_append_pad hp.parens hp.pad_bytes)
  have hhash := afterHash_chunk hp hsrc
  obtain ⟨b, hb, hfinished⟩ := finished_chunk hp hw safe hsrc
  refine ⟨b, (before ++ (w ++ p.header ++ p.pad)).length, hb, ?_⟩
  -- The places of the two braces, and that after the chunk.
  have hopen : before.length + w.length + (p.header ++ p.pad).length =
      (before ++ (w ++ p.header ++ p.pad)).length := by simp; omega
  have hclose : (before ++ (w ++ p.header ++ p.pad)).length + 1 + p.content.length =
      (before ++ (w ++ p.header ++ p.pad) ++ [ch '\x7b'] ++ p.content).length := by simp; omega
  have hend : (before ++ (w ++ p.header ++ p.pad) ++ [ch '\x7b'] ++ p.content).length + 1 =
      (before ++ w ++ p.text).length := by simp [Chunk.text]; omega
  have htext : p.text ++ after =
      p.header ++ p.pad ++ ch '\x7b' :: (p.content ++ ch '\x7d' :: after) := by simp [Chunk.text]
  calc run src (heading loose start before.length before.length 0) before.length
        (w ++ p.text ++ after)
    _ = run src (heading loose start before.length before.length 0) (before.length + w.length)
          (p.text ++ after) := by
      rw [List.append_assoc]
      exact hpad
    _ = run src (heading loose start before.length safe 0)
          (before ++ (w ++ p.header ++ p.pad)).length
          (ch '\x7b' :: (p.content ++ ch '\x7d' :: after)) := by
      rw [htext, ← hopen]
      exact hheading
    _ = (looseBlocks src loose before.length ++
          (run src (inside (before ++ (w ++ p.header ++ p.pad)).length before.length safe 1)
            (before ++ (w ++ p.header ++ p.pad) ++ [ch '\x7b'] ++ p.content).length
            (ch '\x7d' :: after)).1,
          (run src (inside (before ++ (w ++ p.header ++ p.pad)).length before.length safe 1)
            (before ++ (w ++ p.header ++ p.pad) ++ [ch '\x7b'] ++ p.content).length
            (ch '\x7d' :: after)).2) := by
      rw [run_openBrace hloose hhash, run_inside hp.content, hclose]
    _ = _ := by
      rw [run_closeBrace, hfinished, hend]
      rfl

theorem looseBlocks_pad {v : Text} (hsrc : src = before ++ v)
    (hv : ∀ c ∈ v, isPadByte c = true) : looseBlocks src before.length src.length = [] := by
  have hslice : slice src before.length src.length = v := by
    rw [hsrc]
    exact slice_middle (c := []) (by simp)
  have hsplit : split (ch ';') v = [v] := by
    rw [split_eq_splitOn]
    refine List.splitOnP_eq_singleton fun c hc => ?_
    rcases eq_of_isPadByte (hv c hc) with rfl | rfl <;> decide
  have hblank : (trim v).isEmpty = true :=
    isBlank_of_blank1 fun c hc => blank1_of_isPadByte (hv c hc)
  rw [looseBlocks, hslice, hsplit, looseParts]
  simp only [hblank, if_true]
  rfl

/-- The pass over chunks with the same padding before each, and over padding at the end. -/
theorem run_chunks (start : Nat) {v : Text} {ps : List Chunk} (hps : ∀ p ∈ ps, p.Sound)
    (hw : ∀ c ∈ w, isPadByte c = true) (hv : ∀ c ∈ v, isPadByte c = true)
    (hsrc : src = before ++ ps.flatMap (fun p => w ++ p.text) ++ v) :
    ∃ found, List.Forall₂ Chunk.Yields ps found ∧
      run src (between start before.length) before.length
        (ps.flatMap (fun p => w ++ p.text) ++ v) = (found, none) := by
  -- By the chunks that are left: one that is passed belongs to what stands before them.
  induction ps generalizing before start with
  | nil =>
    refine ⟨[], .nil, ?_⟩
    have hend : src = before ++ v := by simpa using hsrc
    have hend' : src = before ++ v ++ [] := by simpa using hend
    have hpad := run_pad before.length start hend' hv (List.nil_append v).symm
    rw [List.append_nil] at hpad
    rw [List.flatMap_nil, List.nil_append]
    refine hpad.trans ?_
    rw [run]
    have hfinish : finish src (heading before.length start before.length before.length 0) =
        (looseBlocks src before.length src.length, none) := rfl
    rw [hfinish, looseBlocks_pad hend hv]
  | cons p ps ih =>
    have hsrc' : src = before ++ w ++ p.text ++ (ps.flatMap (fun p => w ++ p.text) ++ v) := by
      simp [hsrc]
    obtain ⟨b, start', hb, hrun⟩ :=
      run_chunk start (Nat.le_refl _) (hps p List.mem_cons_self) hw hsrc'
    rw [looseBlocks_self, List.nil_append] at hrun
    obtain ⟨found, hfound, hrest⟩ := ih start' (fun q hq => hps q (List.mem_cons_of_mem p hq))
      (show src = (before ++ w ++ p.text) ++ ps.flatMap (fun p => w ++ p.text) ++ v by simp [hsrc])
    refine ⟨b :: found, .cons hb hfound, ?_⟩
    rw [List.flatMap_cons, List.append_assoc, between, hrun, hrest]

/-- A text at the top level without braces, parentheses and quotes yields nothing before
its end. -/
theorem run_loose {t : Text} {i : Nat} {s : Scan} (hdepth : s.depth = 0) (hparen : s.paren = 0)
    (hquote : s.quote = none)
    (ht : ∀ c ∈ t, isQuote c = false ∧ c ≠ ch '(' ∧ c ≠ ch ')' ∧ c ≠ ch '\x7b' ∧ c ≠ ch '\x7d') :
    run src s i t = (looseBlocks src s.loose src.length, none) := by
  -- The bytes move the places where a header or a line starts, which are of no use without a brace.
  induction t generalizing s i with
  | nil => simp [run, finish, hdepth, hparen, hquote]
  | cons c r ih =>
    obtain ⟨hc, hleft, hright, hopen, hclose⟩ := ht c List.mem_cons_self
    have hstep : step src s i c = .ok (s.boundary src i c, []) := by
      simp [step, hdepth, hparen, hquote, hc, hleft, hright, hopen, hclose]
    obtain ⟨init, line, safe, hboundary⟩ := boundary_eq src s i c
    rw [run_cons_silent hstep, hboundary]
    exact ih hdepth hparen hquote
      fun d hd => ht d (List.mem_cons_of_mem c hd)

end Scan

/-- The blocks of a text put together from chunks with padding between them and at the
end. -/
theorem locate_chunks {ps : List Chunk} {w v : Text} (hps : ∀ p ∈ ps, p.Sound)
    (hw : ∀ c ∈ w, isPadByte c = true) (hv : ∀ c ∈ v, isPadByte c = true) :
    ∃ found, List.Forall₂ Chunk.Yields ps found ∧
      locate (join w (ps.map Chunk.text) ++ v) = (found, none) := by
  cases ps with
  | nil =>
    have hsrc : join w (([] : List Chunk).map Chunk.text) ++ v =
        [] ++ ([] : List Chunk).flatMap (fun p => w ++ p.text) ++ v := rfl
    exact Scan.run_chunks 0 hps hw hv hsrc
  | cons p ps =>
    have hsrc : join w ((p :: ps).map Chunk.text) ++ v =
        [] ++ [] ++ p.text ++ (ps.flatMap (fun q => w ++ q.text) ++ v) := by
      rw [List.map_cons, join_cons, List.flatMap_map]
      exact List.append_assoc _ _ _
    -- The first chunk has no padding before it.
    obtain ⟨b, start, hb, hrun⟩ := Scan.run_chunk 0 (Nat.zero_le 0) (hps p List.mem_cons_self)
      (List.forall_mem_nil _) hsrc
    rw [List.length_nil, Scan.looseBlocks_self, List.nil_append] at hrun
    obtain ⟨found, hfound, hrest⟩ := Scan.run_chunks start
      (fun q hq => hps q (List.mem_cons_of_mem p hq)) hw hv
      (hsrc.trans (List.append_assoc ([] ++ [] ++ p.text) _ v).symm)
    refine ⟨b :: found, .cons hb hfound, ?_⟩
    rw [hrest] at hrun
    rw [locate]
    nth_rewrite 2 [hsrc]
    exact hrun

/-- The declarations of a text without braces are its parts between semicolons. -/
theorem locate_loose {t : Text}
    (ht : ∀ c ∈ t, isQuote c = false ∧ c ≠ ch '(' ∧ c ≠ ch ')' ∧ c ≠ ch '\x7b' ∧ c ≠ ch '\x7d') :
    locate t = (looseParts 0 (split (ch ';') t), none) := by
  have hslice : slice t 0 t.length = t := by simp [slice]
  rw [locate, Scan.run_loose rfl rfl rfl ht, looseBlocks]
  change (looseParts 0 (split (ch ';') (slice t 0 t.length)), none) = _
  rw [hslice]

end Stylesheet
