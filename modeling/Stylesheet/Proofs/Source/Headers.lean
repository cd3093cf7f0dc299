import Mathlib.Data.List.TakeWhile
import Stylesheet.Proofs.Source.Tiling

/-!
# Where headers stand

A block remembers the offset of its header. The header is trimmed of white space of any
kind, but the offset passes over the five characters that CSS calls white space only. The
two agree up to the first other white-space character before the header, such as a
no-break space or a vertical tab. From there on the header stands behind the rest of the
white space, and so its offset is too small by as much.

This holds of every block that is yielded, those before an imbalance included.

## Main definitions

* `Block.Cut` — a block is a piece of a text, trimmed
* `nbspSource` — a declaration behind a no-break space

## Main results

* `spaceWidth_trim` — no white space is left in front of a trimmed text
* `cut_of_mem_locate` — every block is cut from its text
* `header_at_offset_iff` — when the header of a block is at its offset
-/

namespace Stylesheet

open Text

namespace Text

/-! ### The white space in front -/

/-- The white space behind some characters of one byte is white space. -/
theorem Spaces.dropWhile_isSpace {w : Text} (hw : Spaces w) : Spaces (w.dropWhile isSpace) := by
  induction hw with
  | nil => exact .nil
  | @one a t ha ht ih =>
    rw [List.dropWhile_cons]
    split_ifs
    · exact ih
    · exact .one ha ht
  | @two a b t hab ht ih =>
    rw [List.dropWhile_cons]
    split_ifs with ha
    · simp only [blank2, Bool.and_eq_true, decide_eq_true_eq] at hab
      rw [hab.1] at ha
      exact absurd ha (by decide)
    · exact .two hab ht
  | @three a b c t habc ht ih =>
    rw [List.dropWhile_cons]
    split_ifs with ha
    · have hlead : a = 0xE1 ∨ a = 0xE2 ∨ a = 0xE3 := by grind [blank3]
      rcases hlead with rfl | rfl | rfl <;> exact absurd ha (by decide)
    · exact .three habc ht

/-- What does not start with white space does not start with the white space of CSS. -/
theorem isSpace_head_of_spaceWidth {t : Text} (h : spaceWidth t = 0) :
    ∀ c ∈ t.head?, isSpace c = false := by
  cases t with
  | nil => exact fun c hc => nomatch hc
  | cons a r =>
    intro c hc
    obtain rfl := Option.some.inj hc
    have hblank := blank1_eq_false_of_spaceWidth h
    simp only [blank1, Bool.or_eq_false_iff] at hblank
    exact hblank.1

theorem takeWhile_eq_nil_of_head {p : UInt8 → Bool} {t : Text} (h : ∀ c ∈ t.head?, p c = false) :
    t.takeWhile p = [] := by
  cases t with
  | nil => rfl
  | cons a r => rw [List.takeWhile_cons, h a rfl, if_neg Bool.false_ne_true]

/-- In front of a trimmed text stand the blanks that are counted, and then other white
space. -/
theorem exists_leading {t : Text} (hne : trim t ≠ []) :
    ∃ u w v, t = u ++ (w ++ trim t ++ v) ∧ u.length = leading t ∧ Spaces w ∧
      ∀ c ∈ w.head?, isSpace c = false := by
  obtain ⟨s, v, ht, hs, -⟩ := exists_trim_spaces t
  have hsplit : s.takeWhile isSpace ++ s.dropWhile isSpace = s := List.takeWhile_append_dropWhile
  have hother : ∀ c ∈ (s.dropWhile isSpace).head?, isSpace c = false := by
    intro c hc
    have h := List.head?_dropWhile_not isSpace s
    rw [Option.mem_def.mp hc] at h
    simpa using h
  -- the blanks that are counted end there: what follows them is other white space, or the
  -- trimmed text itself
  have hstart : ∀ c ∈ (s.dropWhile isSpace ++ trim t ++ v).head?, isSpace c = false := by
    intro c hc
    cases h : s.dropWhile isSpace with
    | nil =>
      refine isSpace_head_of_spaceWidth (spaceWidth_trim t) c ?_
      rw [h, List.nil_append, List.head?_append_of_ne_nil _ hne] at hc
      exact hc
    | cons a r =>
      refine hother c ?_
      rw [h] at hc ⊢
      exact hc
  have hparts : t = s.takeWhile isSpace ++ (s.dropWhile isSpace ++ trim t ++ v) := by
    rw [← List.append_assoc, ← List.append_assoc, hsplit]
    exact ht
  refine ⟨_, _, v, hparts, ?_, hs.dropWhile_isSpace, hother⟩
  have hcounted : t.takeWhile isSpace = s.takeWhile isSpace := by
    rw [hparts, List.takeWhile_append_of_pos fun c hc => List.mem_takeWhile_imp hc,
      takeWhile_eq_nil_of_head hstart, List.append_nil]
  rw [leading, hcounted]

end Text

/-! ### Blocks are cut from their text -/

/-- A block is a piece of a text from some place on, trimmed: its offset is that of the piece
and of the blanks in front of it. -/
def Block.Cut (src : Text) (b : Block) : Prop :=
  ∃ i piece, piece <+: src.drop i ∧ b.header = trim piece ∧ b.header ≠ [] ∧
    b.offset = i + leading piece

/-- The parts between semicolons are pieces of what they are parts of. -/
theorem cut_of_mem_looseParts {src : Text} {offset : Nat} {parts : List Text} {b : Block}
    (hparts : join [ch ';'] parts <+: src.drop offset) (hb : b ∈ looseParts offset parts) :
    b.Cut src := by
  -- part by part: the first stands at the offset, and the others after its semicolon
  induction parts generalizing offset with
  | nil => cases hb
  | cons part rest ih =>
    have hpart : part <+: join [ch ';'] (part :: rest) := by
      cases rest with
      | nil => simp
      | cons next rest =>
        rw [join_cons_cons, List.append_assoc]
        exact List.prefix_append _ _
    have hlater : b ∈ looseParts (offset + part.length + 1) rest → b.Cut src := by
      intro hb
      refine ih ?_ hb
      cases rest with
      | nil => exact List.nil_prefix
      | cons next rest =>
        obtain ⟨v, hv⟩ := hparts
        rw [Nat.add_assoc, ← List.drop_drop, ← hv, join_cons_cons]
        simp
    rw [looseParts] at hb
    split_ifs at hb with hempty
    · exact hlater hb
    · rcases List.mem_cons.mp hb with rfl | hb
      · exact ⟨offset, part, hpart.trans hparts, rfl, by simpa using hempty, rfl⟩
      · exact hlater hb

/-- So are the parts of a stretch. -/
theorem Stretch.cut_of_mem_blocks {src : Text} {offset : Nat} {p : Stretch} {b : Block}
    (hp : p.text <+: src.drop offset) (hb : b ∈ p.blocks offset) : b.Cut src := by
  cases p with
  | loose t =>
    refine cut_of_mem_looseParts ?_ hb
    have hjoin : join [ch ';'] (split (ch ';') t) = t := by
      rw [split_eq_splitOn]
      exact List.intercalate_splitOn (ch ';')
    rwa [hjoin]
  | braced header body =>
    rw [Stretch.blocks] at hb
    split_ifs at hb with hempty
    · cases hb
    · obtain rfl := List.mem_singleton.mp hb
      exact ⟨offset, header, (List.prefix_append _ _).trans hp, rfl, by simpa using hempty, rfl⟩

/-- What the end of the text releases is cut from it. -/
theorem Scan.cut_of_mem_finish {src : Text} {s : Scan} {b : Block} (hb : b ∈ (s.finish src).1) :
    b.Cut src := by
  have hjoin : join [ch ';'] (split (ch ';') (slice src s.loose src.length)) =
      src.drop s.loose := by
    rw [split_eq_splitOn, slice, List.take_length]
    exact List.intercalate_splitOn (ch ';')
  exact cut_of_mem_looseParts (hjoin ▸ List.prefix_refl _) (mem_looseBlocks_of_mem_finish hb)

/-- Every block is cut from its text, by induction on what the pass has still to read. -/
theorem Scan.Cursors.cut_of_mem_run {rest before : Text} {s : Scan}
    (h : Cursors (before ++ rest) before.length s) {b : Block}
    (hb : b ∈ (Scan.run (before ++ rest) s before.length rest).1) : b.Cut (before ++ rest) := by
  induction rest generalizing before s with
  | nil => exact Scan.cut_of_mem_finish hb
  | cons c rest ih =>
    rw [Scan.run] at hb
    cases hstep : s.step (before ++ c :: rest) before.length c with
    | error e =>
      rw [hstep] at hb
      cases hb
    | ok r =>
      obtain ⟨s', found⟩ := r
      simp only [hstep, List.mem_append] at hb
      have hnext := h.step hstep
      have hsplit : before ++ c :: rest = before ++ [c] ++ rest := by simp
      have hlength : before.length + 1 = (before ++ [c]).length := by simp
      rcases hb with hb | hb
      · -- a step releases the blocks of the stretch that it ends, if it ends one
        rcases h.stretch_step hstep with ⟨rfl, -⟩ | ⟨p, -, rfl, -, htext⟩
        · cases hb
        · exact p.cut_of_mem_blocks (htext ▸ List.prefix_append _ _) hb
      · rw [hsplit, hlength] at hnext hb
        rw [hsplit]
        exact ih hnext hb

theorem cut_of_mem_locate {src : Text} {b : Block} (hb : b ∈ (locate src).1) : b.Cut src := by
  have hstart : Scan.Cursors ([] ++ src) ([] : Text).length {} := Scan.cursors_empty src
  exact hstart.cut_of_mem_run hb

/-! ### Headers at their offsets -/

/-- The header of a block stands behind the white space `w` at its offset, which does not start
with one of the five characters that are passed over. It is at the offset itself exactly if
there is no such white space, or, in a text that is no UTF-8, if the header is the start of
one of its characters. -/
theorem header_at_offset_iff {src : Text} {b : Block} (hb : b ∈ (locate src).1) :
    ∃ w, Spaces w ∧ (∀ c ∈ w.head?, isSpace c = false) ∧ w ++ b.header <+: src.drop b.offset ∧
      (slice src b.offset (b.offset + b.header.length) = b.header ↔
        w = [] ∨ b.header <+: w) := by
  obtain ⟨i, piece, ⟨rest, hrest⟩, hheader, hne, hoffset⟩ := cut_of_mem_locate hb
  obtain ⟨u, w, v, hpiece, hu, hw, hother⟩ := exists_leading (hheader ▸ hne)
  rw [← hheader] at hpiece
  have hplace : src.drop b.offset = w ++ b.header ++ (v ++ rest) := by
    rw [hoffset, ← List.drop_drop, ← hrest, ← hu]
    conv_lhs => rw [hpiece]
    simp
  have hslice : slice src b.offset (b.offset + b.header.length) =
      (w ++ b.header ++ (v ++ rest)).take b.header.length := by
    rw [slice, List.drop_take, Nat.add_sub_cancel_left, hplace]
  refine ⟨w, hw, hother, ⟨v ++ rest, hplace.symm⟩, ?_⟩
  rw [hslice, ← List.prefix_iff_eq_take.trans eq_comm]
  constructor
  · intro hprefix
    by_contra hnot
    obtain ⟨hnonempty, hshort⟩ := not_or.mp hnot
    -- the header goes on past the white space, so it starts with it
    have hstarts : w <+: b.header :=
      (List.prefix_or_prefix_of_prefix hprefix
        (List.append_assoc w _ _ ▸ List.prefix_append _ _)).resolve_left hshort
    obtain ⟨x, hx⟩ := hstarts
    refine hw.spaceWidth_ne_zero hnonempty x ?_
    rw [hx, hheader]
    exact spaceWidth_trim piece
  · rintro (rfl | hshort)
    · exact List.prefix_append _ _
    · exact hshort.trans (List.append_assoc w _ _ ▸ List.prefix_append _ _)

/-- A rule behind two blanks and a tab, and one that is left open. -/
def tabbedSource : Text := of "  \t.a \x7bx: y\x7d .b \x7b"

/-- The first rule is yielded, and its header is behind the white space that is passed over. -/
theorem tabbedSource_at_offset :
    ∃ b ∈ (locate tabbedSource).1, b.offset = 3 ∧
      ∃ w, Spaces w ∧ (∀ c ∈ w.head?, isSpace c = false) ∧
        w ++ b.header <+: tabbedSource.drop b.offset ∧
        (slice tabbedSource b.offset (b.offset + b.header.length) = b.header ↔
          w = [] ∨ b.header <+: w) := by
  have hb : (⟨of ".a", some (of "x: y"), 3⟩ : Block) ∈ (locate tabbedSource).1 := by
    decide +kernel
  exact ⟨_, hb, rfl, header_at_offset_iff hb⟩

/-- A declaration behind a no-break space, which is two bytes long. -/
def nbspSource : Text := of "\u00a0a: b"

/-- Its header is not at its offset, but two bytes on. -/
theorem nbspSource_not_at_offset :
    ∃ b ∈ (locate nbspSource).1,
      slice nbspSource b.offset (b.offset + b.header.length) ≠ b.header := by
  refine ⟨⟨of "a: b", none, 0⟩, ?_, ?_⟩
  · decide +kernel
  · decide +kernel

end Stylesheet
