import Stylesheet.Proofs.Source.Cursors
import Stylesheet.Proofs.Text.Space

/-!
# Blocks tile their text

Whenever blocks are yielded, the text between two places the pass keeps is a stretch of its
own, and a text without an error is its stretches one after the other. Within a stretch
trimming and splitting take away white space and semicolons only. So nothing of a text is
lost in the blocks, and nothing is in two of them.

## Main definitions

* `Stretch` — declarations ended by semicolons, or a header and a body in braces
* `Tiled` — a text is made of the blocks in order, of white space, semicolons, braces and
  blocks without a header

## Main results

* `exists_stretches` — a text without an error is a sequence of stretches, and its blocks are
  theirs
* `locate_tiled` — a text without an error is tiled by its blocks
-/

namespace Stylesheet

open Text

/-! ### Stretches -/

/-- A stretch of a text: declarations ended by semicolons, or a header and a body in
braces. -/
inductive Stretch where
  | loose (text : Text)
  | braced (header body : Text)

namespace Stretch

/-- The text of a stretch. -/
def text : Stretch → Text
  | .loose t => t
  | .braced header body => header ++ ch '\x7b' :: (body ++ [ch '\x7d'])

/-- The blocks of a stretch that starts at an offset. Without a header there is none. -/
def blocks (offset : Nat) : Stretch → List Block
  | .loose t => looseParts offset (split (ch ';') t)
  | .braced header body =>
    if (trim header).isEmpty then []
    else [⟨trim header, some (trim body), offset + leading header⟩]

/-- Everything opened in a stretch is closed in it, and the braces are partners. -/
def Sound : Stretch → Prop
  | .loose t => Balanced t
  | .braced header body => Balanced header ∧ Balanced body

/-- The blocks of stretches one after the other, the first starting at an offset. -/
def blocksFrom : Nat → List Stretch → List Block
  | _, [] => []
  | offset, p :: ps => p.blocks offset ++ blocksFrom (offset + p.text.length) ps

end Stretch

namespace Scan

section Released

variable {src : Text} {i : Nat} {s : Scan}

/-- The loose declarations before a header are a stretch. -/
theorem Cursors.stretch_loose (h : Cursors src i s) (hi : i ≤ src.length) {init : Nat}
    (hinit : init = (s.lineStarted src i).getD s.init) (hless : s.loose < init) :
    (Stretch.loose (slice src s.loose init)).Sound ∧
      init = s.loose + (Stretch.loose (slice src s.loose init)).text.length ∧
      src.drop s.loose = (Stretch.loose (slice src s.loose init)).text ++ src.drop init := by
  obtain ⟨-, hle, hclear⟩ := h.header
  rw [← hinit] at hle hclear
  refine ⟨h.loose.2.balanced_slice hclear hless.le, ?_, ?_⟩
  · simp [Stretch.text, slice]
    omega
  · exact (slice_append_drop hless.le (by omega)).symm

/-- The header and the body that a closing brace ends are a stretch, and the block that is found
there is that of the stretch. -/
theorem Cursors.stretch_braced (h : Cursors src i s) (hquote : s.quote = none)
    (hparen : s.paren = 0) (hdepth : s.depth ≠ 0) (hlast : s.depth ≤ 1) (hskip : s.skip = false)
    (hend : src[i]? = some (ch '\x7d')) :
    ∃ p : Stretch, p.Sound ∧ s.finished src i = p.blocks s.loose ∧
      i + 1 = s.loose + p.text.length ∧ src.drop s.loose = p.text ++ src.drop (i + 1) := by
  obtain ⟨hlt, -⟩ := List.getElem?_eq_some_iff.mp hend
  obtain ⟨hloose, hinit, hclear, hbrace⟩ := h.start hdepth hskip
  obtain ⟨hstart, b, hbody, hinner⟩ := h.inside.body hdepth hskip
  have hbalanced : Balanced (slice src (s.start + 1) i) := by
    refine ⟨b, hbody, ?_⟩
    simp only [brackets, Brackets.deeper, Brackets.mk.injEq] at hinner
    obtain ⟨hq, -, hp, hd⟩ := hinner
    exact ⟨by simp [← hq, hquote], by omega, by omega⟩
  refine ⟨.braced (slice src s.init s.start) (slice src (s.start + 1) i), ?_, ?_, ?_, ?_⟩
  · exact ⟨h.init.2.balanced_slice hclear hinit, hbalanced⟩
  · rw [hloose]
    rfl
  · rw [hloose]
    simp [Stretch.text, slice]
    omega
  · -- The text from the header on is the header, its brace, the body and its brace.
    rw [hloose, ← slice_append_drop hinit (by omega), drop_of_getElem? hbrace,
      ← slice_append_drop (i := s.start + 1) hstart hlt.le, drop_of_getElem? hend]
    simp [Stretch.text]

end Released

/-- What a byte releases is a stretch of the text, or nothing. -/
theorem Cursors.stretch_step {before after : Text} {c : UInt8} {s s' : Scan} {found : List Block}
    (h : Cursors (before ++ c :: after) before.length s)
    (hstep : s.step (before ++ c :: after) before.length c = .ok (s', found)) :
    (found = [] ∧ s'.loose = s.loose) ∨
      ∃ p : Stretch, p.Sound ∧ found = p.blocks s.loose ∧ s'.loose = s.loose + p.text.length ∧
        (before ++ c :: after).drop s.loose =
          p.text ++ (before ++ c :: after).drop s'.loose := by
  -- All that is asked of the text is the byte under way and that it is one of its bytes.
  generalize hsrc : before ++ c :: after = src at *
  have hget : src[before.length]? = some c := by simp [← hsrc]
  have hlt : before.length < src.length := by simp [← hsrc]
  generalize before.length = i at *
  cases moves_of_step hstep with
  | quoted escaped hquote => exact .inl ⟨rfl, rfl⟩
  | unquote hquote => exact .inl ⟨rfl, rfl⟩
  | quote hquote hc => exact .inl ⟨rfl, rfl⟩
  | «open» hquote hc => exact .inl ⟨rfl, rfl⟩
  | close hquote hc => exact .inl ⟨rfl, rfl⟩
  | enclosed hquote hc hparen => exact .inl ⟨rfl, rfl⟩
  | openBrace hquote hparen hc =>
    rcases openBrace_cases src s i with
      ⟨hdeep, heq⟩ | ⟨htop, hhash, heq⟩ | ⟨init, loose, htop, hhash, hinit, hloose, heq⟩
    · exact .inl (by rw [heq]; exact ⟨rfl, rfl⟩)
    · exact .inl (by rw [heq]; exact ⟨rfl, rfl⟩)
    · by_cases hless : s.loose < init
      · -- the loose declarations end where the header starts
        have hlast : loose = init := by omega
        obtain ⟨hsound, hlength, hdrop⟩ := h.stretch_loose hlt.le hinit hless
        rw [heq, if_pos hless, hlast]
        exact .inr ⟨_, hsound, rfl, hlength, hdrop⟩
      · exact .inl (by rw [heq]; exact ⟨if_neg hless, by dsimp only; omega⟩)
  | closeBrace hquote hparen hc hdepth =>
    rcases closeBrace_cases src s i with ⟨-, heq⟩ | ⟨-, -, heq⟩ | ⟨hlast, hskip, heq⟩
    · exact .inl (by rw [heq]; exact ⟨rfl, rfl⟩)
    · exact .inl (by rw [heq]; exact ⟨rfl, rfl⟩)
    · rw [heq]
      exact .inr (h.stretch_braced hquote hparen hdepth hlast hskip (hc ▸ hget))
  | boundary hquote hparen hdepth =>
    obtain ⟨init, line, safe, heq⟩ := boundary_eq src s i c
    exact .inl ⟨rfl, by rw [heq]⟩
  | inner hquote hparen hdepth => exact .inl ⟨rfl, rfl⟩

/-- Where nothing is open the end of the text releases the last declarations. -/
theorem finish_of_clear {src : Text} {s : Scan} (hquote : s.quote = none) (hparen : s.paren = 0)
    (hdepth : s.depth = 0) : s.finish src = (looseBlocks src s.loose src.length, none) := by
  simp [finish, hquote, hparen, hdepth]

/-- A text without an error is a sequence of stretches from any place the pass has come to. -/
theorem Cursors.exists_stretches {rest before : Text} {s : Scan}
    (h : Cursors (before ++ rest) before.length s)
    (hok : (Scan.run (before ++ rest) s before.length rest).2 = none) :
    ∃ ps : List Stretch, (before ++ rest).drop s.loose = ps.flatMap Stretch.text ∧
      (Scan.run (before ++ rest) s before.length rest).1 = Stretch.blocksFrom s.loose ps ∧
        ∀ p ∈ ps, p.Sound := by
  -- By the rest of the text: a byte releases one stretch at most, which comes before those of the
  -- rest, and the end releases the last declarations.
  induction rest generalizing before s with
  | nil =>
    rw [List.append_nil] at h hok ⊢
    obtain ⟨hquote, hparen, hdepth⟩ := (finish_eq_none_iff before s).mp hok
    have hnone : s.quote = none := by simpa [brackets] using hquote
    have hclear := h.clear hnone hparen hdepth
    have hloose : s.loose ≤ before.length := h.loose.1.trans h.init.1
    have hslice : slice before s.loose before.length = before.drop s.loose := by
      rw [slice, List.take_length]
    refine ⟨[.loose (slice before s.loose before.length)], ?_, ?_, ?_⟩
    · simp [Stretch.text, hslice]
    · rw [Scan.run, finish_of_clear hnone hparen hdepth]
      simp [Stretch.blocksFrom, Stretch.blocks, looseBlocks]
    · intro p hp
      obtain rfl := List.mem_singleton.mp hp
      exact h.loose.2.balanced_slice hclear hloose
  | cons c rest ih =>
    rw [Scan.run] at hok ⊢
    cases hstep : s.step (before ++ c :: rest) before.length c with
    | error e => simp [hstep] at hok
    | ok r =>
      obtain ⟨s', found⟩ := r
      simp only [hstep] at hok ⊢
      have hreleased := h.stretch_step hstep
      have hnext := h.step hstep
      have hsplit : before ++ c :: rest = before ++ [c] ++ rest := by simp
      have hlength : before.length + 1 = (before ++ [c]).length := by simp
      rw [hsplit, hlength] at hnext
      rw [hsplit] at hreleased hok ⊢
      rw [hlength] at hok ⊢
      obtain ⟨ps, hdrop, hblocks, hsound⟩ := ih hnext hok
      rcases hreleased with ⟨rfl, hloose⟩ | ⟨p, hp, rfl, hloose, htext⟩
      · exact ⟨ps, hloose ▸ hdrop, by rw [List.nil_append, hblocks, hloose], hsound⟩
      · refine ⟨p :: ps, ?_, ?_, List.forall_mem_cons.mpr ⟨hp, hsound⟩⟩
        · rw [htext, hdrop, List.flatMap_cons]
        · rw [hblocks, hloose, Stretch.blocksFrom]

end Scan

/-- A text that is cut into blocks without an error is a sequence of stretches, and the blocks
are theirs. -/
theorem exists_stretches {t : Text} (h : (locate t).2 = none) :
    ∃ ps : List Stretch, t = ps.flatMap Stretch.text ∧
      (locate t).1 = Stretch.blocksFrom 0 ps ∧ ∀ p ∈ ps, p.Sound := by
  have hstart : Scan.Cursors ([] ++ t) ([] : Text).length {} := Scan.cursors_empty t
  obtain ⟨ps, htext, hblocks, hsound⟩ := hstart.exists_stretches h
  exact ⟨ps, by simpa using htext, hblocks, hsound⟩

/-! ### Tiles -/

/-- A text is made of these blocks in order, one after the other, and between them of white
space, of semicolons, and of braces with nothing but white space for a header. -/
inductive Tiled : Text → List Block → Prop
  | nil : Tiled [] []
  | space {w t : Text} {bs : List Block} (hw : isBlank w = true) (ht : Tiled t bs) :
    Tiled (w ++ t) bs
  | semicolon {t : Text} {bs : List Block} (ht : Tiled t bs) : Tiled (ch ';' :: t) bs
  | declaration {header t : Text} {offset : Nat} {bs : List Block} (hne : header ≠ [])
      (hplain : ch ';' ∉ header) (ht : Tiled t bs) :
    Tiled (header ++ t) (⟨header, none, offset⟩ :: bs)
  | block {header u v body w t : Text} {offset : Nat} {bs : List Block} (hne : header ≠ [])
      (hheader : Balanced header) (hbody : Balanced body) (hu : isBlank u = true)
      (hv : isBlank v = true) (hw : isBlank w = true) (ht : Tiled t bs) :
    Tiled (header ++ u ++ ch '\x7b' :: (v ++ body ++ w ++ ch '\x7d' :: t))
      (⟨header, some body, offset⟩ :: bs)
  | dropped {u body t : Text} {bs : List Block} (hu : isBlank u = true) (hbody : Balanced body)
      (ht : Tiled t bs) : Tiled (u ++ ch '\x7b' :: (body ++ ch '\x7d' :: t)) bs

/-- What stands between two semicolons is a declaration between white space, or white
space. -/
theorem Tiled.part {offset : Nat} {part t : Text} {bs : List Block} (hplain : ch ';' ∉ part)
    (ht : Tiled t bs) :
    Tiled (part ++ t)
      ((if (trim part).isEmpty then [] else [⟨trim part, none, offset⟩]) ++ bs) := by
  obtain ⟨w, v, hpart, hw, hv⟩ := exists_trim_spaces part
  -- The white space at both ends of the part is tiles of its own.
  have htail : Tiled (v ++ t) bs := .space hv.isBlank ht
  have hsplit : part ++ t = w ++ (trim part ++ (v ++ t)) := by
    conv_lhs => rw [hpart]
    simp only [List.append_assoc]
  rw [hsplit]
  refine .space hw.isBlank ?_
  split_ifs with hempty
  · rw [List.isEmpty_iff.mp hempty]
    exact htail
  · refine .declaration (by simpa using hempty) (fun hmem => hplain ?_) htail
    rw [hpart]
    simp [hmem]

/-- Declarations between semicolons are tiles. -/
theorem Tiled.declarations {offset : Nat} {parts : List Text} {t : Text} {bs : List Block}
    (hparts : ∀ p ∈ parts, ch ';' ∉ p) (ht : Tiled t bs) :
    Tiled (join [ch ';'] parts ++ t) (looseParts offset parts ++ bs) := by
  induction parts generalizing offset with
  | nil => exact ht
  | cons part rest ih =>
    obtain ⟨hpart, hrest⟩ := List.forall_mem_cons.mp hparts
    have hlater : Tiled (join [ch ';'] rest ++ t)
        (looseParts (offset + part.length + 1) rest ++ bs) := ih hrest
    have hblocks : looseParts offset (part :: rest) ++ bs =
        (if (trim part).isEmpty then [] else [⟨trim part, none, offset + leading part⟩]) ++
          (looseParts (offset + part.length + 1) rest ++ bs) := by
      rw [looseParts]
      split_ifs <;> rfl
    rw [hblocks]
    -- The last part has no semicolon after it.
    cases rest with
    | nil => simpa using Tiled.part hpart hlater
    | cons next rest =>
      rw [join_cons_cons, List.append_assoc, List.append_assoc]
      exact .part hpart (.semicolon hlater)

end Stylesheet
