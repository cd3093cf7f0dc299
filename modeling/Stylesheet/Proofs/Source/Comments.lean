import Stylesheet.Proofs.Source.Strands
import Stylesheet.Proofs.Text.Characters

/-!
# Normalizing takes comments out, and nothing else

Restoring the private characters of a normalized source gives the source without its
comments. For this no three bytes may be taken for a private character that were none, in the
strands or where a comment between two of them is gone. In UTF-8 they are not: a character
goes on to its last byte, and all that is cut off begins and ends with ASCII.

## Main definitions

* `Whole` — a text without private characters or the cut-off start of one

## Main results

* `whole_of_isValidUTF8` — UTF-8 without private characters is such a text
* `Strands.restore_image` — restoring what is written for strands leaves the comments out
* `normalize_drops_comments` — what is left of a source, and what is protected in it
-/

namespace Stylesheet

open Text

/-! ### Restoring texts without private characters -/

/-- In a text, two more bytes outside ASCII come after each `EE`, and they are not those of a
private character. -/
def Whole (t : Text) : Prop :=
  ∀ u r, t = u ++ 0xEE :: r →
    ∃ x y v, r = x :: y :: v ∧ 0x80 ≤ x ∧ 0x80 ≤ y ∧ (x = 0x80 → publicByte? y = none)

theorem Whole.right {t u : Text} (h : Whole (t ++ u)) : Whole u :=
  fun v r hu => h (t ++ v) r (by rw [hu, List.append_assoc])

/-- A text is cut off at an ASCII character, which is no part of another. -/
theorem Whole.upto {t v : Text} {c : UInt8} (h : Whole (t ++ c :: v)) (hc : c < 0x80) :
    Whole (t ++ [c]) := by
  intro u r hu
  have hhigh {d : UInt8} (hd : 0x80 ≤ d) : d ≠ c := ne_of_high hd hc
  obtain ⟨x, y, w, hr, hx, hy, hpublic⟩ := h u (r ++ v) (by
    rw [← List.cons_append, ← List.append_assoc, ← hu]
    simp)
  -- the text ends in the ASCII character, and so neither in `EE` nor in the byte after it
  have hlast : (u ++ 0xEE :: r).getLast? = some c := by rw [← hu]; simp
  match r with
  | [] =>
    rw [List.getLast?_append_cons, List.getLast?_singleton] at hlast
    exact absurd (Option.some.inj hlast) (hhigh (by decide))
  | [d] =>
    obtain ⟨rfl, -⟩ := List.cons.inj hr
    rw [List.getLast?_append_cons] at hlast
    exact absurd (Option.some.inj hlast) (hhigh hx)
  | d :: e :: r =>
    simp only [List.cons_append, List.cons.injEq] at hr
    obtain ⟨rfl, rfl, -⟩ := hr
    exact ⟨d, e, r, rfl, hx, hy, hpublic⟩

theorem restore_cons_of_next {c : UInt8} {u : Text}
    (h : c = 0xEE → ∃ x y v, u = x :: y :: v ∧ (x = 0x80 → publicByte? y = none)) :
    restore (c :: u) = c :: restore u := by
  refine restore_cons_eq fun d t hc hu => ?_
  obtain ⟨x, y, v, heq, hpublic⟩ := h hc
  rw [hu] at heq
  obtain ⟨hx, heq⟩ := List.cons.inj heq
  obtain ⟨rfl, -⟩ := List.cons.inj heq
  exact hpublic hx.symm

theorem Whole.restore_append {t : Text} (h : Whole t) (u : Text) :
    restore (t ++ u) = t ++ restore u := by
  induction t with
  | nil => rfl
  | cons c r ih =>
    have hr : Whole r := h.right (t := [c])
    rw [List.cons_append, restore_cons_of_next, ih hr, List.cons_append]
    rintro rfl
    obtain ⟨x, y, v, rfl, -, -, hpublic⟩ := h [] r rfl
    exact ⟨x, y, v ++ u, rfl, hpublic⟩

theorem privateByte?_high {x : UInt8} (hx : 0x80 ≤ x) : privateByte? x = none := by
  rw [privateByte?]
  iterate 6 rw [if_neg (ne_of_high hx (by decide))]

/-- A byte outside ASCII is kept in a string. -/
theorem protectFrom_high {x : UInt8} (hx : 0x80 ≤ x) (k i : Nat) (r : Text) :
    protectFrom k i (x :: r) = (x, i) :: protectFrom (k - 1) (i + 1) r := by
  cases k with
  | succ k => rfl
  | zero =>
    have hnone : interpolation? (x :: r) = none := by
      have hne : ch '#' ≠ x := (ne_of_high hx (by decide)).symm
      simp [interpolation?, starts, hne]
    have hkept : protectByte x = [x] := by rw [protectByte, privateByte?_high hx]
    rw [protectFrom, hnone, hkept]
    rfl

/-- Restoring undoes protecting a string, its interpolations left out, whatever follows. -/
theorem Whole.restore_protectFrom {w : Text} (hw : Whole w) (k i : Nat) (u : Text) :
    restore ((protectFrom k i w).map (·.1) ++ u) = w ++ restore u := by
  induction w generalizing k i with
  | nil => cases k <;> rfl
  | cons c r ih =>
    have hnext := ih (hw.right (t := [c]))
    -- a byte that is kept is not the first of a private character, since the text is whole
    have hkept (k : Nat) : restore (c :: ((protectFrom k (i + 1) r).map (·.1) ++ u)) =
        c :: r ++ restore u := by
      rw [restore_cons_of_next, hnext, List.cons_append]
      rintro rfl
      obtain ⟨x, y, v, rfl, hx, hy, hpublic⟩ := hw [] r rfl
      rw [protectFrom_high hx, protectFrom_high hy]
      exact ⟨x, y, _, rfl, hpublic⟩
    cases k with
    | succ k => exact hkept k
    | zero =>
      rw [protectFrom]
      cases interpolation? (c :: r) with
      | some n => exact hkept (n - 1)
      | none =>
        -- a byte is kept, or its private character is taken for nothing else
        rcases protectByte_cases c with ⟨hc, -⟩ | ⟨b, hc, -, -, hb⟩
        · rw [hc]
          exact hkept 0
        · rw [hc]
          simp only [List.map_cons, List.map_nil, List.cons_append, List.nil_append]
          rw [restore, if_pos (by decide), hb]
          exact congrArg (c :: ·) (hnext 0 (i + 1))

/-! ### Restoring strands -/

/-- A byte outside ASCII is neither of a string nor of a comment. -/
theorem Strands.high {stops : Bool} {before r : Text} {x : UInt8} {ss : List Strand}
    (h : Strands stops before (x :: r) ss) (hx : 0x80 ≤ x) :
    ∃ ss', ss = .byte x :: ss' ∧ Strands stops (before ++ [x]) r ss' := by
  cases h with
  | quoted hq _ _ => exact absurd rfl (ne_of_high hx (ascii_of_isQuote hq))
  | block _ _ => exact absurd rfl (ne_of_high hx (by decide))
  | line _ _ _ _ => exact absurd rfl (ne_of_high hx (by decide))
  | unread _ _ => exact absurd rfl (ne_of_high hx (by decide))
  | byte _ hrest => exact ⟨_, rfl, hrest⟩

/-- Restoring what is written for strands leaves the comments out, by induction on how a text
is read. -/
theorem Strands.restore_image {stops : Bool} {before t : Text} {ss : List Strand}
    (h : Strands stops before t ss) (ht : Whole t) :
    restore (ss.flatMap Strand.image) = ss.flatMap Strand.kept := by
  induction h with
  | nil => rfl
  | @quoted before q r rest ss hq hr _ ih =>
    -- a string ends in its mark, so it is whole, and what comes after it is
    obtain ⟨r, rfl⟩ := hr.exists_concat
    have hstring : Whole (q :: (r ++ [q])) :=
      Whole.upto (t := q :: r) (v := rest) (by simpa using ht) (ascii_of_isQuote hq)
    rw [List.flatMap_cons, List.flatMap_cons, Strand.image, hstring.restore_protectFrom,
      ih (Whole.right (t := q :: (r ++ [q])) ht)]
    rfl
  | @block before u rest ss _ _ ih =>
    have hrest : Whole rest := Whole.right (t := ch '/' :: ch '*' :: (u ++ [ch '*', ch '/']))
      (by simpa using ht)
    exact ih hrest
  | @line before u rest ss _ _ _ _ ih => exact ih (Whole.right (t := ch '/' :: ch '/' :: u) ht)
  | unread _ _ =>
    have hkept := ht.restore_append []
    rw [List.append_nil] at hkept
    simpa [Strand.image, Strand.kept, Strand.text, restore] using hkept
  | @byte before c rest ss _ hrest ih =>
    have hnext := ih (ht.right (t := [c]))
    have hfirst : restore (c :: ss.flatMap Strand.image) =
        c :: restore (ss.flatMap Strand.image) := by
      -- the two bytes after an `EE` are strands of their own, so no comment is between them
      refine restore_cons_of_next fun hc => ?_
      obtain ⟨x, y, v, rfl, hx, hy, hpublic⟩ := ht [] rest (by rw [hc]; rfl)
      obtain ⟨_, rfl, hlater⟩ := hrest.high hx
      obtain ⟨_, rfl, -⟩ := hlater.high hy
      exact ⟨x, y, _, rfl, hpublic⟩
    rw [List.flatMap_cons, List.flatMap_cons, ← hnext]
    exact hfirst

/-! ### UTF-8 -/

theorem ofNat_ne {m n : Nat} (hm : m < 256) (hn : n < 256) (hne : m ≠ n) :
    UInt8.ofNat m ≠ UInt8.ofNat n := by
  intro h
  have heq := congrArg UInt8.toNat h
  rw [UInt8.toNat_ofNat_of_lt' hm, UInt8.toNat_ofNat_of_lt' hn] at heq
  exact hne heq

theorem high_ofNat {n : Nat} (hn : n < 256) (h : 128 ≤ n) : 0x80 ≤ UInt8.ofNat n := by
  rw [UInt8.le_iff_toNat_le, UInt8.toNat_ofNat_of_lt' hn]
  exact h

/-- A character with `EE` in it is three bytes long, and that is the first. -/
theorem utf8EncodeChar_split {c : Char} {u r : Text}
    (h : String.utf8EncodeChar c = u ++ 0xEE :: r) : ∃ x y, r = [x, y] ∧ 0x80 ≤ x ∧ 0x80 ≤ y := by
  have hmem : (0xEE : UInt8) ∈ String.utf8EncodeChar c := by simp [h]
  -- the later bytes of a character are less than 192, and the first is not 238 but in one case
  have htail (n : Nat) : (0xEE : UInt8) ≠ UInt8.ofNat (n % 64 + 128) :=
    ofNat_ne (m := 238) (by decide) (by omega) (by omega)
  simp only [String.utf8EncodeChar] at h hmem
  split_ifs at h hmem with hone htwo hthree
  · have hne := ofNat_ne (m := 238) (n := c.val.toNat) (by decide) (by omega) (by omega)
    exact absurd (List.mem_singleton.mp hmem) hne
  · have hne := ofNat_ne (m := 238) (n := c.val.toNat / 64 % 32 + 192) (by decide) (by omega)
      (by omega)
    simp only [List.mem_cons, List.not_mem_nil, or_false, htail] at hmem
    exact absurd hmem hne
  · have hhigh (n : Nat) : 0x80 ≤ UInt8.ofNat (n % 64 + 128) :=
      high_ofNat (by omega) (by omega)
    -- of three bytes only the first can be it
    match u with
    | [] =>
      obtain ⟨-, rfl⟩ := List.cons.inj h
      exact ⟨_, _, rfl, hhigh _, hhigh _⟩
    | d :: u =>
      obtain ⟨-, h⟩ := List.cons.inj h
      have hlater : (0xEE : UInt8) ∈ u.append (0xEE :: r) :=
        List.mem_append_right u List.mem_cons_self
      rw [← h] at hlater
      simp only [List.mem_cons, List.not_mem_nil, or_false, htail] at hlater
  · have hne := ofNat_ne (m := 238) (n := c.val.toNat / 262144 % 8 + 240) (by decide) (by omega)
      (by omega)
    simp only [List.mem_cons, List.not_mem_nil, or_false, htail] at hmem
    exact absurd hmem hne

/-- In UTF-8, a character goes on to its last byte. -/
theorem split_of_isValidUTF8 {cs : List Char} {u r : Text}
    (h : cs.flatMap String.utf8EncodeChar = u ++ 0xEE :: r) :
    ∃ x y v, r = x :: y :: v ∧ 0x80 ≤ x ∧ 0x80 ≤ y := by
  induction cs generalizing u with
  | nil => simp at h
  | cons c cs ih =>
    rw [List.flatMap_cons, List.append_eq_append_iff] at h
    rcases h with ⟨w, hu, hrest⟩ | ⟨w, hchar, hrest⟩
    · exact ih hrest
    · cases w with
      | nil => exact ih (u := []) hrest.symm
      | cons d w =>
        obtain ⟨rfl, hr⟩ := List.cons.inj hrest
        obtain ⟨x, y, rfl, hx, hy⟩ := utf8EncodeChar_split hchar
        exact ⟨x, y, _, hr, hx, hy⟩

/-- UTF-8 without private characters is whole. -/
theorem whole_of_isValidUTF8 {t : Text} (hvalid : t.toByteArray.IsValidUTF8) (ht : Public t) :
    Whole t := by
  obtain ⟨cs, htext⟩ := exists_chars_of_isValidUTF8 hvalid
  intro u r hr
  obtain ⟨x, y, v, rfl, hx, hy⟩ := split_of_isValidUTF8 (htext.trans hr)
  refine ⟨x, y, v, rfl, hx, hy, ?_⟩
  rintro rfl
  exact ht.publicByte? ⟨u, v, by rw [hr]; simp⟩

/-! ### Normalized sources -/

/-- Every source can be read as strings, comments and other bytes, up to a block comment that
does not end. However it is read, restoring the normalized source gives it without its
comments; and the normalized source is what is written for the strands, where for a comment
nothing is written, and a string has no structural byte left but in complete
interpolations. -/
theorem normalize_drops_comments {t : Text} (hvalid : t.toByteArray.IsValidUTF8)
    (ht : Public t) :
    (∃ ss, Strands true [] t ss) ∧
      ∀ ss, Strands true [] t ss → ss.flatMap Strand.text = t ∧
        restore (normalize t) = ss.flatMap Strand.kept ∧
        normalize t = ss.flatMap Strand.image ∧
        ∀ w, .quoted w ∈ ss → Shielded (Strand.quoted w).image := by
  refine ⟨exists_strands true [] t, fun ss h => ⟨h.text_eq, ?_, h.normalize_eq, ?_⟩⟩
  · rw [h.normalize_eq]
    exact h.restore_image (whole_of_isValidUTF8 hvalid ht)
  · exact fun w _ => shielded_quoted 0 w

/-- Comments of both kinds, and a string with an interpolation and a semicolon in it. -/
def annotatedSource : Text := of "/* é */a: \"#\x7bb\x7d;\"; // d\nc: http://e"

/-- Restoring it normalized gives it without the comments. -/
theorem annotatedSource_drops_comments :
    annotatedSource.toByteArray.IsValidUTF8 ∧ Public annotatedSource ∧
      (∃ ss, Strands true [] annotatedSource ss) ∧
        ∀ ss, Strands true [] annotatedSource ss →
          of "a: \"#\x7bb\x7d;\"; \nc: http://e" = ss.flatMap Strand.kept := by
  have hvalid := isValidUTF8_of "/* é */a: \"#\x7bb\x7d;\"; // d\nc: http://e"
  have hpublic : Public annotatedSource := by decide +kernel
  obtain ⟨hread, hstrands⟩ := normalize_drops_comments hvalid hpublic
  refine ⟨hvalid, hpublic, hread, fun ss h => ?_⟩
  rw [← (hstrands ss h).2.1]
  decide +kernel

/-- A line comment after the start of a block comment that does not end. -/
def openComment : Text := of "/* // x"

/-- The line comment is kept, although the source, read on after the start of the block
comment, has it. -/
theorem openComment_keeps_lineComment :
    openComment.toByteArray.IsValidUTF8 ∧ Public openComment ∧
      ∃ ss, Strands false [] openComment ss ∧
        restore (normalize openComment) ≠ ss.flatMap Strand.kept := by
  have hsplit : openComment =
      ch '/' :: ch '*' :: ch ' ' :: ch '/' :: ch '/' :: ([ch ' ', ch 'x'] ++ []) := by decide
  have hread : Strands false [] openComment [.byte (ch '/'), .byte (ch '*'), .byte (ch ' '),
      .comment (ch '/' :: ch '/' :: [ch ' ', ch 'x'])] := by
    rw [hsplit]
    -- the block comment has no end, so its marks are bytes, and a line comment follows them
    refine .byte (fun h => ?_) (.byte (fun h => ?_) (.byte (fun h => ?_)
      (.line ?_ (by decide) (by simp) .nil)))
    · rcases h.first with h | ⟨-, ⟨u, hu, h | h⟩ | ⟨u, hu⟩⟩
      · exact absurd h (by decide)
      · obtain ⟨-, rfl⟩ := List.cons.inj hu
        exact absurd h (by decide)
      · cases h
      · exact absurd (List.cons.inj hu).1 (by decide)
    · rcases h.first with h | ⟨h, -⟩ <;> exact absurd h (by decide)
    · rcases h.first with h | ⟨h, -⟩ <;> exact absurd h (by decide)
    · rw [← afterScheme_over]
      decide
  refine ⟨isValidUTF8_of _, by decide +kernel, _, hread, ?_⟩
  decide +kernel

end Stylesheet
