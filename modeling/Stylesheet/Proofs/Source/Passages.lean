import Stylesheet.Proofs.Source.Chunks

/-!
# Texts laid out from passages

A text may be laid out from declarations and blocks in any order, with white space
wherever it likes between them, and with or without a semicolon after a declaration at the
end. However it is laid out, it is taken apart into the same declarations and blocks. The
layout survives trimming and the loss of a last semicolon, so this is so for the bodies of
blocks as well.

## Main definitions

* `Passage` — a declaration, or a block
* `Lays` — a text that is laid out from passages

## Main results

* `locate_of_lays` — the blocks of a text that is laid out from passages
* `Lays.trim`, `Lays.withoutEnd` — what a layout survives
-/

namespace Stylesheet

open Text

/-- A text without quotes, parentheses and braces. -/
def Unmarked (t : Text) : Prop :=
  ∀ c ∈ t, isQuote c = false ∧ c ≠ ch '(' ∧ c ≠ ch ')' ∧ c ≠ ch '\x7b' ∧ c ≠ ch '\x7d'

/-- White space between passages. -/
def IsPad (t : Text) : Prop := ∀ c ∈ t, isPadByte c = true

theorem IsPad.unmarked {t : Text} (h : IsPad t) : Unmarked t := by
  intro c hc
  rcases eq_of_isPadByte (h c hc) with rfl | rfl <;> decide

theorem IsPad.semicolon {t : Text} (h : IsPad t) : ch ';' ∉ t :=
  fun hc => absurd (h _ hc) (by decide)

theorem IsPad.blank {t : Text} (h : IsPad t) : ∀ c ∈ t, blank1 c = true :=
  fun c hc => blank1_of_isPadByte (h c hc)

theorem isPad_nil : IsPad [] := List.forall_mem_nil _

theorem IsPad.append {t u : Text} (ht : IsPad t) (hu : IsPad u) : IsPad (t ++ u) :=
  List.forall_mem_append.mpr ⟨ht, hu⟩

theorem Unmarked.append {t u : Text} (ht : Unmarked t) (hu : Unmarked u) : Unmarked (t ++ u) :=
  List.forall_mem_append.mpr ⟨ht, hu⟩

/-- What a text is laid out from: a declaration, or a header with a block. -/
inductive Passage where
  | declaration (t : Text)
  | block (p : Chunk)

namespace Passage

/-- A passage that the pass takes for what it is. -/
def Sound : Passage → Prop
  | .declaration t => Snug t ∧ Unmarked t ∧ ch ';' ∉ t
  | .block p => p.Sound ∧ Unmarked p.header

/-- The header and the body that a passage has as a block. -/
def parts : Passage → Text × Option Text
  | .declaration t => (t, none)
  | .block p => (p.header, some (trim p.content))

end Passage

/-- The header and the body of a block, wherever it was found. -/
def Block.parts (b : Block) : Text × Option Text := (b.header, b.body)

/-- A text that is laid out from passages. -/
inductive Lays : List Passage → Text → Prop
  | pad {u : Text} (hu : IsPad u) : Lays [] u
  | declaration {u d t : Text} {ps : List Passage} (hu : IsPad u) (ht : Lays ps t) :
      Lays (.declaration d :: ps) (u ++ d ++ ch ';' :: t)
  | last {u d v : Text} (hu : IsPad u) (hv : IsPad v) : Lays [.declaration d] (u ++ d ++ v)
  | block {u t : Text} {p : Chunk} {ps : List Passage} (hu : IsPad u) (ht : Lays ps t) :
      Lays (.block p :: ps) (u ++ p.text ++ t)

/-! ### Loose declarations -/

/-- Texts with a semicolon after each. -/
def ended (raws : List Text) : Text := raws.flatMap (· ++ [ch ';'])

theorem ended_concat (raws : List Text) (t : Text) :
    ended (raws ++ [t]) = ended raws ++ t ++ [ch ';'] := by
  simp [ended]

theorem split_ended {raws : List Text} (hraws : ∀ r ∈ raws, ch ';' ∉ r) (t : Text) :
    split (ch ';') (ended raws ++ t) = raws ++ split (ch ';') t := by
  induction raws with
  | nil => rfl
  | cons r raws ih =>
    obtain ⟨hr, hraws⟩ := List.forall_mem_cons.mp hraws
    have hcons : ended (r :: raws) ++ t = r ++ ch ';' :: (ended raws ++ t) := by simp [ended]
    rw [hcons, split_append_cons hr, ih hraws, List.cons_append]

/-- The declarations of a text are its parts between semicolons that are not blank. -/
theorem map_parts_looseParts (offset : Nat) (raws : List Text) :
    (looseParts offset raws).map Block.parts =
      ((raws.map trim).filter fun t => !t.isEmpty).map fun t => (t, none) := by
  induction raws generalizing offset with
  | nil => rfl
  | cons r raws ih =>
    rw [looseParts, List.map_cons, List.filter_cons]
    cases hr : (trim r).isEmpty with
    | true => exact ih _
    | false => exact congrArg (_ :: ·) (ih _)

/-- Declarations that are ended, and one after them that is not. -/
theorem map_parts_looseBlocks {src before after t : Text} {raws : List Text}
    (hsrc : src = before ++ (ended raws ++ t) ++ after)
    (hraws : ∀ r ∈ raws, ch ';' ∉ r ∧ trim r ≠ []) (ht : ch ';' ∉ t) :
    (looseBlocks src before.length (before ++ (ended raws ++ t)).length).map Block.parts =
      (raws.map fun r => (trim r, none)) ++
        if (trim t).isEmpty then [] else [(trim t, none)] := by
  have hlone : split (ch ';') t = [t] := by
    simpa using split_join (List.cons_ne_nil t []) fun u hu => List.mem_singleton.mp hu ▸ ht
  have hkeep : ((raws.map trim).filter fun t => !t.isEmpty) = raws.map trim := by
    refine List.filter_eq_self.mpr fun t ht => ?_
    obtain ⟨r, hr, rfl⟩ := List.mem_map.mp ht
    simpa using (hraws r hr).2
  rw [looseBlocks, slice_middle hsrc, split_ended fun r hr => (hraws r hr).1, hlone,
    map_parts_looseParts, List.map_append, List.filter_append, hkeep, List.map_append,
    List.map_map]
  refine congrArg (_ ++ ·) ?_
  cases h : (trim t).isEmpty <;> simp [h]

namespace Scan

variable {src : Text}

/-- A declaration up to its semicolon: the next header starts after it, whatever lines and
commas were in it. -/
theorem run_declaration {t : Text} (rest : Text) {i : Nat} {s : Scan} (hdepth : s.depth = 0)
    (hparen : s.paren = 0) (hquote : s.quote = none) (ht : Unmarked t) :
    run src s i (t ++ ch ';' :: rest) =
      run src { s with init := i + t.length + 1, safe := i + t.length + 1, line := none }
        (i + t.length + 1) rest := by
  induction t generalizing i s with
  | nil =>
    refine run_cons_silent ?_
    have hplain : isQuote (ch ';') = false ∧ ch ';' ≠ ch '(' ∧ ch ';' ≠ ch ')' ∧
        ch ';' ≠ ch '\x7b' ∧ ch ';' ≠ ch '\x7d' := by decide
    simp [step, boundary, hdepth, hparen, hquote, hplain]
  | cons c t ih =>
    obtain ⟨⟨hc, hleft, hright, hopen, hclose⟩, ht⟩ := List.forall_mem_cons.mp ht
    have hstep : step src s i c = .ok (s.boundary src i c, []) := by
      simp [step, hdepth, hparen, hquote, hc, hleft, hright, hopen, hclose]
    obtain ⟨init, line, safe, hboundary⟩ := boundary_eq src s i c
    have hlength : i + 1 + t.length + 1 = i + (c :: t).length + 1 := by
      rw [List.length_cons]
      omega
    rw [List.cons_append, run_cons_silent hstep, hboundary, ← hlength]
    exact ih hdepth hparen hquote ht

/-- Before a header that starts after the declarations `raws`, none of them yielded. -/
def following (before : Text) (raws : List Text) (start : Nat) : Scan :=
  heading before.length start (before ++ ended raws).length (before ++ ended raws).length 0

/-- The pass at the end of a text: the declarations left are yielded. -/
theorem run_end {before t : Text} {raws : List Text} (start : Nat)
    (hraws : ∀ r ∈ raws, ch ';' ∉ r ∧ trim r ≠ []) (hsrc : src = before ++ ended raws ++ t)
    (ht : Unmarked t) (hsemicolon : ch ';' ∉ t) :
    ∃ found, run src (following before raws start) (before ++ ended raws).length t =
        (found, none) ∧
      found.map Block.parts = (raws.map fun r => (trim r, none)) ++
        if (trim t).isEmpty then [] else [(trim t, none)] := by
  refine ⟨_, run_loose rfl rfl rfl ht, ?_⟩
  have hwhole : src = before ++ (ended raws ++ t) ++ [] := by simp [hsrc]
  have hlength : src.length = (before ++ (ended raws ++ t)).length := by simp [hsrc]
  rw [hlength]
  exact map_parts_looseBlocks hwhole hraws hsemicolon

/-- The pass over a text that is laid out from passages, after the declarations `raws`. The
induction is on the layout: a declaration joins those before it, a block yields them and
itself. -/
theorem run_of_lays {before t : Text} {raws : List Text} {ps : List Passage} (start : Nat)
    (h : Lays ps t) (hps : ∀ p ∈ ps, p.Sound) (hraws : ∀ r ∈ raws, ch ';' ∉ r ∧ trim r ≠ [])
    (hsrc : src = before ++ ended raws ++ t) :
    ∃ found, run src (following before raws start) (before ++ ended raws).length t =
        (found, none) ∧
      found.map Block.parts = (raws.map fun r => (trim r, none)) ++ ps.map Passage.parts := by
  induction h generalizing before raws start with
  | @pad u hu =>
    obtain ⟨found, hrun, hfound⟩ := run_end start hraws hsrc hu.unmarked hu.semicolon
    have hblank : (trim u).isEmpty = true := isBlank_of_blank1 hu.blank
    exact ⟨found, hrun, by simpa [hblank] using hfound⟩
  | @last u d v hu hv =>
    obtain ⟨hsnug, hunmarked, hsemicolon⟩ := hps _ List.mem_cons_self
    obtain ⟨found, hrun, hfound⟩ := run_end start hraws hsrc
      ((hu.unmarked.append hunmarked).append hv.unmarked)
      (by simp [hu.semicolon, hsemicolon, hv.semicolon])
    refine ⟨found, hrun, ?_⟩
    rw [hsnug.trim_pad hu.blank hv.blank] at hfound
    simpa [hsnug.ne_nil, Passage.parts] using hfound
  | @declaration u d t ps hu ht ih =>
    obtain ⟨⟨hsnug, hunmarked, hsemicolon⟩, hps⟩ := List.forall_mem_cons.mp hps
    -- The declaration joins those that wait, and is yielded with them by what comes next.
    have htrim : trim (u ++ d) = d := by simpa using hsnug.trim_pad hu.blank isPad_nil.blank
    have hraws' : ∀ r ∈ raws ++ [u ++ d], ch ';' ∉ r ∧ trim r ≠ [] := by
      refine List.forall_mem_append.mpr ⟨hraws, List.forall_mem_singleton.mpr ⟨?_, ?_⟩⟩
      · simp [hu.semicolon, hsemicolon]
      · rw [htrim]
        exact hsnug.ne_nil
    obtain ⟨found, hrun, hfound⟩ := @ih before _ start hps hraws' (by simp [hsrc, ended_concat])
    refine ⟨found, ?_, by simpa [htrim, Passage.parts] using hfound⟩
    have hlength : (before ++ ended raws).length + (u ++ d).length + 1 =
        (before ++ ended (raws ++ [u ++ d])).length := by
      simp [ended_concat]
      omega
    rw [run_declaration t rfl rfl rfl (hu.unmarked.append hunmarked), hlength]
    exact hrun
  | @block u t p ps hu ht ih =>
    obtain ⟨⟨hp, -⟩, hps⟩ := List.forall_mem_cons.mp hps
    -- The block yields those that wait and itself; after it none do.
    have hle : before.length ≤ (before ++ ended raws).length := by simp
    obtain ⟨b, start', hb, hrun⟩ := run_chunk start hle hp hu
      (show src = before ++ ended raws ++ u ++ p.text ++ t by simp [hsrc])
    have hnext : following (before ++ ended raws ++ u ++ p.text) [] start' =
        between start' (before ++ ended raws ++ u ++ p.text).length := by
      simp [following, between, ended]
    obtain ⟨found, hrest, hfound⟩ := @ih (before ++ ended raws ++ u ++ p.text) [] start' hps
      (List.forall_mem_nil _) (by simp [hsrc, ended])
    rw [hnext, show ended [] = [] from rfl, List.append_nil] at hrest
    rw [hrest] at hrun
    refine ⟨_, hrun, ?_⟩
    have hloose := @map_parts_looseBlocks src before (u ++ p.text ++ t) [] raws
      (by simp [hsrc]) hraws List.not_mem_nil
    have hparts : b.parts = (Passage.block p).parts := Prod.ext hb.1 hb.2
    rw [List.append_nil] at hloose
    rw [List.map_append, List.map_cons, hloose, hparts, hfound]
    simp [show trim [] = [] from rfl]

end Scan

/-- The blocks of a text that is laid out from passages are the passages. -/
theorem locate_of_lays {t : Text} {ps : List Passage} (h : Lays ps t) (hps : ∀ p ∈ ps, p.Sound) :
    (locate t).2 = none ∧ (locate t).1.map Block.parts = ps.map Passage.parts := by
  obtain ⟨found, hrun, hfound⟩ := @Scan.run_of_lays t [] t [] ps 0 h hps (List.forall_mem_nil _) rfl
  have hlocate : locate t = (found, none) := hrun
  rw [hlocate]
  exact ⟨rfl, hfound⟩

/-! ### What a layout survives -/

/-- A snug text with white space after it starts like the snug text. -/
theorem spaceWidth_append_pad {d w : Text} (hd : Snug d) (hw : IsPad w) :
    spaceWidth (d ++ w) = 0 := by
  cases w with
  | nil => simpa using hd.start
  | cons c w =>
    exact spaceWidth_append_ascii hd.ne_nil (ascii_of_blank1 (hw.blank c List.mem_cons_self))
      hd.start

/-- A text that goes on after a mark ends like what comes after the mark, or with it. -/
theorem spaceWidthRev_append_mark {x y : Text} {c : UInt8} (hy : spaceWidthRev y.reverse = 0)
    (hc : c < 0x80) (hblank : blank1 c = false) : spaceWidthRev (x ++ c :: y).reverse = 0 := by
  rw [List.reverse_append, List.reverse_cons, List.append_assoc, List.singleton_append]
  by_cases hne : y = []
  · rw [hne]
    exact spaceWidthRev_ascii hc hblank _
  · exact spaceWidthRev_append_ascii (by simpa using hne) hc hy

namespace Lays

variable {t u : Text} {ps : List Passage}

/-- White space before the first passage. -/
theorem pad_left (h : Lays ps t) (hu : IsPad u) : Lays ps (u ++ t) := by
  cases h with
  | pad hv => exact .pad (hu.append hv)
  | declaration hv ht =>
    rw [← List.append_assoc, ← List.append_assoc]
    exact .declaration (hu.append hv) ht
  | last hv hw =>
    rw [← List.append_assoc, ← List.append_assoc]
    exact .last (hu.append hv) hw
  | block hv ht =>
    rw [← List.append_assoc, ← List.append_assoc]
    exact .block (hu.append hv) ht

/-- White space after the last passage. -/
theorem pad_right (h : Lays ps t) (hu : IsPad u) : Lays ps (t ++ u) := by
  induction h with
  | pad hv => exact .pad (hv.append hu)
  | declaration hv _ ih =>
    rw [List.append_assoc, List.cons_append]
    exact .declaration hv ih
  | last hv hw =>
    rw [List.append_assoc]
    exact .last hv (hw.append hu)
  | block hv _ ih =>
    rw [List.append_assoc]
    exact .block hv ih

/-- A text that is laid out from passages is balanced. -/
theorem bracesBalanced (h : Lays ps t) (hps : ∀ p ∈ ps, p.Sound) :
    bracesBalanced 0 t = true := by
  induction h with
  | pad hu => exact bracesBalanced_of_forall hu.unmarked
  | last hu hv =>
    obtain ⟨-, hd, -⟩ := hps _ List.mem_cons_self
    exact bracesBalanced_of_forall ((hu.unmarked.append hd).append hv.unmarked)
  | @declaration u d t ps hu _ ih =>
    obtain ⟨⟨-, hd, -⟩, hps⟩ := List.forall_mem_cons.mp hps
    have hsemicolon : Unmarked [ch ';'] := List.forall_mem_singleton.mpr (by decide)
    have hfirst := bracesBalanced_of_forall ((hu.unmarked.append hd).append hsemicolon)
    simpa using bracesBalanced_append hfirst (ih hps)
  | @block u t p ps hu _ ih =>
    obtain ⟨⟨hp, hheader⟩, hps⟩ := List.forall_mem_cons.mp hps
    have hpad : IsPad p.pad := fun c hc => by rw [hp.pad_bytes c hc]; rfl
    have htext := Chunk.bracesBalanced_text
      (bracesBalanced_of_forall (hheader.append hpad.unmarked)) hp.content
    exact bracesBalanced_append
      (bracesBalanced_append (bracesBalanced_of_forall hu.unmarked) htext) (ih hps)

/-- Nothing is laid out in an empty text. -/
theorem eq_nil (h : Lays ps []) (hps : ∀ p ∈ ps, p.Sound) : ps = [] := by
  generalize ht : ([] : Text) = t at h
  cases h with
  | pad => rfl
  | declaration => simp at ht
  | last =>
    obtain ⟨hsnug, -⟩ := hps _ List.mem_cons_self
    simp [hsnug.ne_nil] at ht
  | block => simp [Chunk.text] at ht

/-- The semicolon at the end is that of a declaration, which can do without it. -/
theorem of_concat_semicolon (h : Lays ps t) (hps : ∀ p ∈ ps, p.Sound) (ht : t = u ++ [ch ';']) :
    Lays ps u := by
  induction h generalizing u with
  | pad hv => exact absurd (by simp [ht]) hv.semicolon
  | last hv hw =>
    obtain ⟨-, -, hsemicolon⟩ := hps _ List.mem_cons_self
    have hmem := congrArg (ch ';' ∈ ·) ht
    simp [hv.semicolon, hw.semicolon, hsemicolon] at hmem
  | @declaration v d t ps hv hrest ih =>
    obtain ⟨-, hps⟩ := List.forall_mem_cons.mp hps
    -- The semicolon is that of this declaration if nothing comes after it.
    rcases t.eq_nil_or_concat with rfl | ⟨t', c, rfl⟩
    · obtain rfl := hrest.eq_nil hps
      obtain rfl : v ++ d = u := List.append_inj_left' ht rfl
      simpa using Lays.last hv isPad_nil
    · rw [List.concat_eq_append, ← List.cons_append, ← List.append_assoc] at ht
      obtain ⟨rfl, hc⟩ := List.append_inj' ht rfl
      obtain rfl := List.singleton_inj.mp hc
      exact .declaration hv (ih hps (List.concat_eq_append ..))
  | @block v t p ps hv hrest ih =>
    obtain ⟨-, hps⟩ := List.forall_mem_cons.mp hps
    rcases t.eq_nil_or_concat with rfl | ⟨t', c, rfl⟩
    · rw [List.append_nil, Chunk.text, ← List.append_assoc] at ht
      exact absurd (List.append_inj_right' ht rfl) (by decide)
    · rw [List.concat_eq_append, ← List.append_assoc] at ht
      obtain ⟨rfl, hc⟩ := List.append_inj' ht rfl
      obtain rfl := List.singleton_inj.mp hc
      exact .block hv (ih hps (List.concat_eq_append ..))

theorem withoutEnd (h : Lays ps t) (hps : ∀ p ∈ ps, p.Sound) :
    Lays ps (withoutEnd t [ch ';']) := by
  unfold Text.withoutEnd
  split_ifs with hends
  · obtain ⟨u, hu⟩ := List.isSuffixOf_iff_suffix.mp hends
    have htake : t.take (t.length - [ch ';'].length) = u := by simp [← hu]
    rw [htake]
    exact h.of_concat_semicolon hps hu.symm
  · exact h

/-- The white space before the first passage can be taken off. -/
theorem exists_left (h : Lays ps t) (hps : ∀ p ∈ ps, p.Sound) :
    ∃ v y, t = v ++ y ∧ IsPad v ∧ Lays ps y ∧ spaceWidth y = 0 := by
  cases h with
  | pad hu => exact ⟨t, [], by simp, hu, .pad isPad_nil, rfl⟩
  | @declaration u d t ps hu ht =>
    obtain ⟨hsnug, -⟩ := hps _ List.mem_cons_self
    refine ⟨u, d ++ ch ';' :: t, by simp, hu, .declaration isPad_nil ht, ?_⟩
    exact spaceWidth_append_ascii hsnug.ne_nil (by decide) hsnug.start
  | @last u d v hu hv =>
    obtain ⟨hsnug, -⟩ := hps _ List.mem_cons_self
    exact ⟨u, d ++ v, by simp, hu, .last isPad_nil hv, spaceWidth_append_pad hsnug hv⟩
  | @block u t p ps hu ht =>
    obtain ⟨hp, -⟩ := hps _ List.mem_cons_self
    have hpad : IsPad p.pad := fun c hc => by rw [hp.pad_bytes c hc]; rfl
    refine ⟨u, p.text ++ t, by simp, hu, .block isPad_nil ht, ?_⟩
    have hsplit : p.text ++ t =
        p.header ++ p.pad ++ ch '\x7b' :: (p.content ++ ch '\x7d' :: t) := by
      simp [Chunk.text]
    rw [hsplit]
    exact spaceWidth_append_ascii (by simp [hp.snug.ne_nil]) (by decide)
      (spaceWidth_append_pad hp.snug hpad)

/-- The white space after the last passage can be taken off. -/
theorem exists_right (h : Lays ps t) (hps : ∀ p ∈ ps, p.Sound) :
    ∃ y v, t = y ++ v ∧ IsPad v ∧ Lays ps y ∧ spaceWidthRev y.reverse = 0 := by
  induction h with
  | @pad u hu => exact ⟨[], u, rfl, hu, .pad isPad_nil, rfl⟩
  | @last u d v hu hv =>
    obtain ⟨hsnug, -⟩ := hps _ List.mem_cons_self
    refine ⟨u ++ d, v, rfl, hv, by simpa using Lays.last hu isPad_nil, ?_⟩
    -- White space is ASCII, so none of it is the start of a wider space at the end.
    rcases u.eq_nil_or_concat with rfl | ⟨u', c, rfl⟩
    · exact hsnug.stop
    · have hc := ascii_of_blank1 (hu.blank c (by simp))
      rw [List.concat_eq_append, List.reverse_append, List.reverse_append]
      exact spaceWidthRev_append_ascii (by simpa using hsnug.ne_nil) hc hsnug.stop
  | @declaration u d t ps hu ht ih =>
    obtain ⟨-, hps⟩ := List.forall_mem_cons.mp hps
    obtain ⟨y, v, rfl, hv, hy, hstop⟩ := ih hps
    refine ⟨u ++ d ++ ch ';' :: y, v, by simp, hv, .declaration hu hy, ?_⟩
    exact spaceWidthRev_append_mark hstop (by decide) (by decide)
  | @block u t p ps hu ht ih =>
    obtain ⟨-, hps⟩ := List.forall_mem_cons.mp hps
    obtain ⟨y, v, rfl, hv, hy, hstop⟩ := ih hps
    refine ⟨u ++ p.text ++ y, v, by simp, hv, .block hu hy, ?_⟩
    have hsplit : u ++ p.text ++ y =
        (u ++ p.header ++ p.pad ++ ch '\x7b' :: p.content) ++ ch '\x7d' :: y := by
      simp [Chunk.text]
    rw [hsplit]
    exact spaceWidthRev_append_mark hstop (by decide) (by decide)

/-- Trimming takes off white space before the first and after the last passage. -/
theorem trim (h : Lays ps t) (hps : ∀ p ∈ ps, p.Sound) : Lays ps (trim t) := by
  obtain ⟨v, y, rfl, hv, hy, hstart⟩ := h.exists_left hps
  obtain ⟨z, w, rfl, hw, hz, hstop⟩ := hy.exists_right hps
  rw [← List.append_assoc]
  by_cases hne : z = []
  · subst hne
    have hblank : (Text.trim (v ++ [] ++ w)).isEmpty = true := by
      rw [List.append_nil]
      exact isBlank_of_blank1 (hv.append hw).blank
    rw [List.isEmpty_iff.mp hblank]
    exact hz
  · have hsnug : Snug z := ⟨hne, spaceWidth_eq_zero_of_append hne hstart, hstop⟩
    rw [hsnug.trim_pad hv.blank hw.blank]
    exact hz

end Lays

end Stylesheet
