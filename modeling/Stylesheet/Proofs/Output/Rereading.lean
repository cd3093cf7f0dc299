import Stylesheet.Proofs.Output.Shortening

/-!
# Reading shortened values again

A shortened value is its lexemes, each shortened by itself and written one after another. Read
again, it is the same lexemes only if none of them runs into its neighbours: a keyword in place of
a number sign can continue a name, and a zero without its unit can be continued. This file says
when exactly the lexemes are kept, and that shortening again then changes nothing.

## Main definitions

* `Intact` — a shortened lexeme that does not run into its neighbours
* `Style.Settled` — lexemes of which none does

## Main results

* `Style.reread_iff` — the shortened lexemes are read again if and only if they are settled
-/

namespace Stylesheet

open Text

/-! ### Neighbours -/

/-- A lexeme of this kind, written as `image` after the bytes `b` and before `next`, does not
run into its neighbours. -/
structure Intact (b : Before2) (kind : LexemeKind) (image next : Text) : Prop where
  /-- A color ends where the name after its number sign does. -/
  hash : head0 image = ch '#' → isName (head0 next) = false
  /-- A name continues no other, unless it is a single byte. -/
  name : startsName (head0 image) = true → kind ≠ .other →
    image.length = 1 ∨ continuesName b = false
  /-- A number continues no name and starts with one point at most, unless it is a single
  byte. -/
  number : kind = .number →
    image.length = 1 ∨ blocksNumber b = false ∧ starts image (of "..") = false
  /-- A zero that stands as a number ends where it did. -/
  zero : kind = .number → image = [ch '0'] →
    blocksNumber b = true ∨ extendsNumber (head0 next) = false

instance (b : Before2) (kind : LexemeKind) (image next : Text) :
    Decidable (Intact b kind image next) :=
  decidable_of_iff
    ((head0 image = ch '#' → isName (head0 next) = false) ∧
      (startsName (head0 image) = true → kind ≠ .other →
        image.length = 1 ∨ continuesName b = false) ∧
      (kind = .number →
        image.length = 1 ∨ blocksNumber b = false ∧ starts image (of "..") = false) ∧
      (kind = .number → image = [ch '0'] →
        blocksNumber b = true ∨ extendsNumber (head0 next) = false))
    ⟨fun h => ⟨h.1, h.2.1, h.2.2.1, h.2.2.2⟩, fun h => ⟨h.hash, h.name, h.number, h.zero⟩⟩

/-- Each lexeme, written after the bytes `b` and shortened, keeps apart from its neighbours. -/
def Style.Settled (s : Style) : Before2 → List Lexeme → Prop
  | _, [] => True
  | b, l :: ls =>
    Intact b l.kind (s.lexeme l) (ls.flatMap s.lexeme) ∧ s.Settled (passed b (s.lexeme l)) ls

instance Style.decidableSettled (s : Style) :
    ∀ (b : Before2) (ls : List Lexeme), Decidable (s.Settled b ls)
  | _, [] => isTrue trivial
  | b, l :: ls =>
    have := s.decidableSettled (passed b (s.lexeme l)) ls
    inferInstanceAs (Decidable (_ ∧ _))

/-! ### What comes before -/

/-- Bytes after which nothing starts that does not start after others. -/
structure Sharper (b b' : Before2) : Prop where
  name : isName b.1 = true → isName b'.1 = true
  continues : continuesName b = true → continuesName b' = true
  blocks : blocksNumber b = true → blocksNumber b' = true

theorem Sharper.refl (b : Before2) : Sharper b b := ⟨id, id, id⟩

/-- Neither a name nor a number starts after these bytes. -/
def Blocking (b : Before2) : Prop := continuesName b = true ∧ blocksNumber b = true

theorem blocking_of_ne_minus {c : UInt8} (h : isName c = true ∨ c = ch '.') (hc : c ≠ ch '-')
    (d : UInt8) : Blocking (c, d) := by
  have hcontinues : continuesName (c, d) = true := by
    simp only [continuesName, Bool.or_eq_true, decide_eq_true_eq]
    exact h.imp_left .inl
  refine ⟨hcontinues, ?_⟩
  rw [blocksNumber, if_neg hc]
  exact hcontinues

theorem blocking_of_name {c d : UInt8} (hc : isName c = true) (hd : isName d = true) :
    Blocking (c, d) := by
  by_cases hminus : c = ch '-'
  · refine ⟨by simp [continuesName, hc], ?_⟩
    rw [blocksNumber, if_pos hminus]
    exact hd
  · exact blocking_of_ne_minus (.inl hc) hminus d

theorem Sharper.of_blocking {b b' : Before2} (hname : isName b'.1 = true) (h : Blocking b') :
    Sharper b b' := ⟨fun _ => hname, fun _ => h.1, fun _ => h.2⟩

/-- Passing the same text. -/
theorem Sharper.passed {b b' : Before2} (h : Sharper b b') (t : Text) :
    Sharper (passed b t) (passed b' t) := by
  induction t generalizing b b' with
  | nil => exact h
  | cons c t ih =>
    refine ih ⟨id, id, ?_⟩
    by_cases hminus : c = ch '-'
    · simpa only [blocksNumber, if_pos hminus] using h.name
    · intro hblocks
      rw [blocksNumber, if_neg hminus] at hblocks ⊢
      exact hblocks

theorem passed_concat (b : Before2) (t : Text) (c : UInt8) :
    Stylesheet.passed b (t ++ [c]) = (c, (Stylesheet.passed b t).1) := by
  rw [passed_append]
  rfl

theorem EndsInName.passed {t : Text} (h : EndsInName t) (b : Before2) :
    isName (Stylesheet.passed b t).1 = true ∧ Blocking (Stylesheet.passed b t) := by
  obtain ⟨before, c, d, rfl, hc, hd⟩ := h
  rw [passed_append]
  exact ⟨hd, blocking_of_name hd hc⟩

/-- After a name nothing starts. -/
theorem blocking_of_nameAt {name rest : Text} (h : NameAt name rest) (b : Before2) :
    Blocking (passed b name) := by
  cases name with
  | nil => exact absurd rfl h.ne_nil
  | cons c t =>
    by_cases ht : t = []
    · subst ht
      have hc : c ≠ ch '-' := by
        rintro rfl
        exact absurd h.first (by decide)
      exact blocking_of_ne_minus (.inl (h.all c List.mem_cons_self)) hc _
    · have hlength : 0 < t.length := List.length_pos_of_ne_nil ht
      exact ((endsInName_of_forall h.all (by rw [List.length_cons]; omega)).passed b).2

/-- After a number nothing starts that would continue it, unless it is a percentage. -/
theorem blocking_of_number {digits unit rest : Text}
    (hdigits : ∀ c ∈ digits, isNumeralByte c = true)
    (hunit : NumberUnit unit rest) (hne : digits ++ unit ≠ []) (b : Before2) :
    unit = [ch '%'] ∨ Blocking (passed b (digits ++ unit)) := by
  have hlast : ∀ (t : Text) (c : UInt8), isName c = true ∨ c = ch '.' → c ≠ ch '-' →
      Blocking (passed b (t ++ [c])) := by
    intro t c hc hminus
    rw [passed_concat]
    exact blocking_of_ne_minus hc hminus _
  cases hunit with
  | percent => exact .inl rfl
  | letters hunit hletters =>
    obtain ⟨u, c, rfl⟩ := (List.eq_nil_or_concat' unit).resolve_left hunit
    have hc : isLetter c = true := hletters c (by simp)
    rw [← List.append_assoc]
    refine .inr (hlast _ c (.inl (isName_of_isLetter c hc)) ?_)
    rintro rfl
    exact absurd hc (by decide)
  | none =>
    rw [List.append_nil] at hne ⊢
    obtain ⟨d, c, rfl⟩ := (List.eq_nil_or_concat' digits).resolve_left hne
    have hc : isNumeralByte c = true := hdigits c (List.mem_append_right d List.mem_cons_self)
    refine .inr (hlast d c ?_ ?_)
    · simp only [isNumeralByte, Bool.or_eq_true, decide_eq_true_eq] at hc
      exact hc.imp_left (isName_of_isNumeral c)
    · rintro rfl
      exact absurd hc (by decide)

/-! ### Shortened lexemes -/

section Lexeme

variable {s : Style} {b b' : Before2} {l : Lexeme} {rest next : Text}

/-- A name as it is written in place of a lexeme. -/
theorem exists_stands_name {name : Text} (hname : NameAt name next)
    (hb : name.length = 1 ∨ continuesName b' = false)
    (hcolor : head0 next ≠ ch '(' → isColorName name = true → s.color name = name)
    (hurl : head0 next = ch '(' → sameFold name (of "url") = false) :
    ∃ l', l'.text = name ∧ Stands b' l' next ∧ s.lexeme l' = name := by
  by_cases hcontinues : continuesName b' = false
  · by_cases hcall : head0 next = ch '('
    · exact ⟨⟨.function, name⟩, rfl, .function hcontinues hname hcall (hurl hcall), rfl⟩
    · refine ⟨⟨.word, name⟩, rfl, .word hcontinues hname hcall, ?_⟩
      unfold Style.lexeme
      dsimp only
      split_ifs with hkeyword
      · exact hcolor hcall hkeyword
      · rfl
  · -- A single byte of a name continues the name before it.
    obtain ⟨c, rfl⟩ := List.length_eq_one_iff.mp (hb.resolve_right hcontinues)
    obtain ⟨hquote, hhash, hdigit, hpoint⟩ := starts_nothing_else c hname.first
    refine ⟨⟨.other, [c]⟩, rfl, .other hquote hhash (fun _ => by simpa using hcontinues) ?_, rfl⟩
    intro hnumber
    exact absurd hnumber (by simp [startsNumber, head0, hdigit, hpoint])

/-- A color as it is written in place of a lexeme. -/
theorem exists_stands_hash {name : Text} (hname : ∀ c ∈ name, isName c = true)
    (hend : isName (head0 next) = false) (hcolor : s.color (ch '#' :: name) = ch '#' :: name) :
    ∃ l', l'.text = ch '#' :: name ∧ Stands b' l' next ∧ s.lexeme l' = ch '#' :: name :=
  ⟨⟨.hash, ch '#' :: name⟩, rfl, .hash hname hend, hcolor⟩

theorem nameAt_keyword {e : Text × Text} (he : e ∈ colorNames)
    (hend : isName (head0 next) = false) : NameAt e.1 next := by
  refine ⟨?_, fun c hc => isName_of_isLetter c ((colorNames_keyword he).2.1 c hc), hend⟩
  unfold startsName
  rw [head0_keyword he, Bool.true_or]

/-- A shortened color as it is written in place of a lexeme. -/
theorem exists_stands_color {t : Text} (htext : ColorText (s.color t))
    (hintact : Intact b' l.kind (s.color t) next) (hkind : l.kind ≠ .other)
    (hend : isName (head0 next) = false) :
    ∃ l', l'.text = s.color t ∧ Stands b' l' next ∧ s.lexeme l' = s.color t := by
  have hcolor := s.color_color t
  generalize s.color t = image at htext hintact hcolor
  cases htext with
  | hash hname => exact exists_stands_hash hname hend hcolor
  | @keyword e he =>
    have hname : NameAt e.1 next := nameAt_keyword he hend
    exact exists_stands_name hname (hintact.name hname.first hkind) (fun _ _ => hcolor)
      fun _ => (colorNames_keyword he).2.2

theorem startsNumber_singleton : ∀ c, startsNumber [c] = isDigit c :=
  forall_byte (by decide +kernel)

theorem isNumeral_of_startsNumber {t : Text} (h : startsNumber t = true) :
    isNumeralByte (head0 t) = true := by
  simp only [startsNumber, Bool.or_eq_true, Bool.and_eq_true] at h
  simp only [isNumeralByte, Bool.or_eq_true]
  exact h.imp_right And.left

theorem startsNumber_append {t : Text} (h : startsNumber t = true) (next : Text) :
    startsNumber (t ++ next) = true := by
  match t with
  | [] => exact absurd h (by decide)
  | [c] =>
    rw [startsNumber_singleton] at h
    simp [startsNumber, head0, h]
  | c :: d :: t => exact h

theorem startsNumber_of_append {digits unit : Text}
    (hdigits : ∀ c ∈ digits, isNumeralByte c = true)
    (hunit : NumberUnit unit rest) (h : startsNumber (digits ++ unit ++ rest) = true) :
    startsNumber (digits ++ unit) = true := by
  have hend := hunit.head_unit
  match digits with
  | [] =>
    have hnumeral : isNumeralByte (head0 (unit ++ rest)) = true := isNumeral_of_startsNumber h
    rw [hnumeral] at hend
    exact absurd hend (by decide)
  | [c] =>
    -- The byte after a point alone would be a digit, but the digits end there.
    simp only [startsNumber, Bool.or_eq_true, Bool.and_eq_true] at h ⊢
    refine h.imp_right fun hpoint => ?_
    have hdigit : isDigit (head0 (unit ++ rest)) = true := hpoint.2
    rw [isNumeralByte, hdigit, Bool.true_or] at hend
    exact absurd hend (by decide)
  | c :: d :: t => exact h

/-- A number as it is written in place of a lexeme. -/
theorem exists_stands_number {digits unit : Text} (hdigits : ∀ c ∈ digits, isNumeralByte c = true)
    (hunit : NumberUnit unit next) (hstart : startsNumber (digits ++ unit) = true)
    (hb : (digits ++ unit).length = 1 ∨ blocksNumber b' = false)
    (hnumber : s.number (digits ++ unit) = digits ++ unit) :
    ∃ l', l'.text = digits ++ unit ∧ Stands b' l' next ∧ s.lexeme l' = digits ++ unit := by
  by_cases hblocks : blocksNumber b' = false
  · exact ⟨⟨.number, digits ++ unit⟩, rfl,
      .number hblocks (startsNumber_append hstart next) hdigits hunit, hnumber⟩
  · -- A single digit continues the name before it.
    obtain ⟨c, hc⟩ := List.length_eq_one_iff.mp (hb.resolve_right hblocks)
    rw [hc] at hstart ⊢
    have hdigit : isDigit c = true := (startsNumber_singleton c).symm.trans hstart
    obtain ⟨hquote, hhash, hname, -⟩ := numeral_nothing_else c (by simp [isNumeralByte, hdigit])
    refine ⟨⟨.other, [c]⟩, rfl, .other hquote hhash ?_ fun _ => by simpa using hblocks, rfl⟩
    intro hc
    exact absurd hc (by simp [hname])

/-- A unit keeps its end where the byte after it is the same. -/
theorem NumberUnit.followed {digits digits' unit : Text} (h : NumberUnit unit rest)
    (hdigits : ∀ c ∈ digits, isNumeralByte c = true) (hne : digits ++ unit ≠ [])
    (hdigits' : ∀ c ∈ digits', isNumeralByte c = true) (hne' : digits' ++ unit ≠ [])
    (hseam : Blocking (passed b (digits ++ unit)) → Blocking (passed b' (digits' ++ unit)) →
      head0 next = head0 rest) : NumberUnit unit next := by
  by_cases hpercent : unit = [ch '%']
  · subst hpercent
    exact .percent next
  have hhead : head0 next = head0 rest :=
    hseam ((blocking_of_number hdigits h hne b).resolve_left hpercent)
      ((blocking_of_number hdigits' h hne' b').resolve_left hpercent)
  cases h with
  | percent => exact absurd rfl hpercent
  | letters hne hunit hend => exact .letters hne hunit (hhead ▸ hend)
  | none hend => exact .none (hhead ▸ hend)

theorem NumberUnit.not_digit {unit : Text} (h : NumberUnit unit rest) :
    ∀ c ∈ unit, isDigit c = false := by
  intro c hc
  cases h with
  | percent =>
    rw [List.mem_singleton.mp hc]
    decide
  | letters hne hunit =>
    cases hdigit : isDigit c with
    | false => rfl
    | true =>
      have hnumeral : isNumeralByte c = true := by simp [isNumeralByte, hdigit]
      exact absurd (hunit c hc) (by simp [(numeral_nothing_else c hnumeral).2.2.2.2])
  | none => exact absurd hc List.not_mem_nil

/-- Digits that start with two given bytes of a number, whose unit has no digit. -/
theorem exists_digits_of_append {digits unit v : Text} {c d x : UInt8}
    (hunit : NumberUnit unit rest) (hc : isNumeralByte c = true) (hd : isNumeralByte d = true)
    (h : digits ++ unit = c :: d :: x :: v) (hdigit : ∃ y ∈ x :: v, isDigit y = true) :
    ∃ t, digits = c :: d :: x :: t := by
  have hend := hunit.head_unit
  match digits with
  | [] =>
    obtain rfl : unit = c :: d :: x :: v := h
    exact absurd (hc.symm.trans hend) (by decide)
  | [c'] =>
    obtain rfl : unit = d :: x :: v := (List.cons.inj h).2
    exact absurd (hd.symm.trans hend) (by decide)
  | [c', d'] =>
    obtain rfl : unit = x :: v := (List.cons.inj (List.cons.inj h).2).2
    obtain ⟨y, hy, hdigit⟩ := hdigit
    exact absurd (hdigit.symm.trans (hunit.not_digit y hy)) (by decide)
  | c' :: d' :: x' :: t =>
    simp only [List.cons_append, List.cons.injEq] at h
    obtain ⟨rfl, rfl, rfl, -⟩ := h
    exact ⟨t, rfl⟩

/-- A shortened number as it is written in place of a lexeme. -/
theorem exists_stands_shortened {digits unit : Text}
    (hdigits : ∀ c ∈ digits, isNumeralByte c = true) (hunit : NumberUnit unit rest)
    (hstart : startsNumber (digits ++ unit) = true)
    (hintact : Intact b' .number (s.number (digits ++ unit)) next)
    (hseam : Blocking (passed b (digits ++ unit)) →
      Blocking (passed b' (s.number (digits ++ unit))) → head0 next = head0 rest) :
    ∃ l', l'.text = s.number (digits ++ unit) ∧ Stands b' l' next ∧
      s.lexeme l' = s.number (digits ++ unit) := by
  have hnumber := s.number_number (digits ++ unit)
  have hne : digits ++ unit ≠ [] := by
    intro hnil
    rw [hnil] at hstart
    exact absurd hstart (by decide)
  obtain h | h | ⟨c, v, ht, h, d, hd, hdigit⟩ := s.number_cases (digits ++ unit) <;>
    rw [h] at hintact hseam hnumber ⊢
  · have hunit' : NumberUnit unit next := hunit.followed hdigits hne hdigits hne hseam
    exact exists_stands_number hdigits hunit' hstart ((hintact.number rfl).imp_right And.left)
      hnumber
  · -- A zero without its unit.
    by_cases hblocks : blocksNumber b' = true
    · exact ⟨⟨.other, [ch '0']⟩, rfl, .other rfl (by decide) nofun fun _ => hblocks, rfl⟩
    · have hzero : NumberUnit [] next := .none ((hintact.zero rfl rfl).resolve_left hblocks)
      have hdigits : ∀ c ∈ [ch '0'], isNumeralByte c = true := List.forall_mem_singleton.mpr rfl
      have hstart : startsNumber ([ch '0'] ++ []) = true := by decide
      exact exists_stands_number hdigits hzero hstart (.inl rfl) hnumber
  · -- A fraction without its leading zero.
    obtain ⟨t, rfl⟩ := exists_digits_of_append hunit (by decide) (by decide) ht ⟨d, hd, hdigit⟩
    obtain rfl : v = t ++ unit := by simpa using ht.symm
    have hdigits' : ∀ x ∈ ch '.' :: c :: t, isNumeralByte x = true := fun x hx =>
      hdigits x (List.mem_cons_of_mem _ hx)
    have hunit' : NumberUnit unit next := hunit.followed hdigits hne hdigits' (by simp) hseam
    obtain ⟨hblocks, hpoints⟩ := (hintact.number rfl).resolve_left (by simp)
    have hstart' : startsNumber (ch '.' :: c :: t ++ unit) = true := by
      have hc : isNumeralByte c = true := hdigits c (by simp)
      have hpoint : c ≠ ch '.' := by
        rintro rfl
        exact Bool.noConfusion (show true = false from hpoints)
      simp only [isNumeralByte, Bool.or_eq_true, decide_eq_true_eq, hpoint, or_false] at hc
      simp [startsNumber, head0, hc]
    exact exists_stands_number hdigits' hunit' hstart' (.inr hblocks) hnumber

/-- A shortened color stands where it is written. -/
theorem exists_image_hash {name : Text} (hname : ∀ c ∈ name, isName c = true)
    (hend : isName (head0 rest) = false) (hintact : Intact b' .hash (s.color (ch '#' :: name)) next)
    (hseam : Blocking (passed b (ch '#' :: name)) →
      Blocking (passed b' (s.color (ch '#' :: name))) → head0 next = head0 rest) :
    ∃ l', l'.text = s.color (ch '#' :: name) ∧ Stands b' l' next ∧
      s.lexeme l' = s.color (ch '#' :: name) := by
  obtain heq | ⟨hlength, htext, hends⟩ := s.color_changed (t := ch '#' :: name) hname
  · have hend' : isName (head0 next) = false := hintact.hash (congrArg head0 heq)
    rw [heq]
    exact exists_stands_hash hname hend' heq
  · have hblocking : Blocking (passed b (ch '#' :: name)) :=
      ((endsInName_of_forall hname (by simp at hlength; omega)).cons _ |>.passed b).2
    have hhead := hseam hblocking (hends.passed b').2
    exact exists_stands_color (l := ⟨.hash, ch '#' :: name⟩) htext hintact nofun (hhead ▸ hend)

/-- A word stands where it is written, or the color that is written for it. -/
theorem exists_image_word {name : Text} (hname : NameAt name rest) (hnot : head0 next ≠ ch '(')
    (hintact : Intact b' .word (s.lexeme ⟨.word, name⟩) next)
    (hseam : Blocking (passed b name) → Blocking (passed b' (s.lexeme ⟨.word, name⟩)) →
      head0 next = head0 rest) :
    ∃ l', l'.text = s.lexeme ⟨.word, name⟩ ∧ Stands b' l' next ∧
      s.lexeme l' = s.lexeme ⟨.word, name⟩ := by
  by_cases hchanged : s.lexeme ⟨.word, name⟩ = name
  · rw [hchanged] at hintact hseam ⊢
    have hhead := hseam (blocking_of_nameAt hname b) (blocking_of_nameAt hname b')
    have hname' : NameAt name next := ⟨hname.first, hname.all, hhead ▸ hname.ends⟩
    refine exists_stands_name hname' (hintact.name hname.first nofun) ?_ fun hp => absurd hp hnot
    intro _ hkeyword
    simpa only [Style.lexeme, if_pos hkeyword] using hchanged
  · -- it is written another way, so it is the name of a color
    have hcolor : s.lexeme ⟨.word, name⟩ = s.color name := by
      simp only [Style.lexeme] at hchanged ⊢
      split_ifs at hchanged ⊢
      · rfl
      · exact absurd rfl hchanged
    rw [hcolor] at hchanged hintact hseam ⊢
    obtain ⟨-, htext, hends⟩ := (s.color_changed fun c hc =>
      hname.all c (List.mem_of_mem_tail hc)).resolve_left hchanged
    have hhead := hseam (blocking_of_nameAt hname b) (hends.passed b').2
    exact exists_stands_color (l := ⟨.word, name⟩) htext hintact nofun (hhead ▸ hname.ends)

/-- An address stands where it is written. -/
theorem stands_url {name arg : Text} (hname : NameAt name (arg ++ rest))
    (hparen : head0 (arg ++ rest) = ch '(') (hurl : sameFold name (of "url") = true)
    (hend : closedLength (arg ++ rest) = arg.length)
    (hintact : Intact b' .url (name ++ arg) next) (hnil : rest = [] → next = []) :
    Stands b' ⟨.url, name ++ arg⟩ next := by
  -- the parenthesis is part of the address, since something is read from it on
  have harg : arg ≠ [] := by
    rintro rfl
    obtain ⟨c, r, hrest⟩ := List.exists_cons_of_ne_nil (l := rest) (by
      rintro rfl
      exact absurd hparen (by decide))
    rw [hrest, List.nil_append, closedLength_cons] at hend
    split_ifs at hend
  have hend' : closedLength (arg ++ next) = arg.length := by
    by_cases hrest : rest = []
    · rw [hnil hrest, ← hrest, hend]
    · exact closedLength_append hend hrest next
  rw [head0_append harg] at hparen
  have hname' : NameAt name (arg ++ next) := by
    refine ⟨hname.first, hname.all, ?_⟩
    rw [head0_append harg, hparen]
    decide
  have hcontinues : continuesName b' = false := by
    refine (hintact.name (hname.head arg) nofun).resolve_left fun hone => ?_
    have hpos := List.length_pos_of_ne_nil hname.ne_nil
    have hpos' := List.length_pos_of_ne_nil harg
    rw [List.length_append] at hone
    omega
  exact .url hcontinues hname' (by rw [head0_append harg, hparen]) hurl hend'

/-- A shortened lexeme that keeps apart from its neighbours stands where it is written, and
gets no shorter. -/
theorem Stands.exists_image (h : Stands b l rest) (hsharper : Sharper b b')
    (hintact : Intact b' l.kind (s.lexeme l) next) (hnil : rest = [] → next = [])
    (hcall : head0 next = ch '(' ↔ head0 rest = ch '(')
    (hseam : Blocking (passed b l.text) → Blocking (passed b' (s.lexeme l)) →
      head0 next = head0 rest) :
    ∃ l', l'.text = s.lexeme l ∧ Stands b' l' next ∧ s.lexeme l' = s.lexeme l := by
  cases h with
  | @quoted q body _ hq hend =>
    refine ⟨⟨.quoted, q :: body⟩, rfl, .quoted hq ?_, rfl⟩
    by_cases hrest : rest = []
    · rw [hnil hrest, ← hrest, hend]
    · exact quotedRest_append hrest next hend
  | hash hname hend => exact exists_image_hash hname hend hintact hseam
  | word hb hname hnot => exact exists_image_word hname (mt hcall.mp hnot) hintact hseam
  | @function name _ hb hname hparen hurl =>
    have hhead := hseam (blocking_of_nameAt hname b) (blocking_of_nameAt hname b')
    have hname' : NameAt name next := ⟨hname.first, hname.all, hhead ▸ hname.ends⟩
    exact exists_stands_name hname' (hintact.name hname.first nofun)
      (fun hnot => absurd (hcall.mpr hparen) hnot) fun _ => hurl
  | url hb hname hparen hurl hend =>
    exact ⟨_, rfl, stands_url hname hparen hurl hend hintact hnil, rfl⟩
  | number hb hstart hdigits hunit =>
    exact exists_stands_shortened hdigits hunit (startsNumber_of_append hdigits hunit hstart)
      hintact hseam
  | @other c _ hquote hhash hname hnumber =>
    refine ⟨⟨.other, [c]⟩, rfl,
      .other hquote hhash (fun hc => hsharper.continues (hname hc)) ?_, rfl⟩
    intro hstart
    refine hsharper.blocks (hnumber ?_)
    simp only [startsNumber, Bool.or_eq_true, Bool.and_eq_true, decide_eq_true_eq] at hstart ⊢
    refine hstart.imp_right fun hpoint => ⟨hpoint.1, ?_⟩
    -- after a point a digit follows here as it did there, since nothing may come between
    obtain rfl : c = ch '.' := hpoint.1
    have hblocking : ∀ d, Blocking (ch '.', d) := blocking_of_ne_minus (.inr rfl) (by decide)
    exact (congrArg isDigit (hseam (hblocking b.1) (hblocking b'.1))).symm.trans hpoint.2

theorem intact_of_name {kind : LexemeKind} {image : Text} (hfirst : startsName (head0 image) = true)
    (hb : continuesName b = false) (hkind : kind = .number → isNumeralByte (head0 image) = true) :
    Intact b kind image next := by
  obtain ⟨-, hhash, hdigit, hpoint⟩ := starts_nothing_else _ hfirst
  have hnumber : kind ≠ .number := fun h => by simpa [isNumeralByte, hdigit, hpoint] using hkind h
  exact ⟨fun h => absurd h hhash, fun _ _ => .inr hb, fun h => absurd h hnumber,
    fun h => absurd h hnumber⟩

theorem intact_of_number {digits unit : Text} {kind : LexemeKind} (hb : blocksNumber b = false)
    (hstart : startsNumber (digits ++ unit) = true) (hunit : NumberUnit unit next) :
    Intact b kind (digits ++ unit) next := by
  obtain ⟨-, hhash, hname, -⟩ := numeral_nothing_else _ (isNumeral_of_startsNumber hstart)
  refine ⟨fun h => absurd h hhash, fun h => by simp [hname] at h, fun _ => .inr ⟨hb, ?_⟩, ?_⟩
  · cases hpoints : starts (digits ++ unit) (of "..") with
    | false => rfl
    | true =>
      obtain ⟨v, hv⟩ := List.isPrefixOf_iff_prefix.mp hpoints
      rw [← hv] at hstart
      exact Bool.noConfusion (show false = true from hstart)
  · intro _ hzero
    -- The zero is the digits, so that there is no unit.
    cases hunit with
    | percent =>
      rw [List.append_eq_singleton_iff] at hzero
      obtain ⟨-, h⟩ | ⟨-, h⟩ := hzero <;> exact absurd h (by decide)
    | letters hne hletters =>
      obtain ⟨-, rfl⟩ | ⟨-, h⟩ := List.append_eq_singleton_iff.mp hzero
      · exact absurd (hletters _ List.mem_cons_self) (by decide)
      · exact absurd h hne
    | none hend => exact .inr hend

/-- A lexeme that is read where it is written keeps apart from its neighbours. -/
theorem Stands.intact (h : Stands b l next) {kind : LexemeKind}
    (hkind : kind = .number → isNumeralByte (head0 l.text) = true) : Intact b kind l.text next := by
  cases h with
  | @quoted q body _ hq =>
    have hname : ¬startsName q = true := fun h => by simp [starts_nothing_else q h] at hq
    have hnumber : kind ≠ .number := fun h => by simp [numeral_nothing_else q (hkind h)] at hq
    refine ⟨?_, fun h => absurd h hname, fun h => absurd h hnumber, fun h => absurd h hnumber⟩
    rintro rfl
    exact absurd hq (by decide)
  | hash hname hend =>
    have hnumber : kind ≠ .number := fun h =>
      absurd (show isNumeralByte (ch '#') = true from hkind h) (by decide)
    have hfirst : ¬startsName (ch '#') = true := by decide
    exact ⟨fun _ => hend, fun h => absurd h hfirst, fun h => absurd h hnumber,
      fun h => absurd h hnumber⟩
  | word hb hname | function hb hname => exact intact_of_name hname.first hb hkind
  | url hb hname => exact intact_of_name (hname.head _) hb hkind
  | number hb hstart hdigits hunit =>
    exact intact_of_number hb (startsNumber_of_append hdigits hunit hstart) hunit
  | @other c _ hquote hhash hname hnumber =>
    refine ⟨fun h => absurd h hhash, fun _ _ => .inl rfl, fun _ => .inl rfl, ?_⟩
    intro _ hzero
    obtain rfl : c = ch '0' := by simpa using hzero
    exact .inl (hnumber rfl)

/-- A shortened number starts like a number. -/
theorem isNumeral_head_number {t : Text} (h : isNumeralByte (head0 t) = true) :
    isNumeralByte (head0 (s.number t)) = true := by
  obtain heq | heq | ⟨c, v, -, heq, -⟩ := s.number_cases t <;> rw [heq]
  · exact h
  · rfl
  · rfl

theorem ColorText.head {t : Text} (h : ColorText t) :
    head0 t = ch '#' ∨ isLetter (head0 t) = true := by
  cases h with
  | hash => exact .inl rfl
  | keyword he => exact .inr (head0_keyword he)

theorem Stands.isNumeral (h : Stands b l rest) (hkind : l.kind = .number) :
    isNumeralByte (head0 (s.lexeme l)) = true := by
  cases h with
  | number hb hstart hdigits hunit =>
    exact isNumeral_head_number
      (isNumeral_of_startsNumber (startsNumber_of_append hdigits hunit hstart))
  | _ => exact absurd hkind nofun

theorem Stands.lexeme_ne_nil (h : Stands b l rest) : s.lexeme l ≠ [] := by
  have htext := h.text_ne_nil
  have hcolor : ∀ t, (∀ c ∈ t.tail, isName c = true) → t ≠ [] → s.color t ≠ [] := by
    intro t ht hne
    obtain heq | ⟨-, htext, hends⟩ := s.color_changed ht
    · rwa [heq]
    · exact List.ne_nil_of_length_pos (Nat.lt_of_lt_of_le (by decide)
        (htext.length_of_endsInName hends))
  cases h with
  | quoted | function | url | other => exact htext
  | hash hname => exact hcolor _ hname htext
  | word hb hname =>
    unfold Style.lexeme
    dsimp only
    split_ifs
    · exact hcolor _ (fun c hc => hname.all c (List.mem_of_mem_tail hc)) htext
    · exact htext
  | @number digits unit =>
    change s.number (digits ++ unit) ≠ []
    obtain heq | heq | ⟨c, v, -, heq, -⟩ := s.number_cases (digits ++ unit) <;> rw [heq]
    · exact htext
    · exact List.cons_ne_nil _ _
    · exact List.cons_ne_nil _ _

/-- A shortened lexeme starts with a parenthesis if and only if the lexeme does. -/
theorem Stands.head_paren (h : Stands b l rest) :
    head0 (s.lexeme l) = ch '(' ↔ head0 l.text = ch '(' := by
  -- Colors, names and numbers do not, shortened or not.
  have hstart : ∀ c, c = ch '#' ∨ startsName c = true ∨ isNumeralByte c = true → c ≠ ch '(' := by
    rintro c hc rfl
    revert hc
    decide
  have hcolor : ∀ {t}, ColorText t → head0 t ≠ ch '(' := fun ht =>
    hstart _ (ht.head.imp_right fun h => .inl (by simp [startsName, h]))
  have hnot : head0 (s.lexeme l) ≠ ch '(' → head0 l.text ≠ ch '(' →
      (head0 (s.lexeme l) = ch '(' ↔ head0 l.text = ch '(') := fun h h' => iff_of_false h h'
  cases h with
  | quoted | function | url | other => exact Iff.rfl
  | hash hname =>
    refine hnot ?_ (hstart _ (.inl rfl))
    obtain heq | ⟨-, htext, -⟩ := s.color_changed (t := ch '#' :: _) hname
    · exact hstart _ (.inl (congrArg head0 heq))
    · exact hcolor htext
  | word hb hname =>
    have hfirst := hstart _ (.inr (.inl hname.first))
    refine hnot ?_ hfirst
    unfold Style.lexeme
    dsimp only
    split_ifs
    · obtain heq | ⟨-, htext, -⟩ := s.color_changed fun c hc =>
        hname.all c (List.mem_of_mem_tail hc)
      · rwa [heq]
      · exact hcolor htext
    · exact hfirst
  | number hb hstart' hdigits hunit =>
    have hnumeral := isNumeral_of_startsNumber (startsNumber_of_append hdigits hunit hstart')
    exact hnot (hstart _ (.inr (.inr (isNumeral_head_number hnumeral))))
      (hstart _ (.inr (.inr hnumeral)))

/-- Where nothing else can start, a shortened lexeme that keeps apart starts as the lexeme. -/
theorem Stands.head_image (h : Stands b l rest) (hintact : Intact b' l.kind (s.lexeme l) next)
    (hb : Blocking b) (hb' : Blocking b') : head0 (s.lexeme l) = head0 l.text := by
  cases h with
  | quoted | function | url | other => rfl
  | @hash name _ hname =>
    obtain heq | ⟨-, htext, hends⟩ := s.color_changed (t := ch '#' :: name) hname
    · exact congrArg head0 heq
    · obtain hhash | hletter := htext.head
      · exact hhash
      · -- A keyword in place of a number sign would continue a name.
        have hfirst : startsName (head0 (s.color (ch '#' :: name))) = true := by
          unfold startsName
          rw [hletter, Bool.true_or]
        obtain hone | hcontinues := hintact.name hfirst nofun
        · have hthree := htext.length_of_endsInName hends
          have hone : (s.color (ch '#' :: name)).length = 1 := hone
          omega
        · exact absurd (hcontinues.symm.trans hb'.1) (by decide)
  | word hcontinues => exact absurd (hcontinues.symm.trans hb.1) (by decide)
  | number hblocks => exact absurd (hblocks.symm.trans hb.2) (by decide)

/-- What a shortened lexeme leaves for the next one. -/
theorem Stands.sharper (h : Stands b l rest) (hsharper : Sharper b b') :
    Sharper (passed b l.text) (passed b' (s.lexeme l)) := by
  have hsame : s.lexeme l = l.text → Sharper (passed b l.text) (passed b' (s.lexeme l)) := by
    intro heq
    rw [heq]
    exact hsharper.passed l.text
  have hcolor : ∀ t, (∀ c ∈ t.tail, isName c = true) →
      Sharper (passed b t) (passed b' (s.color t)) := by
    intro t ht
    obtain heq | ⟨-, -, hends⟩ := s.color_changed ht
    · rw [heq]
      exact hsharper.passed t
    · exact .of_blocking (hends.passed b').1 (hends.passed b').2
  cases h with
  | quoted | function | url | other => exact hsame rfl
  | hash hname => exact hcolor _ hname
  | @word name _ _ hname =>
    by_cases hkeyword : isColorName name = true
    · simp only [Style.lexeme, if_pos hkeyword]
      exact hcolor _ fun c hc => hname.all c (List.mem_of_mem_tail hc)
    · exact hsame (if_neg hkeyword)
  | @number digits unit =>
    change Sharper (passed b (digits ++ unit)) (passed b' (s.number (digits ++ unit)))
    obtain heq | heq | ⟨c, v, ht, heq, -⟩ := s.number_cases (digits ++ unit)
    · exact hsame heq
    · rw [heq]
      exact .of_blocking rfl (blocking_of_ne_minus (.inl rfl) (by decide) _)
    · rw [heq, ht]
      exact .refl _

end Lexeme

/-! ### Texts -/

variable (s : Style)

/-- Lexemes that are read where they are written are settled. -/
theorem settled_of_lexed {ls : List Lexeme} : ∀ {ls' : List Lexeme} {b b' : Before2}, Lexed b ls →
    Lexed b' ls' → ls'.map Lexeme.text = ls.map s.lexeme → s.Settled b' ls := by
  induction ls with
  | nil => exact fun _ _ _ => trivial
  | cons l ls ih =>
    intro ls' b b' hls hls' hmap
    obtain ⟨l', ls', rfl, hl, hmap⟩ := List.map_eq_cons_iff.mp hmap
    obtain _ | ⟨hhead, htail⟩ := hls
    obtain _ | ⟨hhead', htail'⟩ := hls'
    have hnext : ls'.flatMap Lexeme.text = ls.flatMap s.lexeme := by
      rw [List.flatMap_def, hmap, ← List.flatMap_def]
    rw [hnext] at hhead'
    rw [hl] at htail'
    refine ⟨?_, ih htail htail' hmap⟩
    rw [← hl]
    exact hhead'.intact fun hkind => hl ▸ hhead.isNumeral hkind

/-- How a text of settled lexemes starts, shortened and not. -/
theorem head_of_settled {ls : List Lexeme} {b b' : Before2} (hls : Lexed b ls)
    (hsettled : s.Settled b' ls) :
    (ls.flatMap Lexeme.text = [] → ls.flatMap s.lexeme = []) ∧
      (head0 (ls.flatMap s.lexeme) = ch '(' ↔ head0 (ls.flatMap Lexeme.text) = ch '(') ∧
      (Blocking b → Blocking b' →
        head0 (ls.flatMap s.lexeme) = head0 (ls.flatMap Lexeme.text)) := by
  cases hls with
  | nil => exact ⟨fun _ => rfl, Iff.rfl, fun _ _ => rfl⟩
  | cons hhead htail =>
    rw [List.flatMap_cons, List.flatMap_cons, head0_append hhead.lexeme_ne_nil,
      head0_append hhead.text_ne_nil]
    exact ⟨fun hnil => absurd (List.append_eq_nil_iff.mp hnil).1 hhead.text_ne_nil,
      hhead.head_paren, hhead.head_image hsettled.1⟩

/-- Settled lexemes are read where they are written, and get no shorter. -/
theorem exists_lexed_of_settled {ls : List Lexeme} : ∀ {b b' : Before2}, Lexed b ls →
    Sharper b b' → s.Settled b' ls → ∃ ls', Lexed b' ls' ∧
      ls'.map Lexeme.text = ls.map s.lexeme ∧ ls'.map s.lexeme = ls.map s.lexeme := by
  induction ls with
  | nil => exact fun _ _ _ => ⟨[], .nil _, rfl, rfl⟩
  | cons l ls ih =>
    intro b b' hls hsharper hsettled
    obtain _ | ⟨hhead, htail⟩ := hls
    obtain ⟨hintact, hrest⟩ := hsettled
    obtain ⟨ls', hls', htext, himage⟩ := ih htail (hhead.sharper hsharper) hrest
    obtain ⟨hnil, hcall, hseam⟩ := head_of_settled s htail hrest
    obtain ⟨l', hl, hhead', hl'⟩ := hhead.exists_image hsharper hintact hnil hcall hseam
    have hnext : ls.flatMap s.lexeme = ls'.flatMap Lexeme.text := by
      rw [List.flatMap_def, ← htext, ← List.flatMap_def]
    refine ⟨l' :: ls', .cons (hnext ▸ hhead') (hl ▸ hls'), ?_, ?_⟩
    · rw [List.map_cons, List.map_cons, hl, htext]
    · rw [List.map_cons, List.map_cons, hl', himage]

/-- The shortened lexemes of a value are read again in the shortened value if and only if none
of them runs into its neighbours; shortening the value again then changes nothing. -/
theorem Style.reread_iff (t : Text) :
    ((lexemes (s.shorten t)).map Lexeme.text = (lexemes t).map s.lexeme ↔
        s.Settled (0, 0) (lexemes t)) ∧
      (s.Settled (0, 0) (lexemes t) → s.shorten (s.shorten t) = s.shorten t) := by
  have hls : Lexed (0, 0) (lexemes t) := (lexed_lexemesFrom (0, 0) t).1
  have hread : ∀ {ls'}, Lexed (0, 0) ls' → ls'.map Lexeme.text = (lexemes t).map s.lexeme →
      lexemes (s.shorten t) = ls' := by
    intro ls' hls' htext
    have hshorten : s.shorten t = ls'.flatMap Lexeme.text := by
      rw [Style.shorten, List.flatMap_def, ← htext, ← List.flatMap_def]
    rw [hshorten]
    exact hls'.lexemesFrom_eq
  refine ⟨⟨settled_of_lexed s hls (lexed_lexemesFrom (0, 0) _).1, ?_⟩, ?_⟩
  · intro hsettled
    obtain ⟨ls', hls', htext, -⟩ := exists_lexed_of_settled s hls (.refl _) hsettled
    rw [hread hls' htext, htext]
  · intro hsettled
    obtain ⟨ls', hls', htext, himage⟩ := exists_lexed_of_settled s hls (.refl _) hsettled
    rw [Style.shorten, hread hls' htext, List.flatMap_def, himage, ← List.flatMap_def]
    rfl

/-- Colors and zeros between spaces, commas and parentheses do not run into anything. -/
theorem borderValue_reread :
    let value := of "0px 0.5em rgb(0, 0%, 0) #ff0000, white"
    Style.Settled {} (0, 0) (lexemes value) ∧
      (lexemes (Style.shorten {} value)).map Lexeme.text = (lexemes value).map (Style.lexeme {}) ∧
      Style.shorten {} (Style.shorten {} value) = Style.shorten {} value := by
  intro value
  have hsettled : Style.Settled {} (0, 0) (lexemes value) := by decide +kernel
  obtain ⟨hreread, hagain⟩ := Style.reread_iff {} value
  exact ⟨hsettled, hreread.mpr hsettled, hagain hsettled⟩

/-- A zero that loses its unit takes in the point after it. -/
theorem zeroDimension_unsettled :
    (lexemes (Style.shorten {} (of "0px.5em"))).map Lexeme.text ≠
        (lexemes (of "0px.5em")).map (Style.lexeme {}) ∧
      Style.shorten {} (Style.shorten {} (of "0px.5em")) ≠ Style.shorten {} (of "0px.5em") := by
  decide

end Stylesheet
