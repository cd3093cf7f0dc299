import Stylesheet.Output.Layout
import Stylesheet.Proofs.Source.Leads
import Stylesheet.Proofs.Text.Collapse

/-!
# Squeezed texts

Squeezing goes over a text byte by byte. Outside strings a byte of white space leaves at most
one space behind, and none beside punctuation; in front of a closing brace a semicolon goes.
What is open at a place is never changed by that, so a squeezed text is balanced if the text
is, and it is divided where the text is divided: its leads are the leads squeezed, its bodies
are the bodies squeezed.

The one thing that can go wrong is a lead that ends in a number sign once it is squeezed, for
then the brace after it opens an interpolation.

## Main definitions

* `squeezed` — a text squeezed, with its last semicolon
* `squeezeStep` — what a byte does to what is written

## Main results

* `Balanced.squeeze`, `Unbroken.squeeze`, `onLine_squeeze` — what squeezing keeps and gives
* `Sections.squeeze` — the sections of a squeezed text
-/

namespace Stylesheet

open Text

/-! ### Kinds of bytes -/

theorem inBlank_of_isSpace : ∀ c, isSpace c = true → inBlank c = true :=
  forall_byte (by decide +kernel)

theorem isQuote_of_isTight : ∀ c, isTight c = true → isQuote c = false ∧ isSpace c = false :=
  forall_byte (by decide +kernel)

/-! ### Byte by byte -/

/-- How many bytes of the text that follows belong to the open string. -/
def Brackets.left (b : Brackets) : Text → Nat
  | [] => 0
  | c :: r =>
    match b.quote with
    | none => 0
    | some q => if b.escaped then quotedRest q r + 1 else quotedRest q (c :: r)

/-- What a byte outside strings does to the space that is due and to what is written. -/
def squeezeByte (space : Bool) (out : Text) (c : UInt8) : Bool × Text :=
  if isQuote c then (false, c :: withSpace space out)
  else if isSpace c then (!isTight (head0 out), out)
  else if isTight c then
    (false, c :: if c = ch '\x7d' && head0 out = ch ';' then out.drop 1 else out)
  else (false, c :: withSpace space out)

/-- What a byte does to the space that is due and to what is written: in a string it is
copied. -/
def squeezeStep (b : Brackets) (space : Bool) (out : Text) (c : UInt8) : Bool × Text :=
  match b.quote with
  | some _ => (space, c :: out)
  | none => squeezeByte space out c

section Step

variable {b b' : Brackets} {c : UInt8} {out r u : Text} {space : Bool}

theorem quotedRest_cons {q : UInt8} (c : UInt8) (r : Text) : quotedRest q (c :: r) =
    (if c = ch '\\' then quotedRest q r.tail + (if r = [] then 0 else 1)
      else if c = q then 0 else quotedRest q r) + 1 := by
  cases r with
  | nil => simp [quotedRest]
  | cons d r =>
    rw [quotedRest]
    split_ifs <;> simp_all

theorem Brackets.left_of_none (hquote : b.quote = none) (r : Text) : b.left r = 0 := by
  cases r with
  | nil => rfl
  | cons c r => simp [left, hquote]

/-- In a string one byte is copied. -/
theorem Brackets.left_cons {q : UInt8} (hquote : b.quote = some q) (h : b.step c = some b')
    (r : Text) : b.left (c :: r) = b'.left r + 1 := by
  simp only [step, hquote] at h
  rw [left, hquote]
  dsimp only
  split_ifs at h with hescaped hescape hclose <;> obtain rfl := Option.some.inj h
  · rw [if_pos hescaped]
    cases r with
    | nil => rfl
    | cons d r => simp [left]
  · rw [if_neg hescaped, quotedRest_cons, if_pos hescape]
    cases r with
    | nil => rfl
    | cons d r => simp [left]
  · rw [if_neg hescaped, quotedRest_cons, if_neg hescape, if_pos hclose, left_of_none rfl]
  · rw [if_neg hescaped, quotedRest_cons, if_neg hescape, if_neg hclose]
    cases r with
    | nil => rfl
    | cons d r => simp [left, hquote, hescaped]

theorem squeezeFrom_zero_cons (space : Bool) (out : Text) (c : UInt8) (r : Text) :
    squeezeFrom 0 space out (c :: r) = squeezeFrom (if isQuote c then quotedRest c r else 0)
      (squeezeByte space out c).1 (squeezeByte space out c).2 r := by
  rw [squeezeFrom, squeezeByte]
  split_ifs <;> rfl

/-- Squeezing, one byte. -/
theorem squeezeFrom_cons (hb : b.Proper) (h : b.step c = some b') (space : Bool) (out r : Text) :
    squeezeFrom (b.left (c :: r)) space out (c :: r) =
      squeezeFrom (b'.left r) (squeezeStep b space out c).1 (squeezeStep b space out c).2 r := by
  cases hquote : b.quote with
  | some q =>
    rw [Brackets.left_cons hquote h, squeezeStep, hquote]
    rfl
  | none =>
    rw [Brackets.left_of_none hquote, squeezeStep, hquote, squeezeFrom_zero_cons]
    congr 1
    by_cases hq : isQuote c = true
    · have hopened : b.step c = some { b with quote := some c } := by
        simp [Brackets.step, hquote, hq]
      obtain rfl := Option.some.inj (hopened.symm.trans h)
      rw [if_pos hq]
      cases r with
      | nil => rfl
      | cons d r => simp [Brackets.left, hb.escaped hquote]
    · have hnone : b'.quote = none := by
        rcases Brackets.step_outside hquote h with ⟨hmark, -⟩ | ⟨hnone, -⟩
        · exact absurd hmark hq
        · exact hnone
      rw [if_neg hq, Brackets.left_of_none hnone]

/-- A text in front of another is squeezed as if it stood alone. -/
theorem exists_squeezeFrom_append (hb : b.Proper) (hrun : b.run u = some b')
    (hquote : b'.quote = none) (space : Bool) (out : Text) :
    ∃ space', ∀ r, squeezeFrom (b.left (u ++ r)) space out (u ++ r) =
      squeezeFrom 0 space' (squeezeFrom (b.left u) space out u) r := by
  induction u generalizing b space out with
  | nil =>
    obtain rfl := Option.some.inj hrun
    refine ⟨space, fun r => ?_⟩
    rw [List.nil_append, Brackets.left_of_none hquote, Brackets.left_of_none hquote]
    cases r <;> rfl
  | cons c u ih =>
    obtain ⟨b₁, hstep, hrest⟩ := Option.bind_eq_some_iff.mp (Brackets.run_cons b c u ▸ hrun)
    obtain ⟨space', hmore⟩ := ih (hb.step hstep) hrest (squeezeStep b space out c).1
      (squeezeStep b space out c).2
    refine ⟨space', fun r => ?_⟩
    rw [List.cons_append, squeezeFrom_cons hb hstep, squeezeFrom_cons hb hstep]
    exact hmore r

end Step

/-! ### What is written before -/

section Onto

variable {out acc r : Text} {c : UInt8} {space : Bool}

theorem withSpace_append (hacc : acc ≠ []) (space : Bool) (out : Text) :
    withSpace space (acc ++ out) = withSpace space acc ++ out := by
  cases space <;> simp [withSpace, hacc]

/-- Where something is written already, what is written before it does not matter. -/
theorem squeezeByte_append (hacc : acc ≠ []) (space : Bool) (out : Text) (c : UInt8) :
    squeezeByte space (acc ++ out) c =
      ((squeezeByte space acc c).1, (squeezeByte space acc c).2 ++ out) := by
  have hlength : 1 ≤ acc.length := List.length_pos_iff.mpr hacc
  unfold squeezeByte
  rw [withSpace_append hacc, head0_append hacc, List.drop_append_of_le_length hlength]
  split_ifs <;> rfl

/-- White space writes nothing. -/
theorem squeezeByte_space (hc : isSpace c = true) (space : Bool) (out : Text) :
    squeezeByte space out c = (!isTight (head0 out), out) := by
  have hq : isQuote c = false := Brackets.not_isQuote_of_inBlank (inBlank_of_isSpace c hc)
  simp [squeezeByte, hq, hc]

/-- Anything but white space is written. -/
theorem exists_squeezeByte (hc : isSpace c = false) (space : Bool) (out : Text) :
    ∃ v, (squeezeByte space out c).2 = c :: v := by
  unfold squeezeByte
  rw [if_neg (by simp [hc] : ¬ isSpace c = true)]
  split_ifs <;> exact ⟨_, rfl⟩

theorem squeezeByte_ne_nil (hacc : acc ≠ []) (space : Bool) (c : UInt8) :
    (squeezeByte space acc c).2 ≠ [] := by
  cases hs : isSpace c with
  | true => rwa [squeezeByte_space hs]
  | false =>
    obtain ⟨v, hv⟩ := exists_squeezeByte hs space acc
    rw [hv]
    exact List.cons_ne_nil c v

theorem squeezeFrom_append_out (hacc : acc ≠ []) (k : Nat) (space : Bool) (out r : Text) :
    squeezeFrom k space (acc ++ out) r = squeezeFrom k space acc r ++ out := by
  induction r generalizing k space acc with
  | nil => cases k <;> rfl
  | cons c r ih =>
    cases k with
    | succ k => exact ih (List.cons_ne_nil c acc) k space
    | zero =>
      rw [squeezeFrom_zero_cons, squeezeFrom_zero_cons, squeezeByte_append hacc]
      exact ih (squeezeByte_ne_nil hacc space c) _ _

/-- No space is written before the first byte. -/
theorem squeezeFrom_nil_out (space : Bool) (r : Text) :
    squeezeFrom 0 space [] r = squeezeFrom 0 false [] r := by
  cases r with
  | nil => rfl
  | cons c r =>
    have hspace : withSpace space [] = withSpace false [] := by cases space <;> rfl
    rw [squeezeFrom_zero_cons, squeezeFrom_zero_cons, squeezeByte, squeezeByte, hspace]

/-- Punctuation is written without a space; a closing brace may take a semicolon away. -/
theorem squeezeByte_tight (hc : isTight c = true) (hclose : c = ch '\x7d' → head0 out ≠ ch ';')
    (space : Bool) : squeezeByte space out c = (false, c :: out) := by
  obtain ⟨hq, hs⟩ := isQuote_of_isTight c hc
  have hkept : (decide (c = ch '\x7d') && decide (head0 out = ch ';')) = false := by
    simpa using hclose
  simp [squeezeByte, hq, hs, hc, hkept]

/-- A closing brace takes a semicolon before it away. -/
theorem squeezeByte_close (space : Bool) (out : Text) :
    squeezeByte space (ch ';' :: out) (ch '\x7d') = (false, ch '\x7d' :: out) := rfl

/-- Anything else is written after the space that is due. -/
theorem squeezeByte_other (hs : isSpace c = false) (hc : isTight c = false) (space : Bool)
    (out : Text) : squeezeByte space out c = (false, c :: withSpace space out) := by
  simp [squeezeByte, hs, hc]

/-- A text is squeezed onto what is written as if it stood alone, but for a space between the
two; there is none if punctuation has been written last. The text must not start by closing a
brace, which could take a semicolon away. -/
theorem exists_squeezeFrom_out {b : Brackets} (hrun : Brackets.run {} r = some b) (space : Bool)
    (out : Text) : ∃ blank, (blank = [] ∨ blank = [ch ' ']) ∧
      (space = false → isTight (head0 out) = true → blank = []) ∧
      squeezeFrom 0 space out r = squeezeFrom 0 false [] r ++ (blank ++ out) := by
  induction r generalizing space with
  | nil => exact ⟨[], .inl rfl, fun _ _ => rfl, rfl⟩
  | cons c r ih =>
    rw [squeezeFrom_zero_cons, squeezeFrom_zero_cons]
    -- a byte that is written stands for what is written after it
    have hwritten (k : Nat) (blank : Text) : squeezeFrom k false (c :: (blank ++ out)) r =
        squeezeFrom k false [c] r ++ (blank ++ out) :=
      squeezeFrom_append_out (List.cons_ne_nil c []) k false (blank ++ out) r
    cases hs : isSpace c with
    | true =>
      have hq := Brackets.not_isQuote_of_inBlank (inBlank_of_isSpace c hs)
      rw [Brackets.run_cons, Brackets.step_of_inBlank rfl (inBlank_of_isSpace c hs),
        Option.bind_some] at hrun
      obtain ⟨blank, hblank, hnone, heq⟩ := ih hrun (!isTight (head0 out))
      refine ⟨blank, hblank, fun _ htight => hnone (by rw [htight]; rfl) htight, ?_⟩
      rw [squeezeByte_space hs, squeezeByte_space hs, hq]
      dsimp only
      rw [if_neg Bool.false_ne_true, heq, squeezeFrom_nil_out (!isTight (head0 []))]
    | false =>
      cases hc : isTight c with
      | true =>
        -- a closing brace has no partner at the start of the text
        have hclose : c ≠ ch '\x7d' := by
          rintro rfl
          cases hrun
        refine ⟨[], .inl rfl, fun _ _ => rfl, ?_⟩
        rw [squeezeByte_tight hc (fun h => absurd h hclose),
          squeezeByte_tight hc (fun h => absurd h hclose)]
        exact hwritten _ []
      | false =>
        rw [squeezeByte_other hs hc, squeezeByte_other hs hc]
        by_cases hdue : (space && !out.isEmpty) = true
        · refine ⟨[ch ' '], .inr rfl, fun hspace => by simp [hspace] at hdue, ?_⟩
          rw [withSpace, if_pos hdue]
          exact hwritten _ [ch ' ']
        · refine ⟨[], .inl rfl, fun _ _ => rfl, ?_⟩
          rw [withSpace, if_neg hdue]
          exact hwritten _ []

end Onto

/-! ### Squeezed texts -/

/-- A text without the white space it can do without, and without the semicolons before closing
braces. -/
def squeezed (t : Text) : Text := (squeezeFrom 0 false [] t).reverse

/-- Squeezing takes a last semicolon away as well. -/
theorem squeezed_cases (t : Text) :
    (squeezed t = squeeze t ∧ (squeezed t).getLast? ≠ some (ch ';')) ∨
      squeezed t = squeeze t ++ [ch ';'] := by
  have hsqueeze : squeeze t = if (squeezed t).ends [ch ';'] then
      (squeezed t).take ((squeezed t).length - 1) else squeezed t := rfl
  rw [hsqueeze]
  split_ifs with hends
  · right
    obtain ⟨u, hu⟩ := List.isSuffixOf_iff_suffix.mp hends
    rw [← hu]
    simp
  · refine .inl ⟨rfl, fun hlast => hends ?_⟩
    obtain ⟨u, hu⟩ := List.getLast?_eq_some_iff.mp hlast
    exact List.isSuffixOf_iff_suffix.mpr ⟨u, hu.symm⟩

section Parts

variable {u body t : Text}

/-- What has been written of a text after what was written before it, at a place where
nothing is open. -/
theorem exists_squeezeFrom_balanced (hu : Balanced u) (space : Bool) (out : Text) :
    ∃ space', ∀ r, squeezeFrom 0 space out (u ++ r) =
      squeezeFrom 0 space' (squeezeFrom 0 space out u) r := by
  obtain ⟨space', hmore⟩ := exists_squeezeFrom_append Brackets.proper_empty (b := {})
    (balanced_iff_run.mp hu) rfl space out
  refine ⟨space', fun r => ?_⟩
  have hcopied := hmore r
  rwa [Brackets.left_of_none rfl, Brackets.left_of_none rfl] at hcopied

/-- After punctuation a text is squeezed as if it stood alone. -/
theorem squeezeFrom_tight (ht : Balanced t) {c : UInt8} (hc : isTight c = true) (out : Text) :
    squeezeFrom 0 false (c :: out) t = (squeezed t).reverse ++ c :: out := by
  obtain ⟨blank, -, hnone, heq⟩ :=
    exists_squeezeFrom_out (balanced_iff_run.mp ht) false (c :: out)
  rw [heq, hnone rfl hc, squeezed, List.reverse_reverse]
  rfl

/-- Punctuation that takes no semicolon away is written after what stands before it. -/
theorem squeezeFrom_punctuation {c : UInt8} (hquote : isQuote c = false) (hc : isTight c = true)
    (hclose : c ≠ ch '\x7d') (space : Bool) (out r : Text) :
    squeezeFrom 0 space out (c :: r) = squeezeFrom 0 false (c :: out) r := by
  rw [squeezeFrom_zero_cons, squeezeByte_tight hc (fun h => absurd h hclose), hquote]
  rfl

/-- A brace is closed after its body, without the last semicolon of it. -/
theorem squeezeFrom_close (space : Bool) (body out r : Text) :
    squeezeFrom 0 space ((squeezed body).reverse ++ ch '\x7b' :: out) (ch '\x7d' :: r) =
      squeezeFrom 0 false (ch '\x7d' :: ((squeeze body).reverse ++ ch '\x7b' :: out)) r := by
  rw [squeezeFrom_zero_cons]
  rcases squeezed_cases body with ⟨heq, hlast⟩ | heq
  · have hkept : head0 ((squeezed body).reverse ++ ch '\x7b' :: out) ≠ ch ';' := by
      cases hrev : (squeezed body).reverse with
      | nil => exact (by decide : ch '\x7b' ≠ ch ';')
      | cons d v =>
        rintro rfl
        exact hlast (by rw [← List.head?_reverse, hrev]; rfl)
    rw [squeezeByte_tight (by decide) (fun _ => hkept), ← heq]
    rfl
  · rw [heq, List.reverse_concat, List.cons_append, squeezeByte_close]
    rfl

theorem squeezed_semicolon (hu : Balanced u) (ht : Balanced t) :
    squeezed (u ++ ch ';' :: t) = squeezed u ++ ch ';' :: squeezed t := by
  obtain ⟨space, hmore⟩ := exists_squeezeFrom_balanced hu false []
  rw [squeezed, hmore, squeezeFrom_punctuation (by decide) (by decide) (by decide),
    squeezeFrom_tight ht (by decide)]
  simp [squeezed]

/-- A block is squeezed part by part: its lead, its body without a last semicolon, and what is
after it. -/
theorem squeezed_block (hu : Balanced u) (hbody : Balanced body) (ht : Balanced t) :
    squeezed (u ++ ch '\x7b' :: (body ++ ch '\x7d' :: t)) =
      squeezed u ++ ch '\x7b' :: (squeeze body ++ ch '\x7d' :: squeezed t) := by
  obtain ⟨space, hlead⟩ := exists_squeezeFrom_balanced hu false []
  obtain ⟨space', hinside⟩ := exists_squeezeFrom_balanced hbody false
    (ch '\x7b' :: (squeezed u).reverse)
  have hstart : squeezeFrom 0 false [] u = (squeezed u).reverse := (List.reverse_reverse _).symm
  -- the text is read up to the brace, up to the brace that closes it, and to its end
  rw [squeezed, hlead, squeezeFrom_punctuation (by decide) (by decide) (by decide), hstart,
    hinside, squeezeFrom_tight hbody (by decide), squeezeFrom_close,
    squeezeFrom_tight ht (by decide)]
  simp

end Parts

/-! ### What squeezing keeps -/

/-- What is open after a text, with what `p` says of the bytes at which nothing is. -/
structure Written (p : Bool → UInt8 → Bool) (t : Text) (b : Brackets) : Prop where
  run : Brackets.run {} t = some b
  throughout : Throughout p t

section Written

variable {p q : Bool → UInt8 → Bool} {t before out u : Text} {b b' : Brackets} {c : UInt8}
  {space : Bool}

theorem Written.proper (h : Written p t b) : b.Proper := Brackets.proper_empty.run h.run

theorem Written.concat (h : Written p t b) (hstep : b.step c = some b')
    (hc : b = {} → p (afterHash t t.length) c = true) : Written p (t ++ [c]) b' := by
  refine ⟨?_, throughout_concat.mpr ⟨h.throughout, fun hbalanced => hc ?_⟩⟩
  · rw [Brackets.run_append, h.run, Option.bind_some, Brackets.run_cons, hstep]
    rfl
  · exact Option.some.inj (h.run.symm.trans (balanced_iff_run.mp hbalanced))

/-- A semicolon at the end can be left out. -/
theorem Written.of_semicolon (h : Written p (t ++ [ch ';']) b) (hquote : b.quote = none) :
    Written p t b := by
  have hrun := h.run
  rw [Brackets.run_append] at hrun
  obtain ⟨b₁, hfirst, hlast⟩ := Option.bind_eq_some_iff.mp hrun
  obtain ⟨b₂, hstep, hb₂⟩ := Option.bind_eq_some_iff.mp hlast
  obtain rfl := Option.some.inj hb₂
  obtain rfl := Brackets.eq_of_step_semicolon (Brackets.proper_empty.run hfirst) hstep hquote
  exact ⟨hfirst, h.throughout.left⟩

/-- White space can stand anywhere but in strings. -/
theorem Written.spaced (hp : ∀ hash, p hash (ch ' ') = true) (h : Written p out.reverse b)
    (hquote : b.quote = none) (space : Bool) : Written p (withSpace space out).reverse b := by
  unfold withSpace
  split_ifs
  · rw [List.reverse_cons]
    exact h.concat (Brackets.step_of_inBlank hquote (by decide)) fun _ => hp _
  · exact h

/-- What is said of a byte that may come after a number sign, where one stands before it if one
stood before it in the text. -/
theorem goes_of_hash (hmono : ∀ c, p false c = true → p true c = true) {hash : Bool}
    (hc : p hash c = true) (hhash : hash = true → t.getLast? = some (ch '#')) :
    p (afterHash t t.length) c = true := by
  cases hat : afterHash t t.length with
  | true =>
    cases hash with
    | true => exact hc
    | false => exact hmono c hc
  | false =>
    cases hash with
    | false => exact hc
    | true =>
      rw [← Bool.not_eq_true, afterHash_length] at hat
      exact absurd (hhash rfl) hat

/-- One byte outside of strings. -/
theorem Written.squeezeByte (hp : ∀ hash, p hash (ch ' ') = true)
    (hmono : ∀ c, p false c = true → p true c = true) (h : Written p out.reverse b)
    (hquote : b.quote = none) (hstep : b.step c = some b') (hash : Bool)
    (hhash : b = {} → hash = true → space = false ∧ out.head? = some (ch '#'))
    (hc : b = {} → isSpace c = false → p hash c = true) :
    Written p (squeezeByte space out c).2.reverse b' := by
  cases hs : isSpace c with
  | true =>
    rw [squeezeByte_space hs]
    rw [Brackets.step_of_inBlank hquote (inBlank_of_isSpace c hs)] at hstep
    obtain rfl := Option.some.inj hstep
    exact h
  | false =>
    cases htight : isTight c with
    | false =>
      rw [squeezeByte_other hs htight]
      dsimp only
      rw [List.reverse_cons]
      refine (h.spaced hp hquote space).concat hstep fun hb =>
        goes_of_hash hmono (hc hb hs) fun hhash' => ?_
      obtain ⟨rfl, hlast⟩ := hhash hb hhash'
      rw [List.getLast?_reverse]
      exact hlast
    | true =>
      by_cases hclose : c = ch '\x7d' ∧ head0 out = ch ';'
      · -- the semicolon before a closing brace is left out, where something is open
        obtain ⟨rfl, hlast⟩ := hclose
        obtain ⟨out, rfl⟩ : ∃ v, out = ch ';' :: v := by
          cases out with
          | nil => exact absurd hlast (by decide)
          | cons d v => exact ⟨v, congrArg (· :: v) hlast⟩
        rw [squeezeByte_close]
        dsimp only
        rw [List.reverse_cons] at h ⊢
        refine (h.of_semicolon hquote).concat hstep fun hb => ?_
        rw [hb] at hstep
        cases hstep
      · rw [squeezeByte_tight htight fun hbrace hlast => hclose ⟨hbrace, hlast⟩]
        dsimp only
        rw [List.reverse_cons]
        refine h.concat hstep fun hb => goes_of_hash hmono (hc hb hs) fun hhash' => ?_
        rw [List.getLast?_reverse]
        exact (hhash hb hhash').2

/-- One byte: what is open after it is what is open after what has been written. `hash` says
that a number sign stands before the byte, and then it is the last that has been written. -/
theorem Written.step (hp : ∀ hash, p hash (ch ' ') = true)
    (hmono : ∀ c, p false c = true → p true c = true) (h : Written p out.reverse b)
    (hstep : b.step c = some b') (hash : Bool)
    (hhash : b = {} → hash = true → space = false ∧ out.head? = some (ch '#'))
    (hc : b = {} → isSpace c = false → p hash c = true) :
    Written p (squeezeStep b space out c).2.reverse b' := by
  cases hquote : b.quote with
  | some q =>
    rw [squeezeStep, hquote]
    dsimp only
    rw [List.reverse_cons]
    refine h.concat hstep fun hb => ?_
    rw [hb] at hquote
    cases hquote
  | none =>
    rw [squeezeStep, hquote]
    exact h.squeezeByte hp hmono hquote hstep hash hhash hc

/-- A number sign at which nothing is open is the last byte written. -/
theorem squeezeStep_hash (hb : b.Proper) (hstep : b.step (ch '#') = some b') (hb' : b' = {})
    (space : Bool) (out : Text) : (squeezeStep b space out (ch '#')).1 = false ∧
      (squeezeStep b space out (ch '#')).2.head? = some (ch '#') := by
  cases hquote : b.quote with
  | none =>
    rw [squeezeStep, hquote]
    exact ⟨rfl, rfl⟩
  | some q =>
    -- a number sign does not end a string
    have hne : ch '#' ≠ q := by
      rintro rfl
      exact absurd (hb.isQuote _ hquote) (by decide)
    have hopen : b'.quote = some q := by
      simp only [Brackets.step, hquote, hne, if_false] at hstep
      split_ifs at hstep <;> obtain rfl := Option.some.inj hstep
      · rfl
      · rfl
      · exact hquote
    rw [hb'] at hopen
    cases hopen

/-- What is written of a text has open what the text has open. -/
theorem Written.squeezeFrom (hp : ∀ hash, p hash (ch ' ') = true)
    (hmono : ∀ c, p false c = true → p true c = true) (h : Written p out.reverse b)
    (hbefore : Brackets.run {} before = some b) (hrun : b.run u = some b')
    (hall : Throughout (fun hash c => isSpace c || p hash c) (before ++ u))
    (hhash : b = {} → before.getLast? = some (ch '#') →
      space = false ∧ out.head? = some (ch '#')) :
    Written p (squeezeFrom (b.left u) space out u).reverse b' := by
  -- byte by byte: what has been read and what has been written leave the same open
  induction u generalizing before b out space with
  | nil =>
    obtain rfl := Option.some.inj hrun
    exact h
  | cons c u ih =>
    obtain ⟨b₁, hstep, hrest⟩ := Option.bind_eq_some_iff.mp (Brackets.run_cons b c u ▸ hrun)
    have hbefore₁ : Brackets.run {} (before ++ [c]) = some b₁ := by
      rw [Brackets.run_append, hbefore, Option.bind_some, Brackets.run_cons, hstep]
      rfl
    rw [List.append_cons] at hall
    have hbyte := (throughout_concat.mp hall.left).2
    rw [squeezeFrom_cons h.proper hstep]
    refine ih (h.step hp hmono hstep (afterHash before before.length) ?_ ?_) hbefore₁ hrest
      hall ?_
    · exact fun hb hat => hhash hb (afterHash_length.mp hat)
    · intro hb hs
      have hbalanced : Balanced before := balanced_iff_run.mpr (hb ▸ hbefore)
      simpa [hs] using hbyte hbalanced
    · intro hb₁ hlast
      rw [List.getLast?_concat, Option.some.injEq] at hlast
      subst hlast
      exact squeezeStep_hash h.proper hstep hb₁ space out

/-- A balanced text is squeezed to a balanced text. -/
theorem written_squeezed (hp : ∀ hash, p hash (ch ' ') = true)
    (hmono : ∀ c, p false c = true → p true c = true) (hu : Balanced u)
    (hall : Throughout (fun hash c => isSpace c || p hash c) u) : Written p (squeezed u) {} := by
  have hstart : Written p ([] : Text).reverse {} := ⟨rfl, throughout_nil⟩
  have hall' : Throughout (fun hash c => isSpace c || p hash c) ([] ++ u) := hall
  have hend : Written p (squeezeFrom (Brackets.left {} u) false [] u).reverse {} :=
    hstart.squeezeFrom hp hmono rfl (balanced_iff_run.mp hu) hall' fun _ hlast => by cases hlast
  rwa [Brackets.left_of_none rfl] at hend

end Written

theorem Balanced.squeezed {t : Text} (h : Balanced t) : Balanced (squeezed t) := by
  have hwritten : Written (fun _ _ => true) (Stylesheet.squeezed t) {} :=
    written_squeezed (fun _ => rfl) (fun _ _ => rfl) h fun _ _ _ => by simp
  exact balanced_iff_run.mpr hwritten.run

/-- A balanced text is squeezed to a balanced text. -/
theorem Balanced.squeeze {t : Text} (h : Balanced t) : Balanced (squeeze t) := by
  have hsqueezed := h.squeezed
  rcases squeezed_cases t with ⟨heq, -⟩ | heq
  · rwa [← heq]
  · rw [heq] at hsqueezed
    exact balanced_of_semicolon hsqueezed

section Unbroken

variable {u : Text}

/-- A lead is squeezed to a lead on one line. -/
theorem Unbroken.squeezed (h : Unbroken u) : Unbroken (squeezed u) ∧ OnLine (squeezed u) := by
  obtain ⟨hrun, hall⟩ := written_squeezed (p := fun hash c => isUnbroken hash c && c ≠ ch '\n')
    (fun hash => by
      have hne : ch ' ' ≠ ch '\n' := by decide
      simp [isUnbroken_of_inBlank (show inBlank (ch ' ') = true by decide), hne])
    (fun c hc => by
      rw [Bool.and_eq_true] at hc ⊢
      exact ⟨isUnbroken_mono c hc.1, hc.2⟩)
    h.balanced
    (h.throughout.imp fun hash c hc => by
      by_cases hline : c = ch '\n'
      · rw [hline]
        rfl
      · simp [hc, hline])
  refine ⟨⟨balanced_iff_run.mpr hrun, hall.imp fun hash c hc => ?_⟩, hall.imp fun hash c hc => ?_⟩
  · exact (Bool.and_eq_true_iff.mp hc).1
  · exact (Bool.and_eq_true_iff.mp hc).2

/-- A lead does not end in a semicolon. -/
theorem Unbroken.squeeze_eq (h : Unbroken u) : Stylesheet.squeeze u = Stylesheet.squeezed u := by
  rcases squeezed_cases u with ⟨heq, -⟩ | heq
  · exact heq.symm
  · have hsqueezed := h.squeezed.1
    rw [heq] at hsqueezed
    have hgoes := (throughout_concat.mp hsqueezed.throughout).2
      (balanced_of_semicolon hsqueezed.balanced)
    simp [isUnbroken] at hgoes

theorem Unbroken.squeeze (h : Unbroken u) : Unbroken (squeeze u) := h.squeeze_eq ▸ h.squeezed.1

theorem Unbroken.onLine_squeeze (h : Unbroken u) : OnLine (Stylesheet.squeeze u) :=
  h.squeeze_eq ▸ h.squeezed.2

end Unbroken

/-! ### Sections of squeezed texts -/

/-- A squeezed text is divided where the text is, unless a lead ends in a number sign. -/
theorem Sections.squeezed {t : Text} {ss : List (Text × Text)} (h : Sections t ss)
    (hhash : ∀ s ∈ ss, (squeeze s.1).getLast? ≠ some (ch '#')) :
    Sections (squeezed t) (ss.map fun s => (squeeze s.1, squeeze s.2)) := by
  induction h with
  | rest hu => exact .rest hu.squeezed.1
  | ended hu ht ih =>
    rw [squeezed_semicolon hu.balanced ht.balanced]
    exact .ended hu.squeezed.1 (ih hhash)
  | block hu hhash' hbody ht ih =>
    obtain ⟨hlead, hmore⟩ := List.forall_mem_cons.mp hhash
    rw [squeezed_block hu.balanced hbody ht.balanced, ← hu.squeeze_eq]
    exact .block hu.squeeze hlead hbody.squeeze (ih hmore)

theorem Sections.squeeze {t : Text} {ss : List (Text × Text)} (h : Sections t ss)
    (hhash : ∀ s ∈ ss, (squeeze s.1).getLast? ≠ some (ch '#')) :
    Sections (squeeze t) (ss.map fun s => (squeeze s.1, squeeze s.2)) := by
  have hsqueezed := h.squeezed hhash
  rcases squeezed_cases t with ⟨heq, -⟩ | heq
  · rwa [← heq]
  · rw [heq] at hsqueezed
    exact hsqueezed.of_semicolon

end Stylesheet
