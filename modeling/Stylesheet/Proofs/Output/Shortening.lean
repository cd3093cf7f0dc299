import Mathlib.Data.List.Induction
import Mathlib.Data.List.Nodup
import Stylesheet.Proofs.Output.Lexeme
import Stylesheet.Proofs.Text.Words

/-!
# Shortened colors and numbers

What colors and numbers look like once they are shortened. A shortened color is the color
itself, its short hexadecimal form or an entry of the table of keywords; shortening it again
changes nothing, because spellings of one color are equally long at their shortest. Likewise
a shortened number does not get any shorter.

## Main definitions

* `briefestOf` — the shortest spelling of a keyword color
* `Precedes` — the order in which spellings are preferred
* `EndsInName` — the last two bytes of a text are bytes of a name

## Main results

* `Style.color_color`, `Style.number_number` — shortening again changes nothing
* `Style.color_hash`, `Style.color_word` — what shortened colors are
* `Style.number_cases` — what shortened numbers are
* `Style.color_shorter`, `Style.number_shorter` — what is shortened gets shorter
* `briefest?_eq_some_iff` — the briefest of some spellings
-/

namespace Stylesheet

open Text

/-! ### Bytes of names -/

theorem isName_of_isHex : ∀ c, isHex c = true → isName c = true :=
  forall_byte (by decide +kernel)

theorem isName_of_isLetter : ∀ c, isLetter c = true → isName c = true :=
  forall_byte (by decide +kernel)

theorem isName_lowerByte : ∀ c, isName c = true → isName (lowerByte c) = true :=
  forall_byte (by decide +kernel)

theorem lowerByte_small : ∀ c, (ch 'a' ≤ c && c ≤ ch 'z') = true → c < 0x80 ∧ lowerByte c = c :=
  forall_byte (by decide +kernel)

theorem lowerByte_digit : ∀ c, (isDigit c || (ch 'a' ≤ c && c ≤ ch 'f')) = true →
    c < 0x80 ∧ lowerByte c = c :=
  forall_byte (by decide +kernel)

/-! ### The table of keywords -/

/-- The shortest spelling of a keyword color; its calls never are. -/
def briefestOf (e : Text × Text) : Text :=
  if e.1.length < (shortHex e.2).length then e.1 else shortHex e.2

theorem briefestOf_keyword {e : Text × Text} (h : e.1.length < (shortHex e.2).length) :
    briefestOf e = e.1 := if_pos h

theorem briefestOf_hex {e : Text × Text} (h : ¬ e.1.length < (shortHex e.2).length) :
    briefestOf e = shortHex e.2 := if_neg h

/-- Keywords are written in small letters, and so are the digits of their colors. -/
theorem colorNames_written : ∀ e ∈ colorNames,
    (3 ≤ e.1.length ∧ sameFold e.1 (of "url") = false ∧
      e.1.all (fun c => ch 'a' ≤ c && c ≤ ch 'z') = true) ∧
    e.2.length = 7 ∧ head0 e.2 = ch '#' ∧
      e.2.tail.all (fun c => isDigit c || (ch 'a' ≤ c && c ≤ ch 'f')) = true := by
  decide +kernel

theorem colorNames_keyword {e : Text × Text} (he : e ∈ colorNames) :
    3 ≤ e.1.length ∧ (∀ c ∈ e.1, isLetter c = true) ∧ sameFold e.1 (of "url") = false := by
  obtain ⟨⟨hlength, hurl, hsmall⟩, -⟩ := colorNames_written e he
  refine ⟨hlength, fun c hc => ?_, hurl⟩
  rw [isLetter, List.all_eq_true.mp hsmall c hc, Bool.true_or]

theorem colorNames_hex {e : Text × Text} (he : e ∈ colorNames) :
    e.2.length = 7 ∧ head0 e.2 = ch '#' ∧ ∀ c ∈ e.2.tail, isHex c = true := by
  obtain ⟨-, hlength, hhash, hdigits⟩ := colorNames_written e he
  refine ⟨hlength, hhash, fun c hc => ?_⟩
  rw [isHex, List.all_eq_true.mp hdigits c hc, Bool.true_or]

/-- Keywords are in alphabetical order, so none stands for two colors. -/
theorem colorNames_inj {e f : Text × Text} (he : e ∈ colorNames) (hf : f ∈ colorNames)
    (h : f.1 = e.1) : f = e := by
  have hchain : (colorNames.map Prod.fst).IsChain (List.Lex (· < ·)) := by decide +kernel
  have : IsTrans Text (List.Lex (· < ·)) := ⟨fun _ _ _ => List.lex_trans UInt8.lt_trans⟩
  have hnodup : (colorNames.map Prod.fst).Nodup :=
    (List.isChain_iff_pairwise.mp hchain).imp fun {a b} hlt heq => by
      subst heq
      exact List.lex_irrefl UInt8.lt_irrefl a hlt
  exact List.inj_on_of_nodup_map hnodup hf he h

/-- The digits of a text as one number. -/
def numeral (t : Text) : Nat := t.foldl (fun n c => n * 256 + c.toNat) 0

/-- A color whose keyword is its shortest spelling shares its short hexadecimal form with no
color where it is not. -/
theorem shortHex_ne_of_keyword {e f : Text × Text} (he : e ∈ colorNames) (hf : f ∈ colorNames)
    (hkeyword : e.1.length < (shortHex e.2).length)
    (hhex : ¬ f.1.length < (shortHex f.2).length) : shortHex f.2 ≠ shortHex e.2 := by
  let brief (e : Text × Text) : Bool := Nat.blt e.1.length (shortHex e.2).length
  -- numbers are compared much faster than texts
  have htable : (colorNames.filter brief).all (fun e => (colorNames.filter (!brief ·)).all
      fun f => !Nat.beq (numeral (shortHex f.2)) (numeral (shortHex e.2))) = true := by
    decide
  have hbrief : brief e = true := Nat.blt_eq.mpr hkeyword
  have hlong : (!brief f) = true := by
    rw [Bool.not_eq_true', ← Bool.not_eq_true]
    exact fun h => hhex (Nat.blt_eq.mp h)
  have hdiffer := List.all_eq_true.mp (List.all_eq_true.mp htable e (List.mem_filter.mpr
    ⟨he, hbrief⟩)) f (List.mem_filter.mpr ⟨hf, hlong⟩)
  intro heq
  rw [heq, Nat.beq_refl] at hdiffer
  exact Bool.noConfusion hdiffer

/-! ### Short hexadecimal colors -/

/-- The short form of a hexadecimal color, if it has one. -/
theorem shortHex_cases (t : Text) : shortHex t = t ∨ ∃ r r' g g' b b',
    t = [ch '#', r, r', g, g', b, b'] ∧
      shortHex t = [ch '#', lowerByte r, lowerByte g, lowerByte b] := by
  fun_cases shortHex t with
  | case1 h r r' g g' b b' hpairs =>
    simp only [Bool.and_eq_true, decide_eq_true_eq] at hpairs
    obtain ⟨⟨⟨rfl, -⟩, -⟩, -⟩ := hpairs
    exact .inr ⟨r, r', g, g', b, b', rfl, rfl⟩
  | case2 => exact .inl rfl
  | case3 => exact .inl rfl

theorem shortHex_shortHex (t : Text) : shortHex (shortHex t) = shortHex t := by
  obtain h | ⟨r, r', g, g', b, b', -, h⟩ := shortHex_cases t
  · rw [h, h]
  · rw [h]
    rfl

theorem length_shortHex_le (t : Text) : (shortHex t).length ≤ t.length := by
  obtain h | ⟨r, r', g, g', b, b', rfl, h⟩ := shortHex_cases t
  · exact Nat.le_of_eq (congrArg List.length h)
  · rw [h]
    simp

theorem lower_eq_self {t : Text} (h : ∀ c ∈ t, c < 0x80 ∧ lowerByte c = c) : lower t = t := by
  have hall : t.all (· < 0x80) = true :=
    List.all_eq_true.mpr fun c hc => decide_eq_true (h c hc).1
  rw [lower, mapText, if_pos hall]
  exact (List.map_congr_left fun c hc => (h c hc).2).trans (List.map_id t)

theorem lower_shortHex {t : Text} (h : ∀ c ∈ t, c < 0x80 ∧ lowerByte c = c) :
    lower (shortHex t) = shortHex t := by
  refine lower_eq_self fun c hc => ?_
  obtain heq | ⟨r, r', g, g', b, b', rfl, heq⟩ := shortHex_cases t
  · exact h c (heq ▸ hc)
  · refine h c ?_
    rw [heq, (h r (by simp)).2, (h g (by simp)).2, (h b (by simp)).2] at hc
    simp only [List.mem_cons, List.not_mem_nil, or_false] at hc ⊢
    rcases hc with rfl | rfl | rfl | rfl <;> simp

theorem lower_briefestOf {e : Text × Text} (he : e ∈ colorNames) :
    lower (briefestOf e) = briefestOf e := by
  obtain ⟨⟨-, -, hsmall⟩, -, hhash, hdigits⟩ := colorNames_written e he
  by_cases hkeyword : e.1.length < (shortHex e.2).length
  · rw [briefestOf_keyword hkeyword]
    exact lower_eq_self fun c hc => lowerByte_small c (List.all_eq_true.mp hsmall c hc)
  · rw [briefestOf_hex hkeyword]
    refine lower_shortHex fun c hc => ?_
    cases hhex : e.2 with
    | nil => simp [hhex] at hc
    | cons d r =>
      rw [hhex] at hc hhash hdigits
      rcases List.mem_cons.mp hc with rfl | hc
      · rw [show c = ch '#' from hhash]
        decide
      · exact lowerByte_digit c (List.all_eq_true.mp hdigits c hc)

/-! ### Shortest spellings -/

theorem le_length_callText (name : String) (r g b : Text) (args : List Text) :
    (of name).length + 6 ≤ (Color.callText name (r :: g :: b :: args)).length := by
  have hgap : (of ", ").length = 2 := by decide
  simp only [Color.callText, join_cons, List.flatMap_cons, List.length_append, List.length_cons,
    List.length_nil, hgap]
  omega

/-- Of the spellings of a keyword color, only its keyword can be shorter than its short
hexadecimal form. -/
theorem spellingsOf_briefest {e : Text × Text} (he : e ∈ colorNames) :
    (spellingsOf e.1 e.2).2 = briefestOf e := by
  have hshort : (shortHex e.2).length ≤ 7 :=
    (colorNames_hex he).1 ▸ length_shortHex_le e.2
  have hbrief : (briefestOf e).length ≤ 7 := by
    unfold briefestOf
    split_ifs with hkeyword
    · exact Nat.le_trans (Nat.le_of_lt hkeyword) hshort
    · exact hshort
  have hkept {name : String} (hname : 1 ≤ (of name).length) (r g b : Text) (args : List Text) :
      ¬ (Color.callText name (r :: g :: b :: args)).length < (briefestOf e).length := by
    have := le_length_callText name r g b args
    omega
  have hfold {call callA : Text} (hcall : ¬ call.length < (briefestOf e).length)
      (hcallA : ¬ callA.length < (briefestOf e).length) :
      [e.1, call, callA].foldl (fun best t => if t.length < best.length then t else best)
        (shortHex e.2) = briefestOf e := by
    rw [List.foldl_cons, ← briefestOf, List.foldl_cons, if_neg hcall, List.foldl_cons,
      if_neg hcallA, List.foldl_nil]
  exact hfold (hkept (by decide) _ _ _ []) (hkept (by decide) _ _ _ [[ch '1']])

/-- A text that the other does not improve on: it is shorter, or as long and not behind it in
alphabetical order. -/
def Precedes (t u : Text) : Prop := t.length < u.length ∨ t.length = u.length ∧ le t u = true

theorem Precedes.refl (t : Text) : Precedes t t := .inr ⟨rfl, (le_total t t).elim id id⟩

theorem Precedes.antisymm {t u : Text} (h : Precedes t u) (h' : Precedes u t) : t = u := by
  obtain hlt | ⟨heq, hle⟩ := h
  · obtain hlt' | ⟨heq', -⟩ := h' <;> omega
  · obtain hlt' | ⟨-, hle'⟩ := h'
    · omega
    · exact le_antisymm hle hle'

theorem Precedes.trans {t u v : Text} (h : Precedes t u) (h' : Precedes u v) : Precedes t v := by
  obtain hlt | ⟨heq, hle⟩ := h <;> obtain hlt' | ⟨heq', hle'⟩ := h'
  · exact .inl (Nat.lt_trans hlt hlt')
  · exact .inl (heq' ▸ hlt)
  · exact .inl (heq ▸ hlt')
  · exact .inr ⟨heq.trans heq', le_trans hle hle'⟩

/-- The briefer of two texts is one of them and precedes both. -/
theorem briefer_spec (t u : Text) :
    (briefer t u = t ∨ briefer t u = u) ∧ Precedes (briefer t u) t ∧ Precedes (briefer t u) u := by
  unfold briefer
  split_ifs with h
  · refine ⟨.inl rfl, .refl t, ?_⟩
    simpa [Precedes] using h
  · refine ⟨.inr rfl, ?_, .refl u⟩
    simp only [Bool.or_eq_true, Bool.and_eq_true, decide_eq_true_eq, not_or, not_and] at h
    obtain hlt | heq := Nat.lt_or_eq_of_le (Nat.le_of_not_lt h.1)
    · exact .inl hlt
    · exact .inr ⟨heq, (le_total t u).resolve_left (h.2 heq.symm)⟩

theorem foldl_briefer_spec (ts : List Text) (t : Text) :
    ts.foldl briefer t ∈ t :: ts ∧ ∀ u ∈ t :: ts, Precedes (ts.foldl briefer t) u := by
  induction ts generalizing t with
  | nil => exact ⟨List.mem_singleton_self t, List.forall_mem_singleton.mpr (.refl t)⟩
  | cons u ts ih =>
    obtain ⟨hone, hleft, hright⟩ := briefer_spec t u
    obtain ⟨hmem, hfirst⟩ := ih (briefer t u)
    rw [List.forall_mem_cons] at hfirst
    rw [List.foldl_cons, List.forall_mem_cons, List.forall_mem_cons]
    refine ⟨?_, hfirst.1.trans hleft, hfirst.1.trans hright, hfirst.2⟩
    obtain hmem | hmem := List.mem_cons.mp hmem
    · rw [hmem]
      obtain h | h := hone <;> rw [h] <;> simp
    · exact List.mem_cons_of_mem _ (List.mem_cons_of_mem _ hmem)

/-- The briefest of some texts is one of them and precedes them all. -/
theorem briefest?_eq_some_iff {ts : List Text} {t : Text} :
    briefest? ts = some t ↔ t ∈ ts ∧ ∀ u ∈ ts, Precedes t u := by
  cases ts with
  | nil => simp [briefest?]
  | cons u us =>
    rw [briefest?, Option.some_inj]
    constructor
    · rintro rfl
      exact foldl_briefer_spec us u
    · rintro ⟨hmem, hfirst⟩
      obtain ⟨hmem', hfirst'⟩ := foldl_briefer_spec us u
      exact (hfirst' t hmem).antisymm (hfirst _ hmem')

/-- A shortest spelling is that of a keyword color that the text spells. -/
theorem exists_of_shortestSpelling? {t short : Text} (h : shortestSpelling? t = some short) :
    ∃ e ∈ colorNames, short = briefestOf e ∧ lower t ∈ (spellingsOf e.1 e.2).1 := by
  have hmem := (briefest?_eq_some_iff.mp h).1
  simp only [List.mem_map, List.mem_filter, spellings, List.mem_flatMap, decide_eq_true_eq] at hmem
  obtain ⟨pair, ⟨⟨e, he, spelling, hspelling, rfl⟩, hlower⟩, rfl⟩ := hmem
  refine ⟨e, he, spellingsOf_briefest he, ?_⟩
  rwa [← hlower]

theorem head0_shortHex {t : Text} (h : head0 t = ch '#') : head0 (shortHex t) = ch '#' := by
  obtain heq | ⟨r, r', g, g', b, b', -, heq⟩ := shortHex_cases t
  · rwa [heq]
  · rw [heq]
    rfl

theorem head0_keyword {e : Text × Text} (he : e ∈ colorNames) : isLetter (head0 e.1) = true := by
  obtain ⟨hlength, hletters, -⟩ := colorNames_keyword he
  cases hname : e.1 with
  | nil =>
    rw [hname] at hlength
    exact absurd hlength (by decide)
  | cons c r => exact hletters c (hname ▸ List.mem_cons_self)

theorem keyword_ne_hash {e : Text × Text} (he : e ∈ colorNames) {t : Text} (ht : head0 t = ch '#') :
    e.1 ≠ t := by
  intro heq
  have hletter := head0_keyword he
  rw [heq, ht] at hletter
  exact absurd hletter (by decide)

/-- A keyword spells a color as its keyword only. -/
theorem mem_spellingsOf_keyword {e f : Text × Text} (he : e ∈ colorNames) (hf : f ∈ colorNames)
    (h : e.1 ∈ (spellingsOf f.1 f.2).1) : f.1 = e.1 := by
  have hhash := (colorNames_hex hf).2.1
  have hcall : ∀ name args, e.1 ≠ Color.callText name args := by
    intro name args heq
    have hparen : ch '(' ∈ e.1 := by
      rw [heq]
      simp [Color.callText]
    exact absurd ((colorNames_keyword he).2.1 _ hparen) (by decide)
  simp only [spellingsOf, List.mem_cons, List.not_mem_nil, or_false] at h
  obtain h | h | h | h | h := h
  · exact h.symm
  · exact absurd h (keyword_ne_hash he hhash)
  · exact absurd h (keyword_ne_hash he (head0_shortHex hhash))
  · exact absurd h (hcall _ _)
  · exact absurd h (hcall _ _)

/-- A hexadecimal color spells the colors with that form, or with that short form. -/
theorem mem_spellingsOf_hash {t : Text} {f : Text × Text} (ht : head0 t = ch '#')
    (hf : f ∈ colorNames) (h : t ∈ (spellingsOf f.1 f.2).1) : t = f.2 ∨ t = shortHex f.2 := by
  have hcall : ∀ args, t ≠ Color.callText "rgb" args ∧ t ≠ Color.callText "rgba" args := by
    intro args
    have hfirst : head0 (Color.callText "rgb" args) = ch 'r' ∧
        head0 (Color.callText "rgba" args) = ch 'r' := ⟨rfl, rfl⟩
    constructor <;> rintro rfl
    · exact absurd (hfirst.1.symm.trans ht) (by decide)
    · exact absurd (hfirst.2.symm.trans ht) (by decide)
  simp only [spellingsOf, List.mem_cons, List.not_mem_nil, or_false] at h
  obtain h | h | h | h | h := h
  · exact absurd h.symm (keyword_ne_hash hf ht)
  · exact .inl h
  · exact .inr h
  · exact absurd h (hcall _).1
  · exact absurd h (hcall _).2

/-- A hexadecimal color in its short form spells the colors with that short form only. -/
theorem mem_spellingsOf_hex {t : Text} {f : Text × Text} (ht : head0 t = ch '#')
    (hshort : shortHex t = t) (hf : f ∈ colorNames) (h : t ∈ (spellingsOf f.1 f.2).1) :
    shortHex f.2 = t := by
  obtain rfl | rfl := mem_spellingsOf_hash ht hf h
  · exact hshort
  · rfl

/-- A keyword color at its shortest has no shorter spelling. -/
theorem not_shorter_of_briefest {e : Text × Text} (he : e ∈ colorNames) {short : Text}
    (h : shortestSpelling? (briefestOf e) = some short) :
    ¬ short.length < (briefestOf e).length := by
  obtain ⟨f, hf, rfl, hmem⟩ := exists_of_shortestSpelling? h
  rw [lower_briefestOf he] at hmem
  by_cases hkeyword : e.1.length < (shortHex e.2).length
  · rw [briefestOf_keyword hkeyword] at hmem ⊢
    have hname := mem_spellingsOf_keyword he hf hmem
    rw [colorNames_inj he hf hname, briefestOf_keyword hkeyword]
    exact Nat.lt_irrefl _
  · rw [briefestOf_hex hkeyword] at hmem ⊢
    have hhex := mem_spellingsOf_hex (head0_shortHex (colorNames_hex he).2.1)
      (shortHex_shortHex e.2) hf hmem
    have hother : ¬ f.1.length < (shortHex f.2).length := fun hlt =>
      shortHex_ne_of_keyword hf he hlt hkeyword hhex.symm
    rw [briefestOf_hex hother, hhex]
    exact Nat.lt_irrefl _

/-! ### Shortened colors -/

namespace Style

variable (s : Style)

/-- A color with six digits shortened. -/
def unpaired (t : Text) : Text :=
  if s.shortColors && t.length = 7 && head0 t = ch '#' then shortHex t else t

theorem unpaired_cases (t : Text) : s.unpaired t = t ∨
    t.length = 7 ∧ head0 t = ch '#' ∧ s.unpaired t = shortHex t := by
  unfold unpaired
  split_ifs with h
  · simp only [Bool.and_eq_true, decide_eq_true_eq] at h
    exact .inr ⟨h.1.2, h.2, rfl⟩
  · exact .inl rfl

theorem unpaired_of_shortHex {t : Text} (h : shortHex t = t) : s.unpaired t = t := by
  obtain heq | ⟨-, -, heq⟩ := s.unpaired_cases t
  · exact heq
  · rw [heq, h]

theorem unpaired_unpaired (t : Text) : s.unpaired (s.unpaired t) = s.unpaired t := by
  obtain heq | ⟨-, -, heq⟩ := s.unpaired_cases t
  · rw [heq, heq]
  · rw [heq]
    exact s.unpaired_of_shortHex (shortHex_shortHex t)

theorem color_eq (t : Text) : s.color t =
    match if s.reverseColors then shortestSpelling? (s.unpaired t) else none with
    | some short => if short.length < (s.unpaired t).length then short else s.unpaired t
    | none => s.unpaired t := rfl

/-- A color is written with its digits shortened, or in the shortest spelling if that is
shorter still. -/
theorem color_cases (t : Text) : s.color t = s.unpaired t ∨
    ∃ e ∈ colorNames, s.color t = briefestOf e ∧ (briefestOf e).length < (s.unpaired t).length ∧
      lower (s.unpaired t) ∈ (spellingsOf e.1 e.2).1 := by
  rw [color_eq]
  by_cases hreverse : s.reverseColors = true
  · rw [if_pos hreverse]
    cases hshort : shortestSpelling? (s.unpaired t) with
    | none => exact .inl rfl
    | some short =>
      dsimp only
      split_ifs with hlt
      · obtain ⟨e, he, rfl, hmem⟩ := exists_of_shortestSpelling? hshort
        exact .inr ⟨e, he, rfl, hlt, hmem⟩
      · exact .inl rfl
  · rw [if_neg hreverse]
    exact .inl rfl

/-- A color stays as it is or gets shorter. -/
theorem color_shorter (t : Text) : s.color t = t ∨ (s.color t).length < t.length := by
  have hunpaired : s.unpaired t = t ∨ (s.unpaired t).length < t.length := by
    obtain heq | ⟨-, -, heq⟩ := s.unpaired_cases t
    · exact .inl heq
    · obtain hsame | ⟨r, r', g, g', b, b', rfl, hshort⟩ := shortHex_cases t
      · exact .inl (heq.trans hsame)
      · exact .inr (by rw [heq, hshort]; simp)
  obtain h | ⟨e, -, h, hlt, -⟩ := s.color_cases t
  · rwa [h]
  · rw [h]
    obtain heq | hshort := hunpaired
    · exact .inr (heq ▸ hlt)
    · exact .inr (Nat.lt_trans hlt hshort)

theorem shortHex_briefestOf {e : Text × Text} (he : e ∈ colorNames) :
    s.unpaired (briefestOf e) = briefestOf e := by
  by_cases hkeyword : e.1.length < (shortHex e.2).length
  · rw [briefestOf_keyword hkeyword]
    obtain heq | ⟨-, hhash, -⟩ := s.unpaired_cases e.1
    · exact heq
    · exact absurd rfl (keyword_ne_hash he hhash)
  · rw [briefestOf_hex hkeyword]
    exact s.unpaired_of_shortHex (shortHex_shortHex e.2)

/-- A shortened color gets no shorter. -/
theorem color_color (t : Text) : s.color (s.color t) = s.color t := by
  obtain h | ⟨e, he, h, -⟩ := s.color_cases t
  · -- The second reading tries the spelling that the first one rejected.
    rw [h]
    rw [color_eq] at h ⊢
    rwa [unpaired_unpaired]
  · rw [h, color_eq, s.shortHex_briefestOf he]
    by_cases hreverse : s.reverseColors = true
    · rw [if_pos hreverse]
      cases hshort : shortestSpelling? (briefestOf e) with
      | none => rfl
      | some short => exact if_neg (not_shorter_of_briefest he hshort)
    · rw [if_neg hreverse]

end Style

/-- The last two bytes are bytes of a name. -/
def EndsInName (t : Text) : Prop :=
  ∃ before c d, t = before ++ [c, d] ∧ isName c = true ∧ isName d = true

theorem endsInName_of_forall {t : Text} (ht : ∀ c ∈ t, isName c = true) (hlength : 2 ≤ t.length) :
    EndsInName t := by
  obtain ⟨init, d, rfl⟩ := List.eq_nil_or_concat t |>.resolve_left (by rintro rfl; simp at hlength)
  obtain ⟨before, c, rfl⟩ := List.eq_nil_or_concat init |>.resolve_left (by
    rintro rfl
    simp at hlength)
  exact ⟨before, c, d, by simp, ht c (by simp), ht d (by simp)⟩

theorem EndsInName.cons {t : Text} (c : UInt8) (h : EndsInName t) : EndsInName (c :: t) := by
  obtain ⟨before, x, y, rfl, hx, hy⟩ := h
  exact ⟨c :: before, x, y, rfl, hx, hy⟩

/-- A color written as a number sign and a name, or as a keyword. -/
inductive ColorText : Text → Prop
  | hash {name : Text} (hname : ∀ c ∈ name, isName c = true) : ColorText (ch '#' :: name)
  | keyword {e : Text × Text} (he : e ∈ colorNames) : ColorText e.1

theorem ColorText.length_of_endsInName {t : Text} (h : ColorText t) (hends : EndsInName t) :
    3 ≤ t.length := by
  cases h with
  | hash hname =>
    obtain ⟨before, c, d, heq, hc, -⟩ := hends
    cases before with
    | nil =>
      obtain ⟨rfl, -⟩ := List.cons.inj heq
      exact absurd hc (by decide)
    | cons x before =>
      rw [heq]
      simp
  | keyword he => exact (colorNames_keyword he).1

/-- The short form of a hexadecimal color. -/
theorem colorText_shortHex {t : Text} (hlength : t.length = 7) (h : head0 t = ch '#')
    (ht : ∀ c ∈ t.tail, isName c = true) : ColorText (shortHex t) ∧ EndsInName (shortHex t) := by
  obtain heq | ⟨r, r', g, g', b, b', rfl, heq⟩ := shortHex_cases t
  · obtain ⟨c, name, rfl⟩ := List.exists_cons_of_ne_nil (l := t) (by rintro rfl; simp at hlength)
    obtain rfl : c = ch '#' := h
    rw [heq]
    refine ⟨.hash ht, .cons _ (endsInName_of_forall ht ?_)⟩
    rw [List.length_cons] at hlength
    omega
  · have hname : ∀ c ∈ [lowerByte r, lowerByte g, lowerByte b], isName c = true := by
      simp only [List.tail_cons, List.forall_mem_cons] at ht ⊢
      exact ⟨isName_lowerByte _ ht.1, isName_lowerByte _ ht.2.2.1, isName_lowerByte _ ht.2.2.2.2.1,
        nofun⟩
    rw [heq]
    exact ⟨.hash hname, .cons _ (endsInName_of_forall hname (by simp))⟩

theorem colorText_briefestOf {e : Text × Text} (he : e ∈ colorNames) :
    ColorText (briefestOf e) ∧ EndsInName (briefestOf e) := by
  by_cases hkeyword : e.1.length < (shortHex e.2).length
  · obtain ⟨hlength, hletters, -⟩ := colorNames_keyword he
    rw [briefestOf_keyword hkeyword]
    exact ⟨.keyword he, endsInName_of_forall (fun c hc => isName_of_isLetter c (hletters c hc))
      (by omega)⟩
  · obtain ⟨hlength, hhash, hhex⟩ := colorNames_hex he
    rw [briefestOf_hex hkeyword]
    exact colorText_shortHex hlength hhash fun c hc => isName_of_isHex c (hhex c hc)

/-- What a color becomes if it does not stay as it is. -/
theorem Style.color_changed (s : Style) {t : Text} (ht : ∀ c ∈ t.tail, isName c = true) :
    s.color t = t ∨ 4 ≤ t.length ∧ ColorText (s.color t) ∧ EndsInName (s.color t) := by
  obtain h | ⟨e, he, h, hlt, -⟩ := s.color_cases t
  · obtain heq | ⟨hlength, hhash, heq⟩ := s.unpaired_cases t
    · exact .inl (h.trans heq)
    · rw [h, heq]
      exact .inr ⟨by omega, colorText_shortHex hlength hhash ht⟩
  · rw [h]
    obtain ⟨htext, hends⟩ := colorText_briefestOf he
    refine .inr ⟨?_, htext, hends⟩
    have hthree := htext.length_of_endsInName hends
    obtain heq | ⟨hlength, -⟩ := s.unpaired_cases t
    · rw [heq] at hlt
      omega
    · omega

/-! ### Shortened numbers -/

/-- A numeral ends in a digit or is empty. -/
def EndsInDigit (t : Text) : Prop := t = [] ∨ ∃ before d, t = before ++ [d] ∧ isDigit d = true

theorem splitUnit_append {digits unit : Text} (hdigits : EndsInDigit digits)
    (hunit : ∀ c ∈ unit, isDigit c = false) : splitUnit (digits ++ unit) = (digits, unit) := by
  have hends : digits.reverse.takeWhile (fun c => !isDigit c) = [] := by
    obtain rfl | ⟨before, d, rfl, hd⟩ := hdigits
    · rfl
    · rw [List.reverse_append, List.reverse_singleton, List.singleton_append, List.takeWhile_cons,
        if_neg (by simp [hd])]
  have hlength : ((digits ++ unit).reverse.takeWhile fun c => !isDigit c).length = unit.length := by
    rw [List.reverse_append, List.takeWhile_append_of_pos (by simpa using hunit), hends,
      List.append_nil, List.length_reverse]
  unfold splitUnit
  dsimp only
  rw [hlength, List.length_append, Nat.add_sub_cancel, List.take_left, List.drop_left]

/-- Every text is digits and a unit. -/
theorem exists_splitUnit (t : Text) : ∃ digits unit, t = digits ++ unit ∧ EndsInDigit digits ∧
    ∀ c ∈ unit, isDigit c = false := by
  induction t using List.reverseRecOn with
  | nil => exact ⟨[], [], rfl, .inl rfl, nofun⟩
  | append_singleton t c ih =>
    cases hc : isDigit c with
    | true => exact ⟨t ++ [c], [], by simp, .inr ⟨t, c, rfl, hc⟩, nofun⟩
    | false =>
      obtain ⟨digits, unit, rfl, hdigits, hunit⟩ := ih
      refine ⟨digits, unit ++ [c], by simp, hdigits, ?_⟩
      intro d hd
      obtain hd | hd := List.mem_append.mp hd
      · exact hunit d hd
      · rw [List.mem_singleton.mp hd, hc]

theorem exists_of_starts_zero {digits : Text} (hdigits : EndsInDigit digits)
    (h : starts digits (of "0.") = true) :
    ∃ c w, digits = ch '0' :: ch '.' :: c :: w ∧ EndsInDigit (ch '.' :: c :: w) := by
  obtain ⟨w, rfl⟩ := List.isPrefixOf_iff_prefix.mp h
  obtain hnil | ⟨before, d, heq, hd⟩ := hdigits
  · exact absurd hnil (List.append_ne_nil_of_left_ne_nil (by decide) _)
  · -- The last digit is not the point.
    have hlast : (of "0." ++ w).getLast? = some d := by rw [heq, List.getLast?_concat]
    cases w with
    | nil =>
      obtain rfl : ch '.' = d := Option.some.inj hlast
      exact absurd hd (by decide)
    | cons c w =>
      refine ⟨c, w, rfl, .inr ?_⟩
      cases before with
      | nil => exact absurd (List.cons.inj heq).2 (List.cons_ne_nil _ _)
      | cons x before => exact ⟨before, d, (List.cons.inj heq).2, hd⟩

namespace Style

variable (s : Style)

theorem number_append {digits unit : Text} (hdigits : EndsInDigit digits)
    (hunit : ∀ c ∈ unit, isDigit c = false) : s.number (digits ++ unit) =
      if !s.compress then digits ++ unit
      else if !unit.isEmpty && isZeroNumeral digits && isKnownUnit unit then [ch '0']
      else if starts digits (of "0.") then digits.drop 1 ++ unit
      else digits ++ unit := by
  rw [number, splitUnit_append hdigits hunit]

/-- A number stays as it is, becomes zero, or loses the zero before its point. -/
theorem number_cases (t : Text) : s.number t = t ∨ s.number t = [ch '0'] ∨
    ∃ c v, t = ch '0' :: ch '.' :: c :: v ∧ s.number t = ch '.' :: c :: v ∧
      ∃ d ∈ c :: v, isDigit d = true := by
  obtain ⟨digits, unit, rfl, hdigits, hunit⟩ := exists_splitUnit t
  rw [s.number_append hdigits hunit]
  split_ifs with hplain hzero hpoint
  · exact .inl rfl
  · exact .inr (.inl rfl)
  · obtain ⟨c, w, rfl, hends⟩ := exists_of_starts_zero hdigits hpoint
    refine .inr (.inr ⟨c, w ++ unit, rfl, rfl, ?_⟩)
    obtain hnil | ⟨before, d, heq, hd⟩ := hends
    · exact absurd hnil (List.cons_ne_nil _ _)
    · refine ⟨d, ?_, hd⟩
      have hmem : d ∈ ch '.' :: c :: w := heq ▸ by simp
      obtain rfl | hmem := List.mem_cons.mp hmem
      · exact absurd hd (by decide)
      · exact List.mem_append_left unit hmem
  · exact .inl rfl

/-- A number stays as it is or gets shorter, and has no bytes that it did not have but a zero. -/
theorem number_shorter (t : Text) : s.number t = t ∨
    (s.number t).length < t.length ∧ ∀ c ∈ s.number t, c = ch '0' ∨ c ∈ t := by
  obtain ⟨digits, unit, rfl, hdigits, hunit⟩ := exists_splitUnit t
  rw [s.number_append hdigits hunit]
  split_ifs with hplain hzero hpoint
  · exact .inl rfl
  · simp only [Bool.and_eq_true, Bool.not_eq_true', isZeroNumeral, hasByte] at hzero
    have hunit : 0 < unit.length := List.length_pos_of_ne_nil (by simpa using hzero.1.1)
    have hdigits : 0 < digits.length := List.length_pos_of_mem (by simpa using hzero.1.2.2)
    refine .inr ⟨?_, fun c hc => .inl (List.mem_singleton.mp hc)⟩
    rw [List.length_append, List.length_singleton]
    omega
  · obtain ⟨c, w, rfl, -⟩ := exists_of_starts_zero hdigits hpoint
    exact .inr ⟨by simp, fun d hd => .inr (List.mem_cons_of_mem _ hd)⟩
  · exact .inl rfl

/-- A shortened number gets no shorter. -/
theorem number_number (t : Text) : s.number (s.number t) = s.number t := by
  obtain ⟨digits, unit, rfl, hdigits, hunit⟩ := exists_splitUnit t
  rw [s.number_append hdigits hunit]
  split_ifs with hplain hzero hpoint
  · rw [s.number_append hdigits hunit, if_pos hplain]
  · have hdigit : EndsInDigit [ch '0'] := .inr ⟨[], ch '0', rfl, rfl⟩
    have hnumber := @number_append s [ch '0'] [] hdigit nofun
    rw [if_neg hplain] at hnumber
    exact hnumber
  · obtain ⟨c, w, rfl, hends⟩ := exists_of_starts_zero hdigits hpoint
    -- The rest is no zero either, and does not start with one.
    have hrest : isZeroNumeral (ch '.' :: c :: w) = true →
        isZeroNumeral (ch '0' :: ch '.' :: c :: w) = true := by
      intro h
      simp only [isZeroNumeral, hasByte, List.all_cons, List.any_cons, Bool.and_eq_true] at h ⊢
      exact ⟨⟨by decide, h.1⟩, by simp⟩
    have hzero' :
        ¬(!unit.isEmpty && isZeroNumeral (ch '.' :: c :: w) && isKnownUnit unit) = true := by
      simp only [Bool.and_eq_true] at hzero ⊢
      exact fun h => hzero ⟨⟨h.1.1, hrest h.1.2⟩, h.2⟩
    change s.number ((ch '.' :: c :: w) ++ unit) = (ch '.' :: c :: w) ++ unit
    have hpoint' : ¬starts (ch '.' :: c :: w) (of "0.") = true := Bool.false_ne_true
    rw [s.number_append hends hunit, if_neg hplain, if_neg hzero', if_neg hpoint']
  · rw [s.number_append hdigits hunit, if_neg hplain, if_neg hzero, if_neg hpoint]

end Style

end Stylesheet
