import Stylesheet.Proofs.Output.Shortening
import Stylesheet.Proofs.Selector

/-!
# Strings in shortened values

A string of a value begins at a quotation mark and ends at the next one of its kind that no
backslash stands before. Shortening passes over strings and over the argument of a `url()`, but
takes an argument to end at the first closing parenthesis, even of one inside quotes. It then goes
on in the middle of a string and shortens what it finds there.

That is the only way in which a string can change. Colors and numbers have no quotation marks in
them, whatever becomes of them, so the same strings begin and end in a value as in the shortened
one. What is shortened gets shorter, so a string that anything in it is shortened of is another
string.

## Main definitions

* `quoteAfter` — the quotation that is open after a text
* `strings` — the strings of a text
* `Style.Spared` — nothing that begins in a string is shortened

## Main results

* `Lexed.quoteAfter_eq` — the same quotation is open after lexemes and after them shortened
* `Style.strings_shorten_iff` — when the strings of a value are those of the shortened value
* `bracketedUrl_string_changed` — a string with a parenthesis in it
-/

namespace Stylesheet

open Text

/-! ### Strings -/

/-- The quotation mark of the string that is open at a place, with a mark for whether the next byte
is escaped. -/
abbrev OpenQuote := Option (Mark × Bool)

/-- The quotation mark that a byte is. -/
def Mark.ofByte? (c : UInt8) : Option Mark :=
  if c = ch '"' then some .double else if c = ch '\'' then some .single else none

/-- Passes one byte. -/
def quoteStep : OpenQuote → UInt8 → OpenQuote
  | none, c => (Mark.ofByte? c).map (·, false)
  | some (q, true), _ => some (q, false)
  | some (q, false), c =>
    if c = ch '\\' then some (q, true) else if c = q.byte then none else some (q, false)

/-- The quotation that is open after a text. -/
def quoteAfter (o : OpenQuote) (t : Text) : OpenQuote := t.foldl quoteStep o

/-- The strings of a text with their quotation marks, in order, where `o` is what is open and `part`
the string under way, last byte first. A string that does not end is one, too. -/
def stringsFrom : OpenQuote → (part : Text) → Text → List Text
  | none, _, [] => []
  | some _, part, [] => [part.reverse]
  | none, _, c :: r => stringsFrom (quoteStep none c) [c] r
  | some o, part, c :: r =>
    match quoteStep (some o) c with
    | none => (c :: part).reverse :: stringsFrom none [] r
    | some o => stringsFrom (some o) (c :: part) r

/-- The strings of a text. -/
def strings (t : Text) : List Text := stringsFrom none [] t

/-- Every quotation that a text begins ends in it. -/
def Closed (t : Text) : Prop := quoteAfter none t = none

instance (t : Text) : Decidable (Closed t) := inferInstanceAs (Decidable (_ = _))

variable {o : OpenQuote} {t u r r' : Text}

@[simp] theorem quoteAfter_nil : quoteAfter o [] = o := rfl

@[simp] theorem quoteAfter_cons {c : UInt8} :
    quoteAfter o (c :: t) = quoteAfter (quoteStep o c) t := rfl

theorem quoteAfter_append : quoteAfter o (t ++ u) = quoteAfter (quoteAfter o t) u :=
  List.foldl_append

/-- Between strings there is none under way. -/
theorem stringsFrom_none (part part' t : Text) :
    stringsFrom none part t = stringsFrom none part' t := by
  cases t <;> rfl

/-- What follows a text can be exchanged for another with the same strings. -/
theorem stringsFrom_append_congr
    (h : ∀ part, stringsFrom (quoteAfter o t) part r = stringsFrom (quoteAfter o t) part r')
    (part : Text) : stringsFrom o part (t ++ r) = stringsFrom o part (t ++ r') := by
  induction t generalizing o part with
  | nil => exact h part
  | cons c t ih =>
    have hrest := ih (o := quoteStep o c) h
    cases o with
    | none => exact hrest [c]
    | some o =>
      rw [List.cons_append, List.cons_append, stringsFrom, stringsFrom]
      cases hstep : quoteStep (some o) c with
      | none =>
        -- A string ends here, and is the same whatever follows.
        rw [hstep] at hrest
        exact congrArg _ (hrest [])
      | some o' =>
        rw [hstep] at hrest
        exact hrest (c :: part)

/-! ### Bytes of strings -/

/-- The number of bytes of a text that belong to strings, quotation marks included. -/
def quotedBytes : OpenQuote → Text → Nat
  | _, [] => 0
  | o, c :: r => (if o = none ∧ quoteStep o c = none then 0 else 1) + quotedBytes (quoteStep o c) r

theorem quotedBytes_append :
    quotedBytes o (t ++ u) = quotedBytes o t + quotedBytes (quoteAfter o t) u := by
  induction t generalizing o with
  | nil => simp [quotedBytes]
  | cons c t ih =>
    rw [List.cons_append, quotedBytes, quotedBytes, ih, Nat.add_assoc, quoteAfter_cons]

/-- These bytes are what the strings are made of. -/
theorem length_flatten_stringsFrom (part : Text) : (stringsFrom o part t).flatten.length =
    (if o = none then 0 else part.length) + quotedBytes o t := by
  induction t generalizing o part with
  | nil => cases o <;> simp [stringsFrom, quotedBytes]
  | cons c t ih =>
    cases o with
    | none =>
      rw [stringsFrom, ih, quotedBytes]
      by_cases hstep : quoteStep none c = none <;> simp [hstep]
    | some o =>
      rw [stringsFrom, quotedBytes]
      cases hstep : quoteStep (some o) c with
      | none =>
        rw [List.flatten_cons, List.length_append, List.length_reverse, List.length_cons, ih,
          if_pos rfl, if_neg nofun, if_neg nofun]
        omega
      | some o' =>
        rw [ih, List.length_cons, if_neg nofun, if_neg nofun, if_neg nofun]
        omega

theorem length_flatten_strings (t : Text) : (strings t).flatten.length = quotedBytes none t := by
  rw [strings, length_flatten_stringsFrom, if_pos rfl, Nat.zero_add]

/-! ### Texts without quotation marks -/

/-- No quotation mark and no backslash. -/
def QuoteFree (t : Text) : Prop := ∀ c ∈ t, isQuote c = false ∧ c ≠ ch '\\'

theorem quoteFree_of_isName : ∀ c, isName c = true → isQuote c = false ∧ c ≠ ch '\\' :=
  forall_byte (by decide +kernel)

theorem Mark.isQuote_byte (q : Mark) : isQuote q.byte = true := by cases q <;> decide

theorem Mark.ofByte?_of_isQuote : ∀ c, isQuote c = false → Mark.ofByte? c = none :=
  forall_byte (by decide +kernel)

theorem quoteStep_none {c : UInt8} (hc : isQuote c = false) : quoteStep none c = none := by
  rw [quoteStep, Mark.ofByte?_of_isQuote c hc]
  rfl

theorem quoteStep_some {c : UInt8} (hc : isQuote c = false ∧ c ≠ ch '\\') (q : Mark) (e : Bool) :
    quoteStep (some (q, e)) c = some (q, false) := by
  cases e with
  | true => rfl
  | false =>
    have hq : c ≠ q.byte := by
      rintro rfl
      exact absurd hc.1 (by simp [q.isQuote_byte])
    rw [quoteStep, if_neg hc.2, if_neg hq]

/-- Between strings a text without quotation marks begins none. -/
theorem QuoteFree.quoteAfter_none (ht : QuoteFree t) : quoteAfter none t = none := by
  induction t with
  | nil => rfl
  | cons c t ih =>
    obtain ⟨hc, ht⟩ := List.forall_mem_cons.mp ht
    rw [quoteAfter_cons, quoteStep_none hc.1, ih ht]

theorem QuoteFree.quotedBytes_none (ht : QuoteFree t) : quotedBytes none t = 0 := by
  induction t with
  | nil => rfl
  | cons c t ih =>
    obtain ⟨hc, ht⟩ := List.forall_mem_cons.mp ht
    rw [quotedBytes, quoteStep_none hc.1, if_pos ⟨rfl, rfl⟩, ih ht]

theorem QuoteFree.stringsFrom_append (ht : QuoteFree t) (part : Text) :
    stringsFrom none part (t ++ r) = stringsFrom none part r := by
  induction t generalizing part with
  | nil => rfl
  | cons c t ih =>
    obtain ⟨hc, ht⟩ := List.forall_mem_cons.mp ht
    rw [List.cons_append, stringsFrom, quoteStep_none hc.1, ih ht, stringsFrom_none]

/-- In a string a text without quotation marks does not end it. -/
theorem QuoteFree.quoteAfter_some (ht : QuoteFree t) (hne : t ≠ []) (q : Mark) (e : Bool) :
    quoteAfter (some (q, e)) t = some (q, false) := by
  induction t generalizing e with
  | nil => exact absurd rfl hne
  | cons c t ih =>
    obtain ⟨hc, ht⟩ := List.forall_mem_cons.mp ht
    rw [quoteAfter_cons, quoteStep_some hc]
    by_cases htail : t = []
    · rw [htail, quoteAfter_nil]
    · exact ih ht htail false

/-- In a string all of it belongs to the string. -/
theorem QuoteFree.quotedBytes_some (ht : QuoteFree t) (q : Mark) (e : Bool) :
    quotedBytes (some (q, e)) t = t.length := by
  induction t generalizing e with
  | nil => rfl
  | cons c t ih =>
    obtain ⟨hc, ht⟩ := List.forall_mem_cons.mp ht
    rw [quotedBytes, quoteStep_some hc, ih ht, List.length_cons, if_neg nofun, Nat.add_comm]

/-! ### Lexemes -/

/-- A text without quotation marks gets shorter. -/
structure Shrinks (t u : Text) : Prop where
  shorter : u.length < t.length
  ne_nil : u ≠ []
  before : QuoteFree t
  after : QuoteFree u

/-- The same quotation is open after it. -/
theorem Shrinks.quoteAfter_eq (h : Shrinks t u) (o : OpenQuote) :
    quoteAfter o u = quoteAfter o t := by
  have hne : t ≠ [] := List.ne_nil_of_length_pos (Nat.zero_lt_of_lt h.shorter)
  cases o with
  | none => rw [h.after.quoteAfter_none, h.before.quoteAfter_none]
  | some o => rw [h.after.quoteAfter_some h.ne_nil, h.before.quoteAfter_some hne]

/-- It has fewer bytes of strings, unless it stands between strings. -/
theorem Shrinks.quotedBytes_le (h : Shrinks t u) (o : OpenQuote) :
    quotedBytes o u ≤ quotedBytes o t ∧ (o ≠ none → quotedBytes o u < quotedBytes o t) := by
  cases o with
  | none =>
    rw [h.after.quotedBytes_none]
    exact ⟨Nat.zero_le _, fun hne => absurd rfl hne⟩
  | some o =>
    rw [h.after.quotedBytes_some, h.before.quotedBytes_some]
    exact ⟨Nat.le_of_lt h.shorter, fun _ => h.shorter⟩

theorem QuoteFree.append (ht : QuoteFree t) (hu : QuoteFree u) : QuoteFree (t ++ u) :=
  List.forall_mem_append.mpr ⟨ht, hu⟩

theorem quoteFree_of_name (ht : ∀ c ∈ t, isName c = true) : QuoteFree t :=
  fun c hc => quoteFree_of_isName c (ht c hc)

theorem quoteFree_hash (ht : ∀ c ∈ t, isName c = true) : QuoteFree (ch '#' :: t) :=
  List.forall_mem_cons.mpr ⟨by decide, quoteFree_of_name ht⟩

theorem quoteFree_number {digits unit rest : Text} (hdigits : ∀ c ∈ digits, isNumeralByte c = true)
    (hunit : NumberUnit unit rest) : QuoteFree (digits ++ unit) := by
  have hnumeral : ∀ c, isNumeralByte c = true → isQuote c = false ∧ c ≠ ch '\\' :=
    forall_byte (by decide +kernel)
  refine .append (fun c hc => hnumeral c (hdigits c hc)) ?_
  cases hunit with
  | percent => exact List.forall_mem_singleton.mpr (by decide)
  | letters _ hletters =>
    exact quoteFree_of_name fun c hc => isName_of_isLetter c (hletters c hc)
  | none => exact List.forall_mem_nil _

theorem ColorText.quoteFree (h : ColorText t) : QuoteFree t := by
  cases h with
  | hash hname => exact quoteFree_hash hname
  | keyword he =>
    exact quoteFree_of_name fun c hc => isName_of_isLetter c ((colorNames_keyword he).2.1 c hc)

variable (s : Style)

theorem Style.color_shrinks (hname : ∀ c ∈ t.tail, isName c = true) (ht : QuoteFree t) :
    s.color t = t ∨ Shrinks t (s.color t) := by
  obtain heq | hshorter := s.color_shorter t
  · exact .inl heq
  obtain heq | ⟨-, htext, hends⟩ := s.color_changed hname
  · exact .inl heq
  · have hthree := htext.length_of_endsInName hends
    exact .inr ⟨hshorter, List.ne_nil_of_length_pos (by omega), ht, htext.quoteFree⟩

/-- A lexeme stays as it is, or shrinks. -/
theorem Stands.lexeme_shrinks {b : Before2} {l : Lexeme} {rest : Text} (h : Stands b l rest) :
    s.lexeme l = l.text ∨ Shrinks l.text (s.lexeme l) := by
  cases h with
  | quoted | function | url | other => exact .inl rfl
  | hash hname => exact s.color_shrinks hname (quoteFree_hash hname)
  | @word name _ _ hname =>
    by_cases hkeyword : isColorName name = true
    · simp only [Style.lexeme, if_pos hkeyword]
      exact s.color_shrinks (fun c hc => hname.all c (List.mem_of_mem_tail hc))
        (quoteFree_of_name hname.all)
    · exact .inl (if_neg hkeyword)
  | @number digits unit rest hb hstart hdigits hunit =>
    change s.number (digits ++ unit) = _ ∨ Shrinks _ (s.number (digits ++ unit))
    have hfree := quoteFree_number hdigits hunit
    obtain heq | ⟨hshorter, hbytes⟩ := s.number_shorter (digits ++ unit)
    · exact .inl heq
    · refine .inr ⟨hshorter, ?_, hfree, fun c hc => ?_⟩
      · obtain heq | heq | ⟨c, v, -, heq, -⟩ := s.number_cases (digits ++ unit)
        · exact absurd (congrArg List.length heq) (Nat.ne_of_lt hshorter)
        · simp [heq]
        · simp [heq]
      · obtain rfl | hc := hbytes c hc
        · decide
        · exact hfree c hc

/-! ### Texts -/

/-- No lexeme that begins in a string is shortened. -/
def Style.Spared (s : Style) : OpenQuote → List Lexeme → Prop
  | _, [] => True
  | o, l :: ls => (o ≠ none → s.lexeme l = l.text) ∧ s.Spared (quoteAfter o l.text) ls

variable {s}

/-- Whatever is open in front of a lexeme, the same is open behind it when it is shortened. -/
theorem Stands.quoteAfter_lexeme {b : Before2} {l : Lexeme} {rest : Text} (h : Stands b l rest)
    (o : OpenQuote) : quoteAfter o (s.lexeme l) = quoteAfter o l.text := by
  obtain heq | hshrinks := h.lexeme_shrinks s
  · rw [heq]
  · exact hshrinks.quoteAfter_eq o

theorem Lexed.quoteAfter_eq {b : Before2} {ls : List Lexeme} (h : Lexed b ls) (o : OpenQuote) :
    quoteAfter o (ls.flatMap s.lexeme) = quoteAfter o (ls.flatMap Lexeme.text) := by
  induction h generalizing o with
  | nil => rfl
  | cons hhead htail ih =>
    rw [List.flatMap_cons, List.flatMap_cons, quoteAfter_append, quoteAfter_append,
      hhead.quoteAfter_lexeme, ih]

/-- Shortening takes bytes out of strings unless everything in them is spared. -/
theorem Lexed.quotedBytes_le {b : Before2} {ls : List Lexeme} (h : Lexed b ls) (o : OpenQuote) :
    quotedBytes o (ls.flatMap s.lexeme) ≤ quotedBytes o (ls.flatMap Lexeme.text) ∧
      (quotedBytes o (ls.flatMap s.lexeme) = quotedBytes o (ls.flatMap Lexeme.text) →
        s.Spared o ls) := by
  induction h generalizing o with
  | nil => exact ⟨Nat.le_refl _, fun _ => trivial⟩
  | @cons b l ls hhead htail ih =>
    obtain ⟨hle, hspared⟩ := ih (quoteAfter o l.text)
    rw [List.flatMap_cons, List.flatMap_cons, quotedBytes_append, quotedBytes_append,
      hhead.quoteAfter_lexeme]
    obtain heq | hshrinks := hhead.lexeme_shrinks s
    · rw [heq]
      refine ⟨Nat.add_le_add_left hle _, fun hsame => ⟨fun _ => heq, ?_⟩⟩
      exact hspared (Nat.add_left_cancel hsame)
    · -- What is lost here is not made up for further on.
      obtain ⟨hless, hlost⟩ := hshrinks.quotedBytes_le o
      refine ⟨Nat.add_le_add hless hle, fun hsame => ⟨fun ho => ?_, hspared (by omega)⟩⟩
      have hlost := hlost ho
      omega

/-- Where everything in strings is spared, the strings are the same. -/
theorem Lexed.stringsFrom_eq {b : Before2} {ls : List Lexeme} (h : Lexed b ls) {o : OpenQuote}
    (hspared : s.Spared o ls) (part : Text) :
    stringsFrom o part (ls.flatMap s.lexeme) = stringsFrom o part (ls.flatMap Lexeme.text) := by
  induction h generalizing o part with
  | nil => rfl
  | @cons b l ls hhead htail ih =>
    obtain ⟨hkept, hrest⟩ := hspared
    have hunchanged (heq : s.lexeme l = l.text) :
        stringsFrom o part (s.lexeme l ++ ls.flatMap s.lexeme) =
          stringsFrom o part (l.text ++ ls.flatMap Lexeme.text) := by
      rw [heq]
      exact stringsFrom_append_congr (fun part => ih hrest part) part
    rw [List.flatMap_cons, List.flatMap_cons]
    obtain heq | hshrinks := hhead.lexeme_shrinks s
    · exact hunchanged heq
    · by_cases ho : o = none
      · -- Between strings, both the lexeme and what it becomes do nothing.
        subst ho
        rw [hshrinks.before.quoteAfter_none] at hrest
        rw [hshrinks.before.stringsFrom_append, hshrinks.after.stringsFrom_append]
        exact ih hrest part
      · exact hunchanged (hkept ho)

/-- A string that is read whole ends, unless the text does. -/
theorem quoteAfter_quotedRest (q : Mark) {rest : Text} (hrest : rest ≠ []) :
    ∀ {body : Text}, quotedRest q.byte (body ++ rest) = body.length →
      quoteAfter (some (q, false)) body = none
  | [], h => absurd h (Nat.ne_of_gt (quotedRest_pos hrest))
  | [c], h => by
    obtain ⟨d, r, rfl⟩ := List.exists_cons_of_ne_nil hrest
    have hpos : 0 < quotedRest q.byte (d :: r) := quotedRest_pos (List.cons_ne_nil _ _)
    simp only [List.cons_append, List.nil_append, quotedRest, List.length_cons,
      List.length_nil] at h
    split_ifs at h with hescape hclose
    · -- A backslash takes the first byte of what follows with it.
      omega
    · rw [quoteAfter_cons, quoteStep, if_neg hescape, if_pos hclose, quoteAfter_nil]
    · omega
  | c :: d :: body, h => by
    simp only [List.cons_append, quotedRest, List.length_cons] at h
    split_ifs at h with hescape hclose
    · have hbody : quotedRest q.byte (body ++ rest) = body.length := by omega
      rw [quoteAfter_cons, quoteStep, if_pos hescape, quoteAfter_cons]
      exact quoteAfter_quotedRest q hrest hbody
    · omega
    · have hbody : quotedRest q.byte (d :: body ++ rest) = (d :: body).length := by
        simp only [List.cons_append, List.length_cons]
        omega
      rw [quoteAfter_cons, quoteStep, if_neg hescape, if_neg hclose]
      exact quoteAfter_quotedRest q hrest hbody

theorem exists_mark {c : UInt8} (hc : isQuote c = true) :
    ∃ q : Mark, c = q.byte ∧ quoteStep none c = some (q, false) := by
  simp only [isQuote, Bool.or_eq_true, decide_eq_true_eq] at hc
  obtain rfl | rfl := hc
  · exact ⟨.double, rfl, rfl⟩
  · exact ⟨.single, rfl, rfl⟩

/-- A lexeme ends the quotations that it begins, but for an argument, and at the end of the text. -/
theorem Stands.closed {b : Before2} {l : Lexeme} {rest : Text} (h : Stands b l rest)
    (hurl : l.kind ≠ .url) (hrest : rest ≠ []) : Closed l.text := by
  cases h with
  | @quoted c body rest hq hend =>
    obtain ⟨q, rfl, hstep⟩ := exists_mark hq
    rw [Closed, quoteAfter_cons, hstep]
    exact quoteAfter_quotedRest q hrest hend
  | hash hname => exact (quoteFree_hash hname).quoteAfter_none
  | word _ hname | function _ hname => exact (quoteFree_of_name hname.all).quoteAfter_none
  | url => exact absurd rfl hurl
  | number _ _ hdigits hunit => exact (quoteFree_number hdigits hunit).quoteAfter_none
  | other hquote => exact quoteStep_none hquote

/-- Where every argument ends the quotations it begins, no lexeme begins in a string. -/
theorem Lexed.spared {b : Before2} {ls : List Lexeme} (h : Lexed b ls)
    (hurl : ∀ l ∈ ls, l.kind = .url → Closed l.text) : s.Spared none ls := by
  induction h with
  | nil => exact trivial
  | @cons b l ls hhead htail ih =>
    obtain ⟨hl, hls⟩ := List.forall_mem_cons.mp hurl
    refine ⟨fun hne => absurd rfl hne, ?_⟩
    by_cases hlast : ls = []
    · rw [hlast]
      exact trivial
    · have hclosed : Closed l.text := by
        by_cases hkind : l.kind = .url
        · exact hl hkind
        · refine hhead.closed hkind ?_
          cases htail with
          | nil => exact absurd rfl hlast
          | cons hnext => exact List.append_ne_nil_of_left_ne_nil hnext.text_ne_nil _
      rw [hclosed]
      exact ih hls

/-- What is open at the end of a value is open at the end of it shortened. The strings of the two
are the same if and only if no lexeme that begins in one of them is shortened. So they are where the
argument of every `url()` ends the quotations it begins. -/
theorem Style.strings_shorten_iff (s : Style) (t : Text) :
    (Closed (s.shorten t) ↔ Closed t) ∧
      (strings (s.shorten t) = strings t ↔ s.Spared none (lexemes t)) ∧
      ((∀ l ∈ lexemes t, l.kind = .url → Closed l.text) → strings (s.shorten t) = strings t) := by
  obtain ⟨hlexed, htext⟩ := lexed_lexemesFrom (0, 0) t
  have hkept (hspared : s.Spared none (lexemes t)) : strings (s.shorten t) = strings t := by
    have hstrings := hlexed.stringsFrom_eq hspared []
    rwa [htext] at hstrings
  refine ⟨?_, ⟨fun hsame => (hlexed.quotedBytes_le none).2 ?_, hkept⟩, ?_⟩
  · have hafter := hlexed.quoteAfter_eq (s := s) none
    rw [htext] at hafter
    rw [Closed, Closed, ← hafter]
    rfl
  · have hlength := congrArg (·.flatten.length) hsame
    simp only [length_flatten_strings] at hlength
    rwa [htext]
  · exact fun hurl => hkept (hlexed.spared hurl)

/-- A color and a number in strings stay, and those outside them do not. -/
theorem labelValue_strings :
    let value := of "\"\\\"#ff0000\" url('b.png') 0.5em #ff0000 url( c )"
    (∀ l ∈ lexemes value, l.kind = .url → Closed l.text) ∧
      strings (Style.shorten {} value) = strings value ∧
      Style.shorten {} value = of "\"\\\"#ff0000\" url('b.png') .5em red url( c )" := by
  intro value
  have hurl : ∀ l ∈ lexemes value, l.kind = .url → Closed l.text := by decide +kernel
  exact ⟨hurl, (Style.strings_shorten_iff {} value).2.2 hurl, by decide +kernel⟩

/-- A number in a string that is the argument of a `url()`, behind a closing parenthesis. -/
theorem bracketedUrl_string_changed :
    let value := of "url(\"a)0.5em\")"
    Closed value ∧ strings value = [of "\"a)0.5em\""] ∧
      strings (Style.shorten {} value) = [of "\"a).5em\""] := by
  decide +kernel

end Stylesheet
