import Stylesheet.Proofs.Expression.Closed
import Stylesheet.Proofs.Expression.Scanning
import Stylesheet.Proofs.Source.Cursors

/-!
# Spans of tokens

The tokens of a text stand in it one after the other, and nothing but white space is between them.
Each spans at least one byte, so the next one is further on, and each but a string or a number
says what it spans. A name that is a function is followed at once by its parenthesis.

The same holds of the tokens inside a parenthesis, when the end is marked where it closes.

## Main definitions

* `Token.Stands` — a token that is a part of the text
* `Spanned` — tokens in order, with the end marked after them

## Main results

* `spanned_of_scan` — the tokens of a text
* `Spanned.inside` — the tokens inside a parenthesis
-/

namespace Stylesheet

open Text

namespace Token

/-- A token that is read at an offset with this text from there on. -/
structure Cut (offset : Nat) (text : Text) (t : Token) : Prop where
  start_eq : t.start = offset
  start_lt : offset < t.stop
  stop_le : t.stop ≤ offset + text.length
  kind_ne : t.kind ≠ .eof
  text_eq : t.kind ≠ .string → t.kind ≠ .number → t.text = text.take (t.stop - offset)
  number : t.kind = .number → offset + t.text.length + t.unit.length = t.stop
  call : t.kind = .function → head0 (text.drop (t.stop - offset)) = ch '('

variable {c : UInt8} {r : Text} {offset : Nat} {t : Token}

theorem nameWidth_le (t : Text) : nameWidth t ≤ t.length := (List.takeWhile_prefix _).length_le

theorem hexWidth_le (t : Text) : hexWidth t ≤ t.length := by
  have hdigits : (t.takeWhile isHex).length ≤ t.length := (List.takeWhile_prefix _).length_le
  unfold hexWidth
  dsimp only
  split_ifs
  · exact hdigits
  · exact Nat.zero_le _

theorem numberWidth_le (t : Text) : numberWidth t ≤ t.length := by
  have hwhole : (t.takeWhile isDigit).length ≤ t.length := (List.takeWhile_prefix _).length_le
  unfold numberWidth
  dsimp only
  split
  · rename_i d e r hdrop
    have hlength := congrArg List.length hdrop
    have hfraction : ((e :: r).takeWhile isDigit).length ≤ (e :: r).length :=
      (List.takeWhile_prefix _).length_le
    simp only [List.length_drop, List.length_cons] at hlength hfraction
    split_ifs <;> omega
  · exact hwhole

/-- A number starts with a digit, or with a point and a digit. -/
theorem numberWidth_pos (h : (isDigit c || (c = ch '.' && isDigit (head0 r))) = true) :
    0 < numberWidth (c :: r) := by
  by_cases hc : isDigit c = true
  · have hwhole : 0 < ((c :: r).takeWhile isDigit).length := by simp [hc]
    unfold numberWidth
    dsimp only
    split
    · split_ifs <;> omega
    · exact hwhole
  · cases r with
    | nil => simp [hc, head0, show isDigit 0 = false by decide] at h
    | cons d r =>
      have hpoint : (c = ch '.' && isDigit d) = true := by simpa [hc, head0] using h
      have hwhole : (c :: d :: r).takeWhile isDigit = [] := by simp [hc]
      simp only [numberWidth, hwhole, List.length_nil, List.drop_zero, hpoint, if_true]
      omega

theorem unitWidth_le (t : Text) : unitWidth t ≤ t.length := (List.takeWhile_prefix _).length_le

/-- A string ends in the text, after its opening quote. -/
theorem stringBody_width {q : UInt8} {body : Text} {width : Nat} {read text : Text} {n : Nat}
    (h : stringBody q width read body = some (text, n)) : width < n ∧ n ≤ width + body.length := by
  fun_induction stringBody q width read body with
  | case1 => cases h
  | case2 => cases h; simp
  | case3 => cases h
  | case4 width read c d r hescape ih =>
    have hrest := ih h
    simp only [List.length_cons] at hrest ⊢
    omega
  | case5 => cases h; simp
  | case6 width read c d r hescape hquote ih =>
    have hrest := ih h
    simp only [List.length_cons] at hrest ⊢
    omega

/-- A word or sign is at least one byte, and a function has its parenthesis after it. -/
theorem wordOrSign_spec (c : UInt8) (r : Text) :
    (wordOrSign c r).1 ∉ [.eof, .string, .number] ∧ 0 < (wordOrSign c r).2 ∧
      (wordOrSign c r).2 ≤ r.length + 1 ∧
      ((wordOrSign c r).1 = .function → head0 ((c :: r).drop (wordOrSign c r).2) = ch '(') := by
  have hword (word rest : Text) : wordKind word rest ∉ [.eof, .string, .number] ∧
      (wordKind word rest = .function → head0 rest = ch '(') := by
    unfold wordKind
    dsimp only
    split_ifs with hparen
    · exact ⟨by decide, fun _ => hparen⟩
    all_goals exact ⟨by decide, nofun⟩
  unfold wordOrSign
  dsimp only
  split_ifs with hminus hname hspace hvar hcolor hstart
  · have hwidth := nameWidth_le r
    obtain ⟨hkind, hcall⟩ := hword (c :: r.take (nameWidth r)) (r.drop (nameWidth r))
    exact ⟨hkind, Nat.succ_pos _, by omega, hcall⟩
  · exact ⟨by decide, Nat.one_pos, by omega, nofun⟩
  · exact ⟨by decide, Nat.one_pos, by omega, nofun⟩
  · have hwidth := nameWidth_le r
    exact ⟨by simp, Nat.succ_pos _, by omega, nofun⟩
  · have hwidth := hexWidth_le r
    exact ⟨by simp, Nat.succ_pos _, by omega, nofun⟩
  · have hwidth := nameWidth_le (c :: r)
    have hpos : 0 < nameWidth (c :: r) := by
      have hchar : isNameChar c = true := by simp [isNameChar, hstart]
      simp [nameWidth, hchar]
    obtain ⟨hkind, hcall⟩ :=
      hword ((c :: r).take (nameWidth (c :: r))) ((c :: r).drop (nameWidth (c :: r)))
    exact ⟨hkind, hpos, hwidth, hcall⟩
  · exact ⟨by decide, Nat.one_pos, by omega, nofun⟩

/-- A token whose text is what it spans. -/
theorem cut_take {text : Text} {k : TokenKind} {n : Nat} (hkind : k ≠ .eof) (hnumber : k ≠ .number)
    (hpos : 0 < n) (hn : n ≤ text.length) (hcall : k = .function → head0 (text.drop n) = ch '(') :
    Cut offset text ⟨k, text.take n, offset, offset + n, none, []⟩ := by
  have hwidth : offset + n - offset = n := by omega
  exact ⟨rfl, Nat.lt_add_of_pos_right hpos, Nat.add_le_add_left hn offset, hkind,
    fun _ _ => by rw [hwidth], fun h => absurd h hnumber, fun h => by rw [hwidth]; exact hcall h⟩

theorem cut_of_lex (h : lex offset c r = .ok t) : Cut offset (c :: r) t := by
  unfold lex at h
  dsimp only at h
  split at h
  · rename_i k n hk
    cases h
    obtain ⟨hkind, hwidth⟩ := punctuation?_spec _ hk
    have hn : 0 < n ∧ n ≤ (c :: r).length := by
      obtain rfl | ⟨rfl, hd⟩ : n = 1 ∨ n = 2 ∧ head0 r = ch '=' := hwidth
      · exact ⟨Nat.one_pos, Nat.succ_pos _⟩
      · have hr : r ≠ [] := by
          rintro rfl
          exact absurd hd (by decide)
        exact ⟨Nat.two_pos, Nat.succ_le_succ (List.length_pos_iff.mpr hr)⟩
    simp only [List.mem_cons, List.not_mem_nil, or_false, not_or] at hkind
    exact cut_take hkind.1 hkind.2.2.1 hn.1 hn.2 fun hf => absurd hf hkind.2.2.2.2
  split_ifs at h with hquote hnumber
  · split at h
    · rename_i body n hbody
      cases h
      obtain ⟨hpos, hn⟩ := stringBody_width hbody
      exact ⟨rfl, by simp only; omega, by simp only [List.length_cons]; omega, nofun,
        fun hstring => absurd rfl hstring, nofun, nofun⟩
    · cases h
  · cases h
    have hn := numberWidth_le (c :: r)
    have hu := unitWidth_le ((c :: r).drop (numberWidth (c :: r)))
    have hpos := numberWidth_pos hnumber
    rw [List.length_drop] at hu
    refine ⟨rfl, by simp only; omega, by simp only; omega, nofun,
      fun _ hnot => absurd rfl hnot, fun _ => ?_, nofun⟩
    simp only [List.length_take, List.length_drop]
    omega
  · cases h
    obtain ⟨hkind, hpos, hn, hcall⟩ := wordOrSign_spec c r
    simp only [List.mem_cons, List.not_mem_nil, or_false, not_or] at hkind
    exact cut_take hkind.1 hkind.2.2 hpos hn hcall

/-- A token that is a part of the text. -/
structure Stands (source : Text) (t : Token) : Prop where
  start_lt : t.start < t.stop
  stop_le : t.stop ≤ source.length
  kind_ne : t.kind ≠ .eof
  text_eq : t.kind ≠ .string → t.kind ≠ .number → t.text = slice source t.start t.stop
  number : t.kind = .number → t.start + t.text.length + t.unit.length = t.stop

theorem Cut.stands {source : Text} (h : Cut offset (source.drop offset) t)
    (hoffset : offset ≤ source.length) : Stands source t := by
  obtain ⟨rfl, hlt, hle, hkind, htext, hnumber, -⟩ := h
  rw [List.length_drop] at hle
  refine ⟨hlt, by omega, hkind, fun hstring hnum => ?_, hnumber⟩
  rw [htext hstring hnum, slice, List.drop_take]

end Token

/-! ### Tokens in order -/

/-- Tokens that stand in the text from a position on, in order, with the end marked after them. A
function is followed at once by its parenthesis. -/
inductive Spanned (source : Text) (stop : Nat) : (pos : Nat) → List Token → Prop
  | done {pos : Nat} (h : pos ≤ stop) : Spanned source stop pos [Token.endAt stop]
  | token {pos : Nat} {t : Token} {ts : List Token} (hpos : pos ≤ t.start) (ht : t.Stands source)
      (hcall : t.kind = .function → ts.head? = some ⟨.lparen, [ch '('], t.stop, t.stop + 1, none, []⟩)
      (hrest : Spanned source stop t.stop ts) : Spanned source stop pos (t :: ts)

variable {source : Text} {pos stop : Nat} {t : Token} {ts : List Token}

/-- Passing the bytes of a token. -/
theorem scanFrom_drop {text : Text} {skip : Nat} (h : skip ≤ text.length) (offset : Nat) :
    Token.scanFrom skip offset text = Token.scanFrom 0 (offset + skip) (text.drop skip) := by
  have hskip := scanFrom_skip (text.take skip) (text.drop skip) offset
  rwa [List.take_append_drop, List.length_take_of_le h] at hskip

theorem exists_of_map_eq_ok {ε α β : Type} {x : Except ε α} {f : α → β} {b : β}
    (h : x.map f = .ok b) : ∃ a, x = .ok a ∧ f a = b := by
  cases x with
  | error e => cases h
  | ok a => exact ⟨a, rfl, Except.ok.inj h⟩

/-- One token, and then those from its end on. -/
theorem scanFrom_token {c : UInt8} {r : Text} {offset : Nat} (hspace : isSpace c = false)
    (hlex : Token.lex offset c r = .ok t) : Token.scanFrom 0 offset (c :: r) =
      (Token.scanFrom 0 t.stop ((c :: r).drop (t.stop - offset))).map (t :: ·) := by
  have hcut := Token.cut_of_lex hlex
  have hle := hcut.stop_le
  rw [List.length_cons] at hle
  obtain ⟨width, hwidth⟩ := Nat.exists_eq_add_of_lt hcut.start_lt
  have hskip : t.stop - offset - 1 = width := by omega
  have hstop : offset + 1 + width = t.stop := by omega
  have hdrop : t.stop - offset = width + 1 := by omega
  rw [Token.scanFrom, if_neg (by simp [hspace]), hlex, hdrop, List.drop_succ_cons]
  change Token.scanFrom (t.stop - offset - 1) (offset + 1) r >>= _ = _
  rw [hskip, scanFrom_drop (by omega), hstop]
  cases Token.scanFrom 0 t.stop (r.drop width) <;> rfl

/-- A parenthesis at an offset is the token there. -/
theorem head?_of_scanFrom {text : Text} {offset : Nat} (hparen : head0 text = ch '(')
    (h : Token.scanFrom 0 offset text = .ok ts) :
    ts.head? = some ⟨.lparen, [ch '('], offset, offset + 1, none, []⟩ := by
  cases text with
  | nil => exact absurd hparen (by decide)
  | cons c r =>
    obtain rfl : c = ch '(' := hparen
    have hlex : Token.lex offset (ch '(') r =
        .ok ⟨.lparen, [ch '('], offset, offset + 1, none, []⟩ := rfl
    rw [scanFrom_token (by decide) hlex] at h
    obtain ⟨us, -, rfl⟩ := exists_of_map_eq_ok h
    rfl

theorem Spanned.mono {pos' : Nat} (h : Spanned source stop pos ts) (hpos : pos' ≤ pos) :
    Spanned source stop pos' ts := by
  cases h with
  | done h => exact .done (hpos.trans h)
  | token h ht hcall hrest => exact .token (hpos.trans h) ht hcall hrest

/-- The tokens from an offset on, by induction on the bytes that are left. -/
theorem spanned_of_scanFrom {offset : Nat} (hoffset : offset ≤ source.length)
    (h : Token.scanFrom 0 offset (source.drop offset) = .ok ts) :
    Spanned source source.length offset ts := by
  induction hn : source.length - offset using Nat.strong_induction_on generalizing offset ts with
  | _ n ih =>
    cases hdrop : source.drop offset with
    | nil =>
      obtain rfl : offset = source.length := Nat.le_antisymm hoffset (List.drop_eq_nil_iff.mp hdrop)
      rw [hdrop] at h
      cases h
      exact .done le_rfl
    | cons c r =>
      have hlt : offset < source.length := by
        by_contra hge
        simp [List.drop_eq_nil_of_le (Nat.le_of_not_lt hge)] at hdrop
      rw [hdrop] at h
      by_cases hspace : isSpace c = true
      · have hrest : source.drop (offset + 1) = r := by rw [← List.tail_drop, hdrop, List.tail_cons]
        rw [Token.scanFrom, if_pos hspace, ← hrest] at h
        exact (ih _ (by omega) hlt h rfl).mono (Nat.le_succ offset)
      · cases hlex : Token.lex offset c r with
        | error cause =>
          rw [Token.scanFrom, if_neg hspace, hlex] at h
          cases h
        | ok t =>
          have hcut : Token.Cut offset (source.drop offset) t := hdrop ▸ Token.cut_of_lex hlex
          have hstands := hcut.stands hoffset
          have hstart := hcut.start_lt
          have hdropped : (source.drop offset).drop (t.stop - offset) = source.drop t.stop := by
            rw [List.drop_drop, Nat.add_sub_cancel' hstart.le]
          rw [scanFrom_token (by simpa using hspace) hlex, ← hdrop, hdropped] at h
          obtain ⟨us, hscan, rfl⟩ := exists_of_map_eq_ok h
          refine .token hcut.start_eq.ge hstands (fun hkind => ?_)
            (ih _ (by omega) hstands.stop_le hscan rfl)
          exact head?_of_scanFrom (hdropped ▸ hcut.call hkind) hscan

/-- The tokens of a text. -/
theorem spanned_of_scan (h : Token.scan source = .ok ts) : Spanned source source.length 0 ts :=
  spanned_of_scanFrom (Nat.zero_le _) h

/-! ### Parentheses -/

/-- What a parenthesis closes stands before it, and the rest after it. -/
theorem closing?_eq {depth : Nat} {inside after : List Token} {close : Token}
    (h : Expr.closing? depth ts = some (inside, close, after)) :
    ts = inside ++ close :: after ∧ close.kind = .rparen := by
  induction ts generalizing depth inside with
  | nil => cases h
  | cons u ts ih =>
    have hdeeper {depth : Nat}
        (hsome : ((Expr.closing? depth ts).map fun found => (u :: found.1, found.2)) =
          some (inside, close, after)) :
        u :: ts = inside ++ close :: after ∧ close.kind = .rparen := by
      obtain ⟨⟨inside', found⟩, hfound, heq⟩ := Option.map_eq_some_iff.mp hsome
      cases heq
      obtain ⟨heq, hkind⟩ := ih hfound
      exact ⟨congrArg (u :: ·) heq, hkind⟩
    unfold Expr.closing? at h
    split at h
    · cases h
      exact ⟨rfl, ‹_›⟩
    · exact hdeeper h
    · exact hdeeper h
    · exact hdeeper h

namespace Spanned

theorem le_stop (h : Spanned source stop pos ts) : pos ≤ stop := by
  induction h with
  | done h => exact h
  | token hpos ht _ _ ih => exact hpos.trans (ht.start_lt.le.trans ih)

/-- The first token and those after it. -/
theorem cons (hkind : t.kind ≠ .eof) (h : Spanned source stop pos (t :: ts)) :
    pos ≤ t.start ∧ t.Stands source ∧
      (t.kind = .function → ts.head? = some ⟨.lparen, [ch '('], t.stop, t.stop + 1, none, []⟩) ∧
      Spanned source stop t.stop ts := by
  cases h with
  | done => exact absurd rfl hkind
  | token hpos ht hcall hrest => exact ⟨hpos, ht, hcall, hrest⟩

/-- Nothing is after the end. -/
theorem end_eq (hkind : t.kind = .eof) (h : Spanned source stop pos (t :: ts)) :
    t = Token.endAt stop ∧ ts = [] := by
  cases h with
  | done => exact ⟨rfl, rfl⟩
  | token _ ht _ _ => exact absurd hkind ht.kind_ne

/-- What is inside a parenthesis is in order with the end marked where it closes, and so is what is
after it. -/
theorem inside {inside after : List Token} {close : Token} (hclose : close.kind = .rparen)
    (h : Spanned source stop pos (inside ++ close :: after)) :
    Spanned source close.start pos (inside ++ [Token.endAt close.start]) ∧ close.Stands source ∧
      Spanned source stop close.stop after := by
  induction inside generalizing pos with
  | nil =>
    obtain ⟨hpos, ht, -, hrest⟩ := h.cons (by simp [hclose])
    exact ⟨.done hpos, ht, hrest⟩
  | cons t inside ih =>
    have hkind : t.kind ≠ .eof := fun hend => by simpa using (h.end_eq hend).2
    obtain ⟨hpos, ht, hcall, hrest⟩ := h.cons hkind
    obtain ⟨hinside, hafter⟩ := ih hrest
    refine ⟨.token hpos ht (fun hkind => ?_) hinside, hafter⟩
    have hhead := hcall hkind
    -- What follows a function is its own parenthesis and not the one that closes.
    cases inside with
    | nil =>
      cases hhead
      exact nomatch hclose
    | cons u inside => exact hhead

end Spanned

end Stylesheet
