import Stylesheet.Proofs.Expression.Spans
import Stylesheet.Proofs.Text.Words
import Stylesheet.Value

/-!
# Coverage

The tokens of a text cover it. Each but the mark of the end spans at least one byte, each starts
where the one before it has stopped or further on, and every byte that no token spans is white
space.

A string is read without its quotation marks and escapes, and written with them. As the only escape
is that of the quotation mark the string is in, what is written is what was read.

## Main definitions

* `Covers` — tokens in order with white space between them, strings as they are written

## Main results

* `exists_of_stringBody` — a string is written as it was read, by induction on its bytes
* `covers_of_scanFrom` — the tokens from an offset on, by induction on the bytes that are left
* `scan_covers` — the tokens of a text
-/

namespace Stylesheet

open Text

/-! ### Strings -/

/-- The rest of a string up to its closing mark is the rest of what is read of it, with the mark
escaped. -/
theorem exists_of_stringBody {q : UInt8} {width n : Nat} {read body text : Text}
    (h : Token.stringBody q width read body = some (text, n)) : ∃ t m,
      text = read.reverse ++ t ∧ n = width + m ∧
        replace [q] [ch '\\', q] t ++ [q] = body.take m := by
  simp only [replace_singleton]
  fun_induction Token.stringBody q width read body with
  | case1 => cases h
  | case2 width read =>
    cases h
    exact ⟨[], 1, by simp, rfl, rfl⟩
  | case3 => cases h
  | case4 width read c d r hescape ih =>
    obtain ⟨t, m, rfl, rfl, hbody⟩ := ih h
    simp only [Bool.and_eq_true, decide_eq_true_eq] at hescape
    obtain ⟨rfl, rfl⟩ := hescape
    -- An escaped mark is read as the mark, and is the only byte that is written as two.
    refine ⟨d :: t, m + 2, by simp, by omega, ?_⟩
    rw [List.flatMap_cons, if_pos rfl, List.take_succ_cons, List.take_succ_cons, ← hbody]
    rfl
  | case5 width read d r =>
    cases h
    exact ⟨[], 1, by simp, rfl, rfl⟩
  | case6 width read c d r hescape hquote ih =>
    obtain ⟨t, m, rfl, rfl, hbody⟩ := ih h
    refine ⟨c :: t, m + 1, by simp, by omega, ?_⟩
    rw [List.flatMap_cons, if_neg hquote, List.take_succ_cons, ← hbody]
    rfl

theorem of_isQuote {c : UInt8} (hc : isQuote c = true) : of (Char.ofUInt8 c).toString = [c] := by
  simp only [isQuote, Bool.or_eq_true, decide_eq_true_eq] at hc
  obtain rfl | rfl := hc <;> decide

/-- A string token is written as the bytes it spans. -/
theorem text_of_lex {c : UInt8} {r : Text} {offset : Nat} {t : Token}
    (h : Token.lex offset c r = .ok t) (hkind : t.kind = .string) :
    (Value.string t.text t.quote).text = (c :: r).take (t.stop - offset) := by
  unfold Token.lex at h
  dsimp only at h
  split at h
  · rename_i k n hk
    cases h
    obtain rfl : k = .string := hkind
    exact absurd (by simp) (Token.punctuation?_spec _ hk).1
  split_ifs at h with hquote hnumber
  · split at h
    · rename_i text n hbody
      cases h
      obtain ⟨t, m, rfl, rfl, hwritten⟩ := exists_of_stringBody hbody
      have hwidth : offset + (1 + m) - offset = m + 1 := by omega
      rw [Value.text, quotedWith, of_isQuote hquote, hwidth, List.take_succ_cons, ← hwritten]
      rfl
    · cases h
  · cases h
    cases hkind
  · cases h
    have hclass := (Token.wordOrSign_spec c r).1
    rw [show (Token.wordOrSign c r).1 = .string from hkind] at hclass
    exact absurd hclass (by decide)

/-! ### Tokens -/

/-- Tokens of a text from a position on, in order and with the end marked after them. The bytes of
the text that are in none of them are white space, and a string is written as it stands there. -/
inductive Covers (source : Text) : (pos : Nat) → List Token → Prop
  | done {pos : Nat} (hpos : pos ≤ source.length)
      (hspace : ∀ i c, pos ≤ i → source[i]? = some c → isSpace c = true) :
    Covers source pos [Token.endAt source.length]
  | token {pos : Nat} {t : Token} {ts : List Token} (hpos : pos ≤ t.start) (hlt : t.start < t.stop)
      (hkind : t.kind ≠ .eof)
      (hspace : ∀ i c, pos ≤ i → i < t.start → source[i]? = some c → isSpace c = true)
      (hstring : t.kind = .string →
        (Value.string t.text t.quote).text = slice source t.start t.stop)
      (hrest : Covers source t.stop ts) : Covers source pos (t :: ts)

namespace Covers

variable {source : Text} {pos : Nat} {ts : List Token}

/-- White space before the tokens of a text belongs to none of them. -/
theorem of_space {c : UInt8} (hc : source[pos]? = some c) (hspace : isSpace c = true)
    (h : Covers source (pos + 1) ts) : Covers source pos ts := by
  have hat {i : Nat} {d : UInt8} (hi : pos ≤ i) (hd : source[i]? = some d)
      (hlater : pos + 1 ≤ i → isSpace d = true) : isSpace d = true := by
    obtain rfl | hlt := Nat.eq_or_lt_of_le hi
    · rwa [← Option.some.inj (hc.symm.trans hd)]
    · exact hlater hlt
  cases h with
  | done hpos hspace =>
    exact .done (Nat.le_of_succ_le hpos) fun i d hi hd => hat hi hd fun hlt => hspace i d hlt hd
  | token hpos hlt hkind hspace hstring hrest =>
    refine .token (Nat.le_of_succ_le hpos) hlt hkind ?_ hstring hrest
    intro i d hi hstart hd
    exact hat hi hd fun hlt => hspace i d hlt hstart hd

/-- Only the last token marks the end, and all others span a byte. -/
theorem exists_front (h : Covers source pos ts) : ∃ front,
    ts = front ++ [Token.endAt source.length] ∧ ∀ t ∈ front, t.kind ≠ .eof ∧ t.start < t.stop := by
  induction h with
  | done => exact ⟨[], rfl, nofun⟩
  | @token pos t ts hpos hlt hkind hspace hstring hrest ih =>
    obtain ⟨front, rfl, hfront⟩ := ih
    exact ⟨t :: front, rfl, List.forall_mem_cons.mpr ⟨⟨hkind, hlt⟩, hfront⟩⟩

theorem pos_le_start (h : Covers source pos ts) : ∀ t ∈ ts, pos ≤ t.start := by
  induction h with
  | done hpos => simpa [Token.endAt] using hpos
  | token hpos hlt hkind hspace hstring hrest ih =>
    refine List.forall_mem_cons.mpr ⟨hpos, ?_⟩
    intro u hu
    exact (hpos.trans hlt.le).trans (ih u hu)

theorem pairwise (h : Covers source pos ts) :
    ts.Pairwise fun t u => t.start < u.start ∧ t.stop ≤ u.start := by
  induction h with
  | done => exact List.pairwise_singleton _ _
  | token hpos hlt hkind hspace hstring hrest ih =>
    apply List.pairwise_cons.mpr
    refine ⟨?_, ih⟩
    intro u hu
    have hle := hrest.pos_le_start u hu
    exact ⟨hlt.trans_le hle, hle⟩

/-- A byte that no token spans is white space. -/
theorem isSpace_of_forall (h : Covers source pos ts) {i : Nat} {c : UInt8} (hi : pos ≤ i)
    (hc : source[i]? = some c) (hfree : ∀ t ∈ ts, ¬ (t.start ≤ i ∧ i < t.stop)) :
    isSpace c = true := by
  induction h with
  | done hpos hspace => exact hspace i c hi hc
  | @token pos t ts hpos hlt hkind hspace hstring hrest ih =>
    obtain ⟨hthis, hothers⟩ := List.forall_mem_cons.mp hfree
    by_cases hstart : i < t.start
    · exact hspace i c hi hstart hc
    · exact ih (by omega) hothers

theorem text_string (h : Covers source pos ts) : ∀ t ∈ ts, t.kind = .string →
    (Value.string t.text t.quote).text = slice source t.start t.stop := by
  induction h with
  | done => simp [Token.endAt]
  | token hpos hlt hkind hspace hstring hrest ih => exact List.forall_mem_cons.mpr ⟨hstring, ih⟩

end Covers

/-- The tokens from an offset on, by induction on the bytes that are left. -/
theorem covers_of_scanFrom {source : Text} {offset : Nat} {ts : List Token}
    (hoffset : offset ≤ source.length)
    (h : Token.scanFrom 0 offset (source.drop offset) = .ok ts) : Covers source offset ts := by
  induction hn : source.length - offset using Nat.strong_induction_on generalizing offset ts with
  | _ n ih =>
    cases hdrop : source.drop offset with
    | nil =>
      obtain rfl : offset = source.length := Nat.le_antisymm hoffset (List.drop_eq_nil_iff.mp hdrop)
      rw [hdrop] at h
      cases h
      -- at the end no byte is left
      apply Covers.done le_rfl
      intro i c hi hc
      rw [List.getElem?_eq_none hi] at hc
      cases hc
    | cons c r =>
      have hc : source[offset]? = some c := by
        rw [← Nat.add_zero offset, ← List.getElem?_drop, hdrop, List.getElem?_cons_zero]
      obtain ⟨hlt, -⟩ := List.getElem?_eq_some_iff.mp hc
      rw [hdrop] at h
      by_cases hspace : isSpace c = true
      · have hrest : source.drop (offset + 1) = r := by rw [← List.tail_drop, hdrop, List.tail_cons]
        rw [Token.scanFrom, if_pos hspace, ← hrest] at h
        exact (ih _ (by omega) hlt h rfl).of_space hc hspace
      · cases hlex : Token.lex offset c r with
        | error cause =>
          rw [Token.scanFrom, if_neg hspace, hlex] at h
          cases h
        | ok t =>
          have hcut : Token.Cut offset (source.drop offset) t := hdrop ▸ Token.cut_of_lex hlex
          have hstop := (hcut.stands hoffset).stop_le
          have hstart := hcut.start_lt
          have hdropped : (c :: r).drop (t.stop - offset) = source.drop t.stop := by
            rw [← hdrop, List.drop_drop, Nat.add_sub_cancel' hstart.le]
          rw [scanFrom_token (by simpa using hspace) hlex, hdropped] at h
          obtain ⟨us, hscan, rfl⟩ := exists_of_map_eq_ok h
          obtain rfl := hcut.start_eq
          -- A token starts where it is looked for, so no byte is left out before it.
          refine .token le_rfl hstart hcut.kind_ne ?_ ?_ (ih _ (by omega) hstop hscan rfl)
          · intro i d hi hbefore
            exact absurd hbefore hi.not_gt
          · intro hkind
            rw [text_of_lex hlex hkind, ← hdrop, slice, List.drop_take]

/-- The tokens of a text that can be read as tokens. The last one marks the end, and each other one
spans at least one byte. They stand in strict order and do not overlap, and each byte that is in
none of them is white space. A string is written as it stands in the text. -/
theorem scan_covers {source : Text} {ts : List Token} (h : Token.scan source = .ok ts) :
    (∃ front, ts = front ++ [Token.endAt source.length] ∧
      ∀ t ∈ front, t.kind ≠ .eof ∧ t.start < t.stop) ∧
    (ts.Pairwise fun t u => t.start < u.start ∧ t.stop ≤ u.start) ∧
    (∀ i c, source[i]? = some c → (∀ t ∈ ts, ¬ (t.start ≤ i ∧ i < t.stop)) → isSpace c = true) ∧
    ∀ t ∈ ts, t.kind = .string →
      (Value.string t.text t.quote).text = slice source t.start t.stop := by
  have hcovers : Covers source 0 ts := covers_of_scanFrom (Nat.zero_le _) h
  refine ⟨hcovers.exists_front, hcovers.pairwise, ?_, hcovers.text_string⟩
  intro i c hc hfree
  exact hcovers.isSpace_of_forall (Nat.zero_le i) hc hfree

/-- A string with its own mark in it, and white space on both sides. -/
theorem escapedMark_covered :
    let source := of " 'it\\'s' + $n"
    let string : Token := ⟨.string, of "it's", 1, 8, some '\'', []⟩
    let ts := [string, ⟨.plus, of "+", 9, 10, none, []⟩, ⟨.var, of "$n", 11, 13, none, []⟩,
      Token.endAt 13]
    Token.scan source = .ok ts ∧ string ∈ ts ∧
      (Value.string string.text string.quote).text = slice source string.start string.stop ∧
      (source[8]? = some (ch ' ') ∧ ∀ t ∈ ts, ¬ (t.start ≤ 8 ∧ 8 < t.stop)) ∧
      isSpace (ch ' ') = true := by
  intro source string ts
  have hscan : Token.scan source = .ok ts := rfl
  obtain ⟨-, -, hspace, hstring⟩ := scan_covers hscan
  have hfree : source[8]? = some (ch ' ') ∧ ∀ t ∈ ts, ¬ (t.start ≤ 8 ∧ 8 < t.stop) := by decide
  exact ⟨hscan, List.mem_cons_self, hstring string List.mem_cons_self rfl, hfree,
    hspace 8 _ hfree.1 hfree.2⟩

end Stylesheet
