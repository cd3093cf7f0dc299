import Stylesheet.Proofs.Source.Literals
import Stylesheet.Proofs.Source.Origins

/-!
# What a source is made of

A source is read from left to right as strings, comments and bytes of anything else. This file
says so without the normalizer, and then shows that the normalizer reads sources that way: it
drops the comments, protects the strings and keeps the rest.

A comment is a block comment that ends, or a line comment that follows no scheme. A block
comment that does not end is none, but it ends the reading: the source is kept from there on,
strings and comments in it included. How a source would be read if it did not is said as
well, with `stops` as a parameter.

## Main definitions

* `Strand` — a string, a comment, a byte of anything else, or a rest that is not read
* `Strands` — a source read as strands
* `Strand.image` — what the normalizer writes for a strand
* `Shielded` — no structural byte in a string but in interpolations

## Main results

* `exists_strands` — every source can be read
* `Strands.normalize_eq` — a normalized source is what is written for its strands
* `shielded_quoted` — the strings in it are shielded
-/

namespace Stylesheet

open Text

/-! ### Strands -/

/-- A part of a source. -/
inductive Strand where
  /-- A string. -/
  | quoted (text : Text)
  /-- A comment. -/
  | comment (text : Text)
  /-- All from a block comment without an end on. -/
  | unread (text : Text)
  /-- A byte of anything else. -/
  | byte (c : UInt8)

namespace Strand

/-- What the strand is in the source. -/
def text : Strand → Text
  | .quoted t => t
  | .comment t => t
  | .unread t => t
  | .byte c => [c]

/-- What is left of a strand without comments. -/
def kept : Strand → Text
  | .comment _ => []
  | s => s.text

/-- What the normalizer writes for a strand. -/
def image : Strand → Text
  | .quoted t => (protectFrom 0 0 t).map (·.1)
  | s => s.kept

end Strand

/-- A text ends in two word characters and a colon. -/
def EndsInScheme (t : Text) : Prop :=
  ∃ u x y, t = u ++ [x, y, ch ':'] ∧ isWord x = true ∧ isWord y = true

/-- A text that starts with a string or a comment, after the text `before`; with a block
comment that does not end, if that stops the reading. -/
inductive Opens (stops : Bool) (before : Text) : Text → Prop
  | quoted {q : UInt8} {r rest : Text} (hq : isQuote q = true) (hr : Closing q r) :
    Opens stops before (q :: (r ++ rest))
  | block {u rest : Text} :
    Opens stops before (ch '/' :: ch '*' :: (u ++ ch '*' :: ch '/' :: rest))
  | line {rest : Text} (hscheme : ¬EndsInScheme before) :
    Opens stops before (ch '/' :: ch '/' :: rest)
  | unread {rest : Text} (hstops : stops = true) :
    Opens stops before (ch '/' :: ch '*' :: rest)

/-- A text read as strands, after the text `before`. -/
inductive Strands (stops : Bool) : (before : Text) → Text → List Strand → Prop
  | nil {before : Text} : Strands stops before [] []
  | quoted {before : Text} {q : UInt8} {r rest : Text} {ss : List Strand}
      (hq : isQuote q = true) (hr : Closing q r)
      (hrest : Strands stops (before ++ q :: r) rest ss) :
    Strands stops before (q :: (r ++ rest)) (.quoted (q :: r) :: ss)
  | block {before u rest : Text} {ss : List Strand} (hu : ¬[ch '*', ch '/'] <:+: u)
      (hrest : Strands stops (before ++ ch '/' :: ch '*' :: (u ++ [ch '*', ch '/'])) rest ss) :
    Strands stops before (ch '/' :: ch '*' :: (u ++ ch '*' :: ch '/' :: rest))
      (.comment (ch '/' :: ch '*' :: (u ++ [ch '*', ch '/'])) :: ss)
  | line {before u rest : Text} {ss : List Strand} (hscheme : ¬EndsInScheme before)
      (hu : ch '\n' ∉ u) (hend : ∀ c ∈ rest.head?, c = ch '\n')
      (hrest : Strands stops (before ++ ch '/' :: ch '/' :: u) rest ss) :
    Strands stops before (ch '/' :: ch '/' :: (u ++ rest))
      (.comment (ch '/' :: ch '/' :: u) :: ss)
  | unread {before u : Text} (hstops : stops = true) (hu : ¬[ch '*', ch '/'] <:+: u) :
    Strands stops before (ch '/' :: ch '*' :: u) [.unread (ch '/' :: ch '*' :: u)]
  | byte {before : Text} {c : UInt8} {rest : Text} {ss : List Strand}
      (hplain : ¬Opens stops before (c :: rest)) (hrest : Strands stops (before ++ [c]) rest ss) :
    Strands stops before (c :: rest) (.byte c :: ss)

section Reading

variable {stops : Bool} {before t : Text} {ss : List Strand}

/-- What the first bytes of a string or a comment are. -/
theorem Opens.first {c : UInt8} (h : Opens stops before (c :: t)) :
    isQuote c = true ∨
      c = ch '/' ∧ ((∃ u, t = ch '*' :: u ∧ ([ch '*', ch '/'] <:+: u ∨ stops = true)) ∨
        ∃ u, t = ch '/' :: u) := by
  generalize heq : c :: t = v at h
  cases h with
  | quoted hq _ =>
    obtain ⟨rfl, -⟩ := List.cons.inj heq
    exact .inl hq
  | @block u rest =>
    obtain ⟨rfl, rfl⟩ := List.cons.inj heq
    exact .inr ⟨rfl, .inl ⟨_, rfl, .inl ⟨u, rest, by simp⟩⟩⟩
  | line _ =>
    obtain ⟨rfl, rfl⟩ := List.cons.inj heq
    exact .inr ⟨rfl, .inr ⟨_, rfl⟩⟩
  | unread hstops =>
    obtain ⟨rfl, rfl⟩ := List.cons.inj heq
    exact .inr ⟨rfl, .inl ⟨_, rfl, .inr hstops⟩⟩

/-- The strands of a text are all of it. -/
theorem Strands.text_eq (h : Strands stops before t ss) : ss.flatMap Strand.text = t := by
  induction h with
  | nil => rfl
  | quoted _ _ _ ih => rw [List.flatMap_cons, ih]; rfl
  | block _ _ ih => rw [List.flatMap_cons, ih]; simp [Strand.text]
  | line _ _ _ _ ih => rw [List.flatMap_cons, ih]; rfl
  | unread => simp [Strand.text]
  | byte _ _ ih => rw [List.flatMap_cons, ih]; rfl

/-- A text in which another occurs, up to where it occurs first. -/
theorem exists_first_infix {p t : Text} (h : p <:+: t) :
    ∃ u v, t = u ++ p ++ v ∧ ∀ n < u.length, ¬p <+: t.drop n := by
  classical
  have hplace : ∃ n, p <+: t.drop n := by
    obtain ⟨u, v, rfl⟩ := h
    exact ⟨u.length, v, by simp⟩
  obtain ⟨v, hv⟩ := Nat.find_spec hplace
  refine ⟨t.take (Nat.find hplace), v, ?_, fun n hn => Nat.find_min hplace ?_⟩
  · rw [List.append_assoc, hv, List.take_append_drop]
  · exact Nat.lt_of_lt_of_le hn (List.length_take_le _ _)

/-- A block comment ends where its end comes first. -/
theorem exists_first_close {t : Text} (h : [ch '*', ch '/'] <:+: t) :
    ∃ u v, t = u ++ ch '*' :: ch '/' :: v ∧ ¬[ch '*', ch '/'] <:+: u := by
  obtain ⟨u, v, rfl, hfirst⟩ := exists_first_infix h
  refine ⟨u, v, by simp, ?_⟩
  rintro ⟨x, y, hu⟩
  have hlength := congrArg List.length hu
  simp only [List.length_append, List.length_cons, List.length_nil] at hlength
  refine hfirst x.length (by omega) ⟨y ++ [ch '*', ch '/'] ++ v, ?_⟩
  rw [← hu]
  simp

/-- Every text can be read, by induction on its length. -/
theorem exists_strands (stops : Bool) (before t : Text) : ∃ ss, Strands stops before t ss := by
  -- what comes after the strand at the front is shorter
  induction hn : t.length using Nat.strongRecOn generalizing before t with
  | _ n ih =>
    have hnext {u : Text} (hu : u.length < t.length) (before : Text) :
        ∃ ss, Strands stops before u ss := ih u.length (hn ▸ hu) before u rfl
    by_cases hopens : Opens stops before t
    · -- a block comment with an end is one, whether or not one without stops the reading
      have hblock {u : Text} (ht : t = ch '/' :: ch '*' :: u) (hu : [ch '*', ch '/'] <:+: u) :
          ∃ ss, Strands stops before t ss := by
        obtain ⟨u, rest, rfl, hfirst⟩ := exists_first_close hu
        obtain ⟨ss, hss⟩ := hnext (u := rest) (by simp [ht]; omega) _
        exact ⟨_, ht ▸ Strands.block hfirst hss⟩
      cases hopens with
      | @quoted q r rest hq hr =>
        obtain ⟨ss, hss⟩ := hnext (u := rest) (by simp) _
        exact ⟨_, .quoted hq hr hss⟩
      | @block u rest => exact hblock rfl ⟨u, rest, by simp⟩
      | @line rest hscheme =>
        have hsplit := List.takeWhile_append_dropWhile (p := fun c => c ≠ ch '\n') (l := rest)
        have hless : (rest.dropWhile fun c => c ≠ ch '\n').length ≤ rest.length :=
          List.length_dropWhile_le _ _
        -- the comment is what stands before the next line end
        obtain ⟨ss, hss⟩ := hnext (u := rest.dropWhile fun c => c ≠ ch '\n')
          (by simp only [List.length_cons]; omega) _
        refine ⟨_, hsplit ▸ Strands.line hscheme (fun hmem => ?_) (fun c hc => ?_) hss⟩
        · simpa using List.mem_takeWhile_imp hmem
        · have hhead := List.head?_dropWhile_not (fun c => c ≠ ch '\n') rest
          rw [Option.mem_def.mp hc] at hhead
          simpa using hhead
      | @unread rest hstops =>
        by_cases hu : [ch '*', ch '/'] <:+: rest
        · exact hblock rfl hu
        · exact ⟨_, .unread hstops hu⟩
    · cases t with
      | nil => exact ⟨[], .nil⟩
      | cons c rest =>
        obtain ⟨ss, hss⟩ := hnext (u := rest) (by simp) _
        exact ⟨_, .byte hopens hss⟩

end Reading

/-! ### The normalizer reads strands -/

/-- The three bytes before a place after which a text has been read. -/
def Behind.over (b : Behind) (t : Text) : Behind := t.foldl (fun b c => (c, b.1, b.2.1)) b

theorem Behind.over_append (b : Behind) (t u : Text) : b.over (t ++ u) = (b.over t).over u :=
  List.foldl_append

/-- Three bytes suffice to tell whether a text ends in a scheme. -/
theorem afterScheme_over (t : Text) :
    afterScheme (Behind.over (0, 0, 0) t) = true ↔ EndsInScheme t := by
  have hzero : isWord 0 = false := by decide
  have hshort {u : Text} (hu : u.length < 3) : ¬EndsInScheme u := by
    rintro ⟨v, x, y, rfl, -⟩
    simp at hu
  -- the three bytes behind are the last three of the text, if there are as many
  rcases t.eq_nil_or_concat' with rfl | ⟨t, z, rfl⟩
  · exact iff_of_false (by decide) (hshort (by simp))
  rcases t.eq_nil_or_concat' with rfl | ⟨t, y, rfl⟩
  · exact iff_of_false (by simp [Behind.over, afterScheme, hzero]) (hshort (by simp))
  rcases t.eq_nil_or_concat' with rfl | ⟨t, x, rfl⟩
  · exact iff_of_false (by simp [Behind.over, afterScheme, hzero]) (hshort (by simp))
  have hover : Behind.over (0, 0, 0) (t ++ [x] ++ [y] ++ [z]) = (z, y, x) := by
    simp [Behind.over]
  rw [hover]
  simp only [afterScheme, Bool.and_eq_true, decide_eq_true_eq, EndsInScheme]
  constructor
  · rintro ⟨⟨rfl, hy⟩, hx⟩
    exact ⟨t, x, y, by simp, hx, hy⟩
  · rintro ⟨u, x', y', ht, hx, hy⟩
    have heq : t ++ [x, y, z] = u ++ [x', y', ch ':'] := by simpa using ht
    obtain ⟨-, heq⟩ := List.append_inj' heq rfl
    simp only [List.cons.injEq, and_true] at heq
    obtain ⟨rfl, rfl, rfl⟩ := heq
    exact ⟨⟨rfl, hy⟩, hx⟩

/-- The bytes of a span are passed over. -/
theorem normalizeFrom_skip (t : Text) (b : Behind) (i : Nat) (rest : Text) :
    normalizeFrom t.length b i (t ++ rest) = normalizeFrom 0 (b.over t) (i + t.length) rest := by
  induction t generalizing b i with
  | nil => rfl
  | cons c r ih =>
    rw [List.cons_append, List.length_cons, normalizeFrom, ih,
      show i + 1 + r.length = i + (r.length + 1) by omega]
    rfl

/-- A literal is protected up to its end, and nothing after it. -/
theorem normalizeFrom_literal {q : UInt8} {r : Text} (hq : isQuote q = true) (hr : Closing q r)
    (b : Behind) (i : Nat) (rest : Text) :
    normalizeFrom 0 b i (q :: (r ++ rest)) = protectFrom 0 i (q :: r) ++
      normalizeFrom 0 (b.over (q :: r)) (i + (q :: r).length) rest := by
  have hspan : spanAt b q (r ++ rest) = .string (r.length + 1) := by
    rw [spanAt, if_pos hq, hr.stringRest? hq]
  rw [normalizeFrom, hspan]
  dsimp only
  rw [Nat.add_sub_cancel, normalizeFrom_skip, List.take_succ_cons, List.take_left,
    List.length_cons, show i + 1 + r.length = i + (r.length + 1) by omega]
  rfl

/-- A comment is passed over. -/
theorem normalizeFrom_comment {c : UInt8} {r rest : Text} {b : Behind}
    (hspan : spanAt b c (r ++ rest) = .comment (r.length + 1)) (i : Nat) :
    normalizeFrom 0 b i (c :: (r ++ rest)) =
      normalizeFrom 0 (b.over (c :: r)) (i + (c :: r).length) rest := by
  rw [normalizeFrom, hspan]
  dsimp only
  rw [Nat.add_sub_cancel, normalizeFrom_skip, List.length_cons,
    show i + 1 + r.length = i + (r.length + 1) by omega]
  rfl

theorem of_close : of "*/" = [ch '*', ch '/'] := by decide

/-- The end of a block comment is found where it comes first. -/
theorem findFrom_close {u : Text} (hu : ¬[ch '*', ch '/'] <:+: u) (i : Nat) (rest : Text) :
    findFrom [ch '*', ch '/'] i (u ++ ch '*' :: ch '/' :: rest) = some (i + u.length) := by
  induction u generalizing i with
  | nil => simp [findFrom, starts]
  | cons a u ih =>
    have hlater : ¬[ch '*', ch '/'] <:+: u := fun h => hu (h.trans (List.suffix_cons a u).isInfix)
    have hstarts : ¬starts (a :: (u ++ ch '*' :: ch '/' :: rest)) [ch '*', ch '/'] = true := by
      intro h
      obtain ⟨v, hv⟩ := List.isPrefixOf_iff_prefix.mp h
      -- the `*` of the end is no `/`, so the end does not begin before it does
      cases u with
      | nil => exact absurd (List.cons.inj (List.cons.inj hv).2).1 (by decide)
      | cons d u =>
        simp only [List.cons_append, List.nil_append, List.cons.injEq] at hv
        obtain ⟨ha, hd, -⟩ := hv
        exact hu ⟨[], u, by rw [← ha, ← hd]; rfl⟩
    rw [List.cons_append, findFrom, if_neg hstarts, ih hlater, List.length_cons,
      show i + 1 + u.length = i + (u.length + 1) by omega]

section Spans

variable {b : Behind} {u rest : Text}

theorem spanAt_block (hu : ¬[ch '*', ch '/'] <:+: u) :
    spanAt b (ch '/') (ch '*' :: (u ++ ch '*' :: ch '/' :: rest)) = .comment (u.length + 4) := by
  have hquote : ¬isQuote (ch '/') = true := by decide
  have hrest : commentRest? (u ++ ch '*' :: ch '/' :: rest) = some (u.length + 2) := by
    rw [commentRest?, find, of_close, findFrom_close hu, Nat.zero_add, Option.map_some]
  rw [spanAt, if_neg hquote, if_pos (by simp [head0]), List.drop_one, List.tail_cons, hrest]

theorem spanAt_unread (hu : ¬[ch '*', ch '/'] <:+: u) :
    spanAt b (ch '/') (ch '*' :: u) = .unterminated := by
  have hquote : ¬isQuote (ch '/') = true := by decide
  have hrest : commentRest? u = none := by
    rw [commentRest?, find, of_close, Option.map_eq_none_iff]
    exact Option.not_isSome_iff_eq_none.mp (mt findFrom_isSome_iff.mp hu)
  rw [spanAt, if_neg hquote, if_pos (by simp [head0]), List.drop_one, List.tail_cons, hrest]

theorem spanAt_line (hb : afterScheme b = false) (hu : ch '\n' ∉ u)
    (hend : ∀ c ∈ rest.head?, c = ch '\n') :
    spanAt b (ch '/') (ch '/' :: (u ++ rest)) = .comment (u.length + 2) := by
  have hquote : ¬isQuote (ch '/') = true := by decide
  have hblock : ¬(ch '/' = ch '/' && head0 (ch '/' :: (u ++ rest)) = ch '*') = true := by
    have hne : ch '/' ≠ ch '*' := by decide
    simp [head0, hne]
  rw [spanAt, if_neg hquote, if_neg hblock, if_pos (by simp [head0, hb])]
  -- the line end that ends the comment is the first one
  have hnone : (ch '/' :: ch '/' :: u).findIdx? (· = ch '\n') = none := by
    have hne : ch '/' ≠ ch '\n' := by decide
    rw [List.findIdx?_eq_none_iff]
    intro c hc
    simp only [List.mem_cons] at hc
    rcases hc with rfl | rfl | hc
    · simpa using hne
    · simpa using hne
    · exact decide_eq_false fun h => hu (h ▸ hc)
  have hsplit : ch '/' :: ch '/' :: (u ++ rest) = (ch '/' :: ch '/' :: u) ++ rest := rfl
  rw [indexOf, hsplit, List.findIdx?_append, hnone, Option.none_or]
  cases rest with
  | nil => simp
  | cons c rest =>
    obtain rfl := hend c rfl
    simp [List.findIdx?_cons]

/-- What starts neither a string nor a comment is a byte. -/
theorem spanAt_byte {before r : Text} {c : UInt8} (hplain : ¬Opens true before (c :: r)) :
    spanAt (Behind.over (0, 0, 0) before) c r = .byte := by
  have hhead {d : UInt8} (hd : head0 r = d) (hzero : d ≠ 0) : r = d :: r.tail := by
    obtain ⟨e, r, rfl⟩ := List.exists_cons_of_ne_nil (ne_nil_of_head0 hd hzero)
    obtain rfl : e = d := hd
    rfl
  -- each of the other answers needs something that opens here
  unfold spanAt
  split_ifs with hquote hblock hline
  · cases hrest : stringRest? c r with
    | none => rfl
    | some n =>
      have hopens : Opens true before (c :: (r.take n ++ r.drop n)) :=
        .quoted hquote (closing_take_of_stringRest? hrest)
      rw [List.take_append_drop] at hopens
      exact absurd hopens hplain
  · simp only [Bool.and_eq_true, decide_eq_true_eq] at hblock
    rw [hblock.1, hhead hblock.2 (by decide)] at hplain
    exact absurd (.unread rfl) hplain
  · simp only [Bool.and_eq_true, decide_eq_true_eq, Bool.not_eq_true', ← Bool.not_eq_true,
      afterScheme_over] at hline
    rw [hline.1.1, hhead hline.1.2 (by decide)] at hplain
    exact absurd (.line hline.2) hplain
  · rfl

end Spans

/-- The normalizer writes the image of every strand, by induction on how a text is read. -/
theorem Strands.map_fst_normalizeFrom {before t : Text} {ss : List Strand}
    (h : Strands true before t ss) (i : Nat) :
    (normalizeFrom 0 (Behind.over (0, 0, 0) before) i t).map (·.1) = ss.flatMap Strand.image := by
  induction h generalizing i with
  | nil => rfl
  | quoted hq hr _ ih =>
    rw [normalizeFrom_literal hq hr, List.map_append, ← Behind.over_append, ih, List.flatMap_cons,
      map_fst_protectFrom_offset 0 i 0]
    rfl
  | @block before u rest ss hu _ ih =>
    have hspan : spanAt (Behind.over (0, 0, 0) before) (ch '/')
        (ch '*' :: (u ++ [ch '*', ch '/']) ++ rest) =
          .comment ((ch '*' :: (u ++ [ch '*', ch '/'])).length + 1) := by
      simpa using spanAt_block hu
    -- a comment is read over byte by byte, and all of it stands behind what comes after
    have hskip := normalizeFrom_comment hspan i
    rw [← Behind.over_append] at hskip
    rw [List.flatMap_cons, ← ih, ← hskip]
    simp [Strand.image, Strand.kept]
  | @line before u rest ss hscheme hu hend _ ih =>
    have hafter : afterScheme (Behind.over (0, 0, 0) before) = false :=
      Bool.eq_false_iff.mpr (mt (afterScheme_over before).mp hscheme)
    have hspan : spanAt (Behind.over (0, 0, 0) before) (ch '/') (ch '/' :: u ++ rest) =
        .comment ((ch '/' :: u).length + 1) := spanAt_line hafter hu hend
    have hskip := normalizeFrom_comment hspan i
    rw [← Behind.over_append] at hskip
    rw [List.flatMap_cons, ← ih, ← hskip]
    rfl
  | unread _ hu =>
    rw [normalizeFrom, spanAt_unread hu]
    dsimp only
    rw [map_fst_keepFrom]
    simp [Strand.image, Strand.kept, Strand.text]
  | @byte before c rest ss hplain _ ih =>
    have hnext := ih (i + 1)
    rw [Behind.over_append] at hnext
    rw [normalizeFrom, spanAt_byte hplain, List.flatMap_cons, ← hnext]
    rfl

/-- A normalized source is what is written for its strands. -/
theorem Strands.normalize_eq {t : Text} {ss : List Strand} (h : Strands true [] t ss) :
    normalize t = ss.flatMap Strand.image :=
  h.map_fst_normalizeFrom 0

/-! ### Strings are shielded -/

/-- Every structural byte of a text is in an interpolation that is complete. -/
def Shielded (t : Text) : Prop :=
  ∀ a c v, t = a ++ c :: v → privateByte? c ≠ none →
    ∃ x y z, t = x ++ [ch '#', ch '\x7b'] ++ y ++ ch '\x7d' :: z ∧ ch '\x7d' ∉ y ∧
      x.length ≤ a.length ∧ a.length < x.length + y.length + 3

theorem shielded_nil : Shielded [] := by
  rintro a c v h -
  simp at h

/-- What stands before a text makes no difference to what is behind it. -/
theorem Shielded.shift {w t : Text} (ht : Shielded t) {a : Text} {c : UInt8} {v : Text}
    (hsplit : w ++ t = a ++ c :: v) (hlength : w.length ≤ a.length)
    (hc : privateByte? c ≠ none) :
    ∃ x y z, w ++ t = x ++ [ch '#', ch '\x7b'] ++ y ++ ch '\x7d' :: z ∧ ch '\x7d' ∉ y ∧
      x.length ≤ a.length ∧ a.length < x.length + y.length + 3 := by
  obtain ⟨a, rfl⟩ := List.prefix_of_prefix_length_le ⟨t, rfl⟩ ⟨c :: v, hsplit.symm⟩ hlength
  rw [List.append_assoc] at hsplit
  obtain ⟨x, y, z, hx, hy, hle, hlt⟩ := ht a c v (List.append_cancel_left hsplit) hc
  refine ⟨w ++ x, y, z, by rw [hx]; simp only [List.append_assoc], hy, ?_, ?_⟩ <;>
    simp only [List.length_append] <;> omega

theorem Shielded.prepend {w t : Text} (hw : ∀ c ∈ w, privateByte? c = none) (ht : Shielded t) :
    Shielded (w ++ t) := by
  intro a c v hsplit hc
  by_cases hlength : w.length ≤ a.length
  · exact ht.shift hsplit hlength hc
  · obtain ⟨r, hr⟩ : a ++ [c] <+: w := List.prefix_of_prefix_length_le
      ⟨v, by rw [hsplit]; simp⟩ ⟨t, rfl⟩ (by simp; omega)
    exact absurd (hw c (by rw [← hr]; simp)) hc

theorem Shielded.interpolation {y t : Text} (hy : ch '\x7d' ∉ y) (ht : Shielded t) :
    Shielded (ch '#' :: ch '\x7b' :: (y ++ [ch '\x7d']) ++ t) := by
  intro a c v hsplit hc
  by_cases hlength : (ch '#' :: ch '\x7b' :: (y ++ [ch '\x7d'])).length ≤ a.length
  · exact ht.shift hsplit hlength hc
  · refine ⟨[], y, t, by simp, hy, Nat.zero_le _, ?_⟩
    simp only [List.length_cons, List.length_append, List.length_nil] at hlength ⊢
    omega

/-- An interpolation goes from its opening to the first closing brace. -/
theorem exists_interpolation {t : Text} {n : Nat} (h : interpolation? t = some n) :
    ∃ y z, t = ch '#' :: ch '\x7b' :: (y ++ ch '\x7d' :: z) ∧ ch '\x7d' ∉ y ∧
      n = y.length + 3 := by
  unfold interpolation? at h
  split_ifs at h with hstarts
  obtain ⟨m, hm, rfl⟩ := Option.map_eq_some_iff.mp h
  obtain ⟨r, rfl⟩ := List.isPrefixOf_iff_prefix.mp hstarts
  have hclose : ch '\x7d' ∈ [ch '#', ch '\x7b'] ++ r := by
    obtain ⟨hlt, hat, -⟩ := List.findIdx?_eq_some_iff_getElem.mp hm
    exact of_decide_eq_true hat ▸ List.getElem_mem hlt
  have hmem : ch '\x7d' ∈ r := (List.mem_append.mp hclose).resolve_left (by decide)
  obtain ⟨y, z, rfl, hy⟩ := List.eq_append_cons_of_mem hmem
  refine ⟨y, z, rfl, hy, ?_⟩
  have hnot : ch '\x7d' ∉ ch '#' :: ch '\x7b' :: y := by
    simp only [List.mem_cons, hy, or_false]
    decide
  have hindex := indexOf_append_cons hnot z
  rw [List.cons_append, List.cons_append] at hindex
  have hlength := Option.some.inj (hm.symm.trans hindex)
  rw [hlength]
  rfl

/-- A string is shielded, by induction on its length: an interpolation is passed over in one
go, and any other structural byte is gone. -/
theorem shielded_quoted (i : Nat) (t : Text) : Shielded ((protectFrom 0 i t).map (·.1)) := by
  induction hn : t.length using Nat.strongRecOn generalizing i t with
  | _ n ih =>
    cases t with
    | nil => exact shielded_nil
    | cons c r =>
      cases h : interpolation? (c :: r) with
      | some k =>
        rw [protectFrom_interpolation h, List.map_append, map_fst_keepFrom]
        obtain ⟨y, z, hsplit, hy, rfl⟩ := exists_interpolation h
        -- an interpolation is kept as it is, with its braces
        have hwhole : c :: r = ch '#' :: ch '\x7b' :: (y ++ [ch '\x7d']) ++ z := by
          rw [hsplit]
          simp
        have htake : (c :: r).take (y.length + 3) =
            ch '#' :: ch '\x7b' :: (y ++ [ch '\x7d']) := by
          rw [hwhole]
          exact List.take_left' (by simp)
        rw [htake]
        refine .interpolation hy (ih _ ?_ _ _ rfl)
        simp only [← hn, List.length_drop, List.length_cons]
        omega
      | none =>
        rw [protectFrom, h]
        dsimp only
        rw [List.map_append, List.map_map]
        refine .prepend (fun d hd => ?_) (ih r.length (by simp [← hn]) (i + 1) r rfl)
        have hd' : d ∈ protectText [c] := by simpa [protectText, Function.comp_def] using hd
        exact privateByte?_of_mem_protectText hd'

end Stylesheet
