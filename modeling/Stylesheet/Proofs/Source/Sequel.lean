import Stylesheet.Proofs.Plain.Blocks

/-!
# Sources in a row

A source and another after it on a new line are normalized each on its own, provided the
first has no comment without an end and does not end in a backslash. Every span of the first
ends in it: a string does not go on after its line, since the line end is not escaped, and
what stands before the second is no part of a scheme.

## Main definitions

* `commentsEnd` — no block comment is left without an end
* `Behind.Alike` — bytes before a place that are alike as to a scheme

## Main results

* `spanAt_append` — a span that ends is a span in a longer text too
* `normalize_append` — sources in a row are normalized each on its own
-/

namespace Stylesheet

open Text

/-- No block comment is left without an end, from a place after the bytes `b` on; `skip` bytes
of a span are still to pass. -/
def commentsEnd : (skip : Nat) → Behind → Text → Bool
  | _, _, [] => true
  | 0, b, c :: r =>
    match spanAt b c r with
    | .string n => commentsEnd (n - 1) (c, b.1, b.2.1) r
    | .comment n => commentsEnd (n - 1) (c, b.1, b.2.1) r
    | .unterminated => false
    | .byte => commentsEnd 0 (c, b.1, b.2.1) r
  | k + 1, b, c :: r => commentsEnd k (c, b.1, b.2.1) r

section Spans

variable {q c : UInt8} {r : Text} {n : Nat}

theorem getLast?_of_cons (h : (c :: r).getLast? ≠ some (ch '\\')) :
    r.getLast? ≠ some (ch '\\') := by
  intro hr
  exact h (by rw [List.getLast?_cons, hr]; rfl)

/-- A string does not go on after the line. -/
theorem stringRest?_newline (hq : isQuote q = true) (v : Text) :
    stringRest? q (ch '\n' :: v) = none := by
  have hne : ch '\n' ≠ q := by
    rintro rfl
    exact absurd hq (by decide)
  cases v with
  | nil => rw [stringRest?, if_neg hne]
  | cons d v => rw [stringRest?, if_neg (by decide), if_neg hne, if_pos rfl]

/-- By the cases of a string: an escaped byte belongs to it, and is not the line end after the
text since that does not end in a backslash. -/
theorem stringRest?_append (hq : isQuote q = true) (hr : r.getLast? ≠ some (ch '\\')) (v : Text) :
    stringRest? q (r ++ ch '\n' :: v) = stringRest? q r := by
  have hescape : q ≠ ch '\\' := by
    rintro rfl
    exact absurd hq (by decide)
  -- by the cases of the reading: a line end ends it, unless a backslash takes the line end along
  induction r using stringRest?.induct q with
  | case1 => exact stringRest?_newline hq v
  | case2 => simp [stringRest?, hescape]
  | case3 c hc =>
    have hlast : c ≠ ch '\\' := fun h => hr (by simp [h])
    have hrest := stringRest?_newline hq v
    simp [stringRest?, hc, hlast, hrest]
  | case4 d r ih =>
    have hnext := ih (getLast?_of_cons (getLast?_of_cons hr))
    simp [stringRest?, hnext]
  | case5 d r _ => simp [stringRest?, hescape]
  | case6 d r _ hne =>
    rw [List.cons_append, List.cons_append, stringRest?_newline hq, stringRest?_newline hq]
  | case7 c d r hback hc hnew ih =>
    have hnext := ih (getLast?_of_cons hr)
    rw [List.cons_append] at hnext
    simp [stringRest?, hback, hc, hnew, hnext]

theorem stringRest?_le (h : stringRest? q r = some n) : 1 ≤ n ∧ n ≤ r.length := by
  induction r using stringRest?.induct q generalizing n with
  | case1 => cases h
  | case2 =>
    rw [stringRest?, if_pos rfl] at h
    cases h
    simp
  | case3 c hc =>
    rw [stringRest?, if_neg hc] at h
    cases h
  | case4 d r ih =>
    rw [stringRest?, if_pos rfl] at h
    obtain ⟨m, hm, rfl⟩ := Option.map_eq_some_iff.mp h
    have hle := (ih hm).2
    simp only [List.length_cons]
    omega
  | case5 d r hback =>
    rw [stringRest?, if_neg hback, if_pos rfl] at h
    cases h
    simp
  | case6 d r hback hq =>
    rw [stringRest?, if_neg hback, if_neg hq, if_pos rfl] at h
    cases h
  | case7 c d r hback hc hnew ih =>
    rw [stringRest?, if_neg hback, if_neg hc, if_neg hnew] at h
    obtain ⟨m, hm, rfl⟩ := Option.map_eq_some_iff.mp h
    have hle := (ih hm).2
    simp only [List.length_cons] at hle ⊢
    omega

/-- The first occurrence is the first in a longer text too, and lies in the shorter one. -/
theorem findFrom_append {p t : Text} (hp : p ≠ []) {i : Nat} (h : findFrom p i t = some n)
    (u : Text) :
    findFrom p i (t ++ u) = some n ∧ i ≤ n ∧ n + p.length ≤ i + t.length := by
  -- place by place: the first occurrence in the text stays the first
  induction t generalizing i with
  | nil =>
    rw [findFrom, if_neg (by simpa using hp)] at h
    cases h
  | cons a t ih =>
    rw [findFrom] at h
    rw [List.cons_append, findFrom, List.length_cons]
    by_cases hstarts : starts (a :: t) p = true
    · have hshorter := List.isPrefixOf_iff_prefix.mp hstarts
      rw [if_pos hstarts] at h
      cases h
      have hlong : starts (a :: (t ++ u)) p = true :=
        List.isPrefixOf_iff_prefix.mpr (hshorter.trans (List.prefix_append (a :: t) u))
      exact ⟨if_pos hlong, Nat.le_refl n, Nat.add_le_add_left hshorter.length_le n⟩
    · rw [if_neg hstarts] at h
      obtain ⟨hfound, hle, hfits⟩ := ih h
      -- what starts here would end before the first occurrence does
      have hshort : ¬starts (a :: (t ++ u)) p = true := by
        intro hlong
        have hshorter : p <+: a :: t := List.prefix_of_prefix_length_le
          (List.isPrefixOf_iff_prefix.mp hlong) (List.prefix_append (a :: t) u)
          (by simp only [List.length_cons]; omega)
        exact hstarts (List.isPrefixOf_iff_prefix.mpr hshorter)
      rw [if_neg hshort]
      exact ⟨hfound, by omega, by omega⟩

/-- A comment that ends is a comment in a longer text too. -/
theorem commentRest?_append (h : commentRest? r = some n) (u : Text) :
    commentRest? (r ++ u) = some n ∧ n ≤ r.length := by
  obtain ⟨m, hm, rfl⟩ := Option.map_eq_some_iff.mp h
  obtain ⟨hfound, -, hfits⟩ := findFrom_append (by decide) hm u
  have hwidth : (of "*/").length = 2 := by decide
  refine ⟨Option.map_eq_some_iff.mpr ⟨m, hfound, rfl⟩, ?_⟩
  omega

/-- A line comment ends where the line does, or the text. -/
theorem lineRest_append (v : Text) :
    (indexOf (ch '\n') (c :: r ++ ch '\n' :: v)).getD ((r ++ ch '\n' :: v).length + 1) =
        (indexOf (ch '\n') (c :: r)).getD (r.length + 1) ∧
      (indexOf (ch '\n') (c :: r)).getD (r.length + 1) ≤ r.length + 1 := by
  unfold indexOf
  rw [List.findIdx?_append]
  cases h : (c :: r).findIdx? (· = ch '\n') with
  | none =>
    have hhead : (ch '\n' :: v).findIdx? (· = ch '\n') = some 0 := by simp [List.findIdx?_cons]
    rw [hhead]
    simp
  | some i =>
    have hlt := (List.findIdx?_eq_some_iff_findIdx_eq.mp h).1
    simp only [Option.some_or, Option.getD_some, List.length_cons] at hlt ⊢
    exact ⟨trivial, Nat.le_of_lt hlt⟩

/-- An empty text does not start with a mark. -/
theorem ne_nil_of_head0 (h : head0 r = c) (hzero : c ≠ 0) : r ≠ [] := by
  rintro rfl
  exact hzero h.symm

theorem head0_append_newline (hne : c ≠ ch '\n') (hzero : c ≠ 0) (v : Text) :
    head0 (r ++ ch '\n' :: v) = c ↔ head0 r = c := by
  cases r with
  | nil => exact ⟨fun h => absurd h.symm hne, fun h => absurd h.symm hzero⟩
  | cons d r => rfl

/-- A span that ends is a span in a longer text too. -/
theorem spanAt_append (b : Behind) (hlast : r.getLast? ≠ some (ch '\\'))
    (hend : spanAt b c r ≠ .unterminated) (v : Text) :
    spanAt b c (r ++ ch '\n' :: v) = spanAt b c r := by
  unfold spanAt at hend ⊢
  simp only [head0_append_newline (show ch '*' ≠ ch '\n' by decide) (by decide),
    head0_append_newline (show ch '/' ≠ ch '\n' by decide) (by decide)] at hend ⊢
  by_cases hquote : isQuote c = true
  · rw [if_pos hquote, if_pos hquote, stringRest?_append hquote hlast]
  rw [if_neg hquote] at hend
  rw [if_neg hquote, if_neg hquote]
  by_cases hblock : (c = ch '/' && head0 r = ch '*') = true
  · rw [if_pos hblock] at hend
    rw [if_pos hblock, if_pos hblock]
    -- the comment ends in the text, so what comes after it is not looked at
    have hne : r ≠ [] := ne_nil_of_head0 (by simpa using (Bool.and_eq_true_iff.mp hblock).2)
      (show ch '*' ≠ 0 by decide)
    have hdrop : (r ++ ch '\n' :: v).drop 1 = r.drop 1 ++ ch '\n' :: v :=
      List.drop_append_of_le_length (List.length_pos_iff.mpr hne)
    cases hrest : commentRest? (r.drop 1) with
    | none =>
      rw [hrest] at hend
      exact absurd rfl hend
    | some n => rw [hdrop, (commentRest?_append hrest _).1]
  rw [if_neg hblock, if_neg hblock]
  split_ifs with hline
  · rw [← List.cons_append, (lineRest_append v).1]
  · rfl

/-- How far a span goes. -/
theorem spanAt_width (b : Behind) (h : spanAt b c r = .string n ∨ spanAt b c r = .comment n) :
    n ≤ r.length + 1 := by
  unfold spanAt at h
  split_ifs at h with hquote hblock hline
  · -- each span is as long as its reading says, and none is longer than the text
    split at h
    · next hrest =>
      have hle := (stringRest?_le hrest).2
      rcases h with h | h <;> cases h
      omega
    · rcases h with h | h <;> cases h
  · split at h
    · next m hrest =>
      have hle := (commentRest?_append hrest []).2
      rw [List.length_drop] at hle
      have hne : r ≠ [] := ne_nil_of_head0 (by simpa using (Bool.and_eq_true_iff.mp hblock).2)
        (show ch '*' ≠ 0 by decide)
      have hpos := List.length_pos_iff.mpr hne
      rcases h with h | h <;> cases h
      omega
    · rcases h with h | h <;> cases h
  · rcases h with h | h <;> cases h
    exact (lineRest_append []).2
  · rcases h with h | h <;> cases h

end Spans

/-- The first of two sources is normalized as it is alone, by induction on what is left of
it. -/
theorem normalizeFrom_append {t : Text} {k : Nat} {b : Behind} (hk : k ≤ t.length)
    (hlast : t.getLast? ≠ some (ch '\\')) (hend : commentsEnd k b t = true) (i : Nat) (v : Text) :
    ∃ b' j, normalizeFrom k b i (t ++ ch '\n' :: v) =
      normalizeFrom k b i t ++ normalizeFrom 0 b' j (ch '\n' :: v) := by
  induction t generalizing k b i with
  | nil =>
    obtain rfl := Nat.le_zero.mp hk
    exact ⟨b, i, rfl⟩
  | cons c r ih =>
    have hlast' := getLast?_of_cons hlast
    -- inside a string or a comment that was read already, bytes are only counted
    cases k with
    | succ k => exact ih (Nat.le_of_succ_le_succ hk) hlast' hend (i + 1)
    | zero =>
      rw [commentsEnd] at hend
      rw [List.cons_append, normalizeFrom, normalizeFrom]
      have hspan : spanAt b c (r ++ ch '\n' :: v) = spanAt b c r := by
        refine spanAt_append b hlast' (fun h => ?_) v
        rw [h] at hend
        cases hend
      rw [hspan]
      cases h : spanAt b c r with
      | unterminated =>
        rw [h] at hend
        cases hend
      | byte =>
        rw [h] at hend
        obtain ⟨b', j, hrest⟩ := ih (Nat.zero_le _) hlast' hend (i + 1)
        exact ⟨b', j, congrArg _ hrest⟩
      | comment n =>
        rw [h] at hend
        -- what is skipped lies in the text, so it is read to its end there
        have hwidth := spanAt_width b (.inr h)
        exact ih (by omega) hlast' hend (i + 1)
      | string n =>
        rw [h] at hend
        have hwidth := spanAt_width b (.inl h)
        obtain ⟨b', j, hrest⟩ := ih (by omega) hlast' hend (i + 1)
        refine ⟨b', j, ?_⟩
        dsimp only
        rw [hrest, ← List.cons_append, List.take_append_of_le_length (by simpa using hwidth),
          List.append_assoc]

/-- Bytes before a place that are alike as to whether a scheme stands before it, or before one
of the places that follow. -/
structure Behind.Alike (b b' : Behind) : Prop where
  now : afterScheme b = afterScheme b'
  next : ∀ c, afterScheme (c, b.1, b.2.1) = afterScheme (c, b'.1, b'.2.1)
  later : ∀ c d, afterScheme (d, c, b.1) = afterScheme (d, c, b'.1)

theorem Behind.Alike.pass {b b' : Behind} (h : b.Alike b') (c : UInt8) :
    Behind.Alike (c, b.1, b.2.1) (c, b'.1, b'.2.1) :=
  ⟨h.next c, h.later c, fun _ _ => rfl⟩

/-- A line end is no part of a scheme. -/
theorem Behind.alike_newline (x y : UInt8) : Behind.Alike (ch '\n', x, y) (0, 0, 0) := by
  have hcolon : ch '\n' ≠ ch ':' := by decide
  have hcolon' : (0 : UInt8) ≠ ch ':' := by decide
  have hword : isWord (ch '\n') = false := by decide
  have hword' : isWord 0 = false := by decide
  constructor <;> simp [afterScheme, hcolon, hcolon', hword, hword']

theorem map_fst_protectFrom_offset (k i j : Nat) (t : Text) :
    (protectFrom k i t).map (·.1) = (protectFrom k j t).map (·.1) := by
  induction t generalizing k i j with
  | nil => cases k <;> rfl
  | cons c r ih =>
    cases k with
    | succ k =>
      rw [protectFrom, protectFrom, List.map_cons, List.map_cons, ih k (i + 1) (j + 1)]
    | zero =>
      rw [protectFrom, protectFrom]
      cases interpolation? (c :: r) with
      | some n =>
        dsimp only
        rw [List.map_cons, List.map_cons, ih (n - 1) (i + 1) (j + 1)]
      | none =>
        dsimp only
        rw [List.map_append, List.map_append, ih 0 (i + 1) (j + 1), List.map_map, List.map_map]
        rfl

/-- How a source is normalized depends neither on its offset nor on what stands before it, as
long as that is no part of a scheme. -/
theorem map_fst_normalizeFrom {b b' : Behind} (h : b.Alike b') (k i j : Nat) (t : Text) :
    (normalizeFrom k b i t).map (·.1) = (normalizeFrom k b' j t).map (·.1) := by
  induction t generalizing k b b' i j with
  | nil => cases k <;> rfl
  | cons c r ih =>
    have hnext (k : Nat) := ih (h.pass c) k (i + 1) (j + 1)
    cases k with
    | succ k => exact hnext k
    | zero =>
      have hspan : spanAt b c r = spanAt b' c r := by simp only [spanAt, h.now]
      rw [normalizeFrom, normalizeFrom, hspan]
      cases spanAt b' c r with
      | string n =>
        dsimp only
        rw [List.map_append, List.map_append, map_fst_protectFrom_offset 0 i j, hnext]
      | comment n => exact hnext (n - 1)
      | unterminated =>
        dsimp only
        rw [map_fst_keepFrom, map_fst_keepFrom]
      | byte =>
        dsimp only
        rw [List.map_cons, List.map_cons, hnext]

/-- Sources in a row are normalized each on its own. -/
theorem normalize_append {t : Text} (hlast : t.getLast? ≠ some (ch '\\'))
    (hend : commentsEnd 0 (0, 0, 0) t = true) (v : Text) :
    normalize (t ++ ch '\n' :: v) = normalize t ++ ch '\n' :: normalize v := by
  obtain ⟨b, j, hsplit⟩ := normalizeFrom_append (Nat.zero_le _) hlast hend 0 v
  have hspan : spanAt b (ch '\n') v = .byte := by
    have hquote : isQuote (ch '\n') = false := by decide
    have hslash : ch '\n' ≠ ch '/' := by decide
    simp [spanAt, hquote, hslash]
  have hrest := map_fst_normalizeFrom (Behind.alike_newline b.1 b.2.1) 0 (j + 1) 0 v
  unfold normalize normalizeTracked
  rw [hsplit, List.map_append, normalizeFrom, hspan]
  dsimp only
  rw [List.map_cons, hrest]

end Stylesheet
