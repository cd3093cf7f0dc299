import Stylesheet.FileTree
import Stylesheet.Proofs.Text.Words

/-!
# Segments of paths

A clean path is the text of its segments, and only a relative one has segments that lead up,
all of them at its start. Neither cleaning a path nor joining it with another nor taking the
directory it is in makes for more of those. A path that leads up a known number of times is
therefore not much longer than the key of the file it names.

## Main definitions

* `Path.ascents` — how many segments of a path lead up

## Main results

* `Path.ascents_clean_le`, `Path.ascents_join_le`, `Path.ascents_dir_le` — paths made from
  others lead up no more often
* `Path.ascents_eq_zero_of_isAbs` — a clean absolute path does not lead up
* `FileTree.length_clean_le` — the length of a clean path, by the key of its file
-/

namespace Stylesheet

open Text

/-! ### Splitting -/

theorem Text.split_append_sep (sep : UInt8) (t u : Text) :
    split sep (t ++ sep :: u) = split sep t ++ split sep u := by
  rw [split_eq_splitOn, split_eq_splitOn, split_eq_splitOn]
  exact List.splitOn_append_cons_self ..

theorem Text.split_cons_sep (sep : UInt8) (t : Text) : split sep (sep :: t) = [] :: split sep t :=
  split_append_sep sep [] t

/-- A joined text is no shorter than that of the later parts. -/
theorem Text.length_join_le_append (c : UInt8) (ts us : List Text) :
    (join [c] us).length ≤ (join [c] (ts ++ us)).length := by
  induction ts with
  | nil => exact Nat.le_refl _
  | cons t ts ih =>
    refine Nat.le_trans ih ?_
    rw [List.cons_append]
    cases ts ++ us with
    | nil => exact Nat.zero_le _
    | cons v vs =>
      rw [join_cons_cons, List.length_append]
      exact Nat.le_add_left _ _

theorem Text.length_join_replicate_le (c : UInt8) (t : Text) (n : Nat) (ts : List Text) :
    (join [c] (List.replicate n t ++ ts)).length ≤ n * (t.length + 1) + (join [c] ts).length := by
  induction n with
  | zero => simp
  | succ n ih =>
    rw [List.replicate_succ, List.cons_append, Nat.succ_mul]
    cases hrest : List.replicate n t ++ ts with
    | nil =>
      rw [join_singleton]
      omega
    | cons v vs =>
      rw [hrest] at ih
      rw [join_cons_cons]
      simp only [List.length_append, List.length_singleton]
      omega

namespace Path

/-! ### Pushing segments -/

/-- A segment that names something. -/
structure Named (s : Text) : Prop where
  ne_nil : s ≠ []
  ne_here : s ≠ of "."
  ne_up : s ≠ up

theorem push_named {rooted : Bool} {s : Text} (hs : Named s) (stack : List Text) :
    push rooted stack s = s :: stack := by
  simp [push, hs.ne_nil, hs.ne_here, hs.ne_up]

theorem push_up (rooted : Bool) (stack : List Text) :
    push rooted stack up =
      match stack with
      | top :: rest => if top = up then up :: stack else rest
      | [] => if rooted then [] else [up] := by
  rfl

/-- What pushing a segment can do. -/
theorem push_cases (rooted : Bool) (stack : List Text) (s : Text) :
    push rooted stack s = stack ∨ (s = up ∧ push rooted stack s = push rooted stack up) ∨
      (Named s ∧ push rooted stack s = s :: stack) := by
  by_cases hskip : s = [] ∨ s = of "."
  · left
    rcases hskip with rfl | rfl <;> rfl
  obtain ⟨hnil, hhere⟩ := not_or.mp hskip
  by_cases hup : s = up
  · exact .inr (.inl ⟨hup, by rw [hup]⟩)
  · exact .inr (.inr ⟨⟨hnil, hhere, hup⟩, push_named ⟨hnil, hhere, hup⟩ stack⟩)

theorem foldl_push_named {rooted : Bool} {names : List Text} (hnames : ∀ s ∈ names, Named s)
    (stack : List Text) : names.foldl (push rooted) stack = names.reverse ++ stack := by
  induction names generalizing stack with
  | nil => rfl
  | cons s names ih =>
    obtain ⟨hs, hnames⟩ := List.forall_mem_cons.mp hnames
    rw [List.foldl_cons, push_named hs, ih hnames, List.reverse_cons, List.append_assoc,
      List.singleton_append]

/-- Segments on a stack: those that name something on top of those that lead up. -/
structure Shape (stack names : List Text) (ups : Nat) : Prop where
  eq : stack = names ++ List.replicate ups up
  named : ∀ s ∈ names, Named s

theorem shape_nil : Shape [] [] 0 := ⟨rfl, fun _ h => nomatch h⟩

/-- Pushing segments keeps their shape. The segments that lead up are as many as before or
one more, and none if the path starts at the root. -/
theorem Shape.push {rooted : Bool} {stack names : List Text} {ups : Nat}
    (h : Shape stack names ups) (hrooted : rooted = true → ups = 0) (s : Text) :
    ∃ names' ups', Shape (Path.push rooted stack s) names' ups' ∧ ups' ≤ ups + [s].count up ∧
      (rooted = true → ups' = 0) := by
  rcases push_cases rooted stack s with hkeep | ⟨rfl, -⟩ | ⟨hs, hpush⟩
  · rw [hkeep]
    exact ⟨names, ups, h, Nat.le_add_right _ _, hrooted⟩
  · rw [push_up]
    obtain ⟨rfl, hnames⟩ := h
    cases names with
    | cons top names =>
      obtain ⟨htop, hnames⟩ := List.forall_mem_cons.mp hnames
      refine ⟨names, ups, ⟨?_, hnames⟩, Nat.le_add_right _ _, hrooted⟩
      exact if_neg htop.ne_up
    | nil =>
      rcases rooted with _ | _
      · refine ⟨[], ups + 1, ⟨?_, hnames⟩, by simp, fun h => nomatch h⟩
        cases ups with
        | zero => rfl
        | succ n => rfl
      · obtain rfl := hrooted rfl
        exact ⟨[], 0, ⟨rfl, hnames⟩, Nat.zero_le _, fun _ => rfl⟩
  · refine ⟨s :: names, ups, ⟨?_, ?_⟩, Nat.le_add_right _ _, hrooted⟩
    · rw [hpush, h.eq, List.cons_append]
    · exact List.forall_mem_cons.mpr ⟨hs, h.named⟩

theorem Shape.foldl_push {rooted : Bool} {stack names : List Text} {ups : Nat}
    (h : Shape stack names ups) (hrooted : rooted = true → ups = 0) (parts : List Text) :
    ∃ names' ups', Shape (parts.foldl (Path.push rooted) stack) names' ups' ∧
      ups' ≤ ups + parts.count up ∧ (rooted = true → ups' = 0) := by
  induction parts generalizing stack names ups with
  | nil => exact ⟨names, ups, h, Nat.le_add_right _ _, hrooted⟩
  | cons s parts ih =>
    obtain ⟨names₁, ups₁, h₁, hle₁, hrooted₁⟩ := h.push hrooted s
    obtain ⟨names₂, ups₂, h₂, hle₂, hrooted₂⟩ := ih h₁ hrooted₁
    refine ⟨names₂, ups₂, h₂, ?_, hrooted₂⟩
    rw [← List.singleton_append, List.count_append]
    omega

theorem mem_of_mem_foldl_push {rooted : Bool} {parts stack : List Text} {s : Text}
    (hs : s ∈ parts.foldl (push rooted) stack) (hup : s ≠ up) : s ∈ stack ∨ s ∈ parts := by
  induction parts generalizing stack with
  | nil => exact .inl hs
  | cons t parts ih =>
    rcases ih hs with hs | hs
    · rcases push_cases rooted stack t with hkeep | ⟨rfl, -⟩ | ⟨-, hpush⟩
      · exact .inl (hkeep ▸ hs)
      · rw [push_up] at hs
        split at hs
        · split_ifs at hs
          · exact .inl ((List.mem_cons.mp hs).resolve_left hup)
          · exact .inl (List.mem_cons_of_mem _ hs)
        · split_ifs at hs
          · exact .inl hs
          · exact absurd (List.mem_singleton.mp hs) hup
      · rw [hpush] at hs
        rcases List.mem_cons.mp hs with rfl | hs
        · exact .inr List.mem_cons_self
        · exact .inl hs
    · exact .inr (List.mem_cons_of_mem _ hs)

/-! ### Clean paths -/

/-- How many segments of a path lead up. -/
def ascents (p : Text) : Nat := (split slash p).count up

/-- The segments of a path after cleaning: those that lead up, then those that name
something. -/
theorem segments_eq (p : Text) :
    ∃ names ups, segments p = List.replicate ups up ++ names ∧
      (∀ s ∈ names, Named s ∧ slash ∉ s) ∧ ups ≤ ascents p ∧ (isAbs p = true → ups = 0) := by
  obtain ⟨names, ups, h, hle, hrooted⟩ :=
    shape_nil.foldl_push (fun _ : isAbs p = true => rfl) (split slash p)
  refine ⟨names.reverse, ups, ?_, fun s hs => ?_, ?_, hrooted⟩
  · rw [segments, h.eq, List.reverse_append, List.reverse_replicate]
  · have hs := List.mem_reverse.mp hs
    have hmem : s ∈ (split slash p).foldl (push (isAbs p)) [] := by
      rw [h.eq]
      exact List.mem_append_left _ hs
    refine ⟨h.named s hs, ?_⟩
    rcases mem_of_mem_foldl_push hmem (h.named s hs).ne_up with hs | hs
    · exact absurd hs List.not_mem_nil
    · exact not_mem_of_mem_split hs
  · simpa [ascents] using hle

theorem count_segments_le (p : Text) : (segments p).count up ≤ ascents p := by
  obtain ⟨names, ups, heq, hnames, hle, -⟩ := segments_eq p
  have hzero : names.count up = 0 :=
    List.count_eq_zero_of_not_mem fun hup => (hnames up hup).1.ne_up rfl
  rw [heq, List.count_append, List.count_replicate_self, hzero]
  exact hle

theorem slash_notMem_segments {p s : Text} (hs : s ∈ segments p) : slash ∉ s := by
  obtain ⟨names, ups, heq, hnames, -⟩ := segments_eq p
  rw [heq] at hs
  rcases List.mem_append.mp hs with hs | hs
  · rw [List.eq_of_mem_replicate hs]
    decide
  · exact (hnames s hs).2

theorem segments_ne_nil {p s : Text} (hs : s ∈ segments p) : s ≠ [] := by
  obtain ⟨names, ups, heq, hnames, -⟩ := segments_eq p
  rw [heq] at hs
  rcases List.mem_append.mp hs with hs | hs
  · rw [List.eq_of_mem_replicate hs]
    decide
  · exact (hnames s hs).1.ne_nil

/-- The text of a clean path is that of its segments, with a slash before them if it starts at
the root. -/
theorem clean_cases (p : Text) :
    (isAbs p = true ∧ clean p = slash :: Text.join [slash] (segments p)) ∨
      (isAbs p = false ∧ segments p = [] ∧ clean p = of ".") ∨
      (isAbs p = false ∧ segments p ≠ [] ∧ clean p = Text.join [slash] (segments p)) := by
  unfold clean
  dsimp only
  by_cases habs : isAbs p = true
  · exact .inl ⟨habs, if_pos habs⟩
  rw [if_neg habs]
  have hrel : isAbs p = false := by simpa using habs
  cases hsegments : segments p with
  | nil => exact .inr (.inl ⟨hrel, rfl, rfl⟩)
  | cons s rest =>
    refine .inr (.inr ⟨hrel, List.cons_ne_nil _ _, if_neg ?_⟩)
    have hs : s ≠ [] := segments_ne_nil (p := p) (by simp [hsegments])
    simp [join_cons, hs]

/-- The parts of a clean path: its segments, and trivial ones. -/
theorem count_split_clean (p : Text) (s : Text) (hs : Named s ∨ s = up) :
    (split slash (clean p)).count s = (segments p).count s := by
  have hnil : s ≠ [] := by
    rcases hs with hs | rfl
    · exact hs.ne_nil
    · decide
  have hslash : ∀ t ∈ segments p, slash ∉ t := fun t => slash_notMem_segments
  have hjoin : (split slash (Text.join [slash] (segments p))).count s = (segments p).count s := by
    by_cases hempty : segments p = []
    · rw [hempty, join_nil]
      exact List.count_eq_zero_of_not_mem (by simpa [split, splitFrom] using hnil)
    · rw [split_join hempty hslash]
  rcases clean_cases p with ⟨-, heq⟩ | ⟨-, hempty, heq⟩ | ⟨-, -, heq⟩
  · rw [heq, split_cons_sep, List.count_cons_of_ne hnil.symm, hjoin]
  · rw [heq, hempty]
    refine List.count_eq_zero_of_not_mem fun hmem => ?_
    have hsplit : split slash (of ".") = [of "."] := by decide
    rw [hsplit] at hmem
    obtain rfl : s = of "." := List.mem_singleton.mp hmem
    rcases hs with hs | hs
    · exact hs.ne_here rfl
    · exact absurd hs (by decide)
  · rw [heq, hjoin]

/-! ### How often a path leads up -/

theorem ascents_clean (p : Text) : ascents (clean p) = (segments p).count up :=
  count_split_clean p up (.inr rfl)

theorem ascents_clean_le (p : Text) : ascents (clean p) ≤ ascents p := by
  rw [ascents_clean]
  exact count_segments_le p

theorem ascents_eq_zero_of_isAbs {p : Text} (habs : isAbs p = true) : ascents (clean p) = 0 := by
  obtain ⟨names, ups, heq, hnames, -, hzero⟩ := segments_eq p
  rw [ascents_clean, heq, hzero habs]
  exact List.count_eq_zero_of_not_mem fun hup => (hnames up hup).1.ne_up rfl

theorem isAbs_clean (p : Text) : isAbs (clean p) = isAbs p := by
  rcases clean_cases p with ⟨habs, heq⟩ | ⟨hrel, -, heq⟩ | ⟨hrel, hne, heq⟩
  · rw [heq, habs]
    rfl
  · rw [heq, hrel]
    rfl
  · rw [heq, hrel]
    obtain ⟨s, rest, hsegments⟩ := List.exists_cons_of_ne_nil hne
    have hmem : s ∈ segments p := by simp [hsegments]
    obtain ⟨c, t, rfl⟩ := List.exists_cons_of_ne_nil (segments_ne_nil hmem)
    have hc : c ≠ slash := by
      rintro rfl
      exact slash_notMem_segments hmem List.mem_cons_self
    simp [isAbs, head0, hsegments, join_cons, hc]

@[simp] theorem ascents_nil : ascents [] = 0 := rfl

/-- Two paths joined: one below the other, or one of them if the other is empty. -/
theorem join_pair (d n : Text) :
    join [d, n] = if d = [] ∧ n = [] then [] else
      clean (if d = [] then n else if n = [] then d else d ++ slash :: n) := by
  cases d <;> cases n <;> simp [join, join_cons_cons]

theorem ascents_append_slash (p q : Text) : ascents (p ++ slash :: q) = ascents p + ascents q := by
  rw [ascents, split_append_sep, List.count_append]
  rfl

theorem ascents_join_le (d n : Text) : ascents (join [d, n]) ≤ ascents d + ascents n := by
  rw [join_pair]
  split_ifs with hboth hd hn
  · exact Nat.zero_le _
  · exact Nat.le_trans (ascents_clean_le n) (Nat.le_add_left _ _)
  · exact Nat.le_trans (ascents_clean_le d) (Nat.le_add_right _ _)
  · rw [← ascents_append_slash]
    exact ascents_clean_le _

/-- The last slash of a path splits it. -/
theorem splitLast_cases (p : Text) :
    splitLast p = ([], p) ∧ slash ∉ p ∨ ∃ a b, p = a ++ slash :: b ∧ slash ∉ b ∧
      splitLast p = (a ++ [slash], b) := by
  unfold splitLast lastIndexOf
  cases hfind : p.reverse.findIdx? (· = slash) with
  | none =>
    refine .inl ⟨rfl, fun hmem => ?_⟩
    have hnone := List.findIdx?_eq_none_iff.mp hfind slash (List.mem_reverse.mpr hmem)
    simp at hnone
  | some i =>
    right
    obtain ⟨hi, hat, hbefore⟩ := List.findIdx?_eq_some_iff_getElem.mp hfind
    have hat : p.reverse[i] = slash := by simpa using hat
    -- the last slash is the first of the reversed path
    have hsplit : p.reverse = p.reverse.take i ++ slash :: p.reverse.drop (i + 1) := by
      rw [← hat, ← List.drop_eq_getElem_cons hi, List.take_append_drop]
    have hp : p = (p.reverse.drop (i + 1)).reverse ++ slash :: (p.reverse.take i).reverse := by
      have hreverse := congrArg List.reverse hsplit
      simpa only [List.reverse_reverse, List.reverse_append, List.reverse_cons,
        List.append_assoc, List.singleton_append] using hreverse
    refine ⟨_, _, hp, fun hmem => ?_, ?_⟩
    · obtain ⟨j, hj, hslash⟩ := List.mem_take_iff_getElem.mp (List.mem_reverse.mp hmem)
      exact hbefore j (by omega) (by simp [hslash])
    · have hlength : (p.reverse.drop (i + 1)).reverse.length = p.length - 1 - i := by
        simp only [List.length_reverse, List.length_drop]
        omega
      dsimp only [Option.map_some]
      rw [← hlength]
      generalize (p.reverse.drop (i + 1)).reverse = a at hp ⊢
      generalize (p.reverse.take i).reverse = b at hp ⊢
      rw [hp, List.take_append, List.drop_append]
      simp [List.take_of_length_le]

/-- Other names put after the last slash of a path are its last part. -/
theorem exists_split_splitLast (p : Text) :
    slash ∉ (splitLast p).2 ∧ p = (splitLast p).1 ++ (splitLast p).2 ∧
      ∃ front, ∀ x, slash ∉ x → split slash ((splitLast p).1 ++ x) = front ++ [x] := by
  have hsingle {x : Text} (hx : slash ∉ x) : split slash x = [x] := by
    have hsplit := split_join (List.cons_ne_nil x []) (by simpa using hx)
    rwa [join_singleton] at hsplit
  rcases splitLast_cases p with ⟨h, hslash⟩ | ⟨a, b, hp, hslash, h⟩
  · rw [h]
    exact ⟨hslash, rfl, [], fun x hx => hsingle hx⟩
  · rw [h]
    refine ⟨hslash, by simpa using hp, split slash a, fun x hx => ?_⟩
    rw [List.append_assoc, List.singleton_append, split_append_sep, hsingle hx]

theorem ascents_dir_le (p : Text) : ascents (dir p) ≤ ascents p := by
  refine Nat.le_trans (ascents_clean_le _) ?_
  rcases splitLast_cases p with ⟨h, -⟩ | ⟨a, b, hp, -, h⟩
  · rw [h]
    exact Nat.zero_le _
  · rw [h, hp]
    change ascents (a ++ slash :: []) ≤ _
    rw [ascents_append_slash, ascents_append_slash]
    exact Nat.add_le_add_left (Nat.zero_le _) _

theorem isAbs_append {p : Text} (habs : isAbs p = true) (q : Text) : isAbs (p ++ q) = true := by
  cases p with
  | nil => exact absurd habs (by decide)
  | cons c p => exact habs

theorem isAbs_dir {p : Text} (habs : isAbs p = true) : isAbs (dir p) = true := by
  rw [dir, isAbs_clean]
  rcases splitLast_cases p with ⟨-, hslash⟩ | ⟨a, b, rfl, -, h⟩
  · cases p with
    | nil => exact absurd habs (by decide)
    | cons c p =>
      obtain rfl : c = slash := of_decide_eq_true habs
      exact absurd List.mem_cons_self hslash
  · rw [h]
    cases a with
    | nil => rfl
    | cons c a => exact habs

/-- What is joined to an absolute path is a clean absolute path. -/
theorem exists_join_eq_clean {d : Text} (habs : isAbs d = true) (rest : List Text) :
    ∃ q, isAbs q = true ∧ join (d :: rest) = clean q := by
  have hd : d.isEmpty = false := by
    cases d with
    | nil => exact absurd habs (by decide)
    | cons c d => rfl
  refine ⟨Text.join [slash] (d :: rest.filter fun p => !p.isEmpty), ?_, ?_⟩
  · rw [join_cons]
    exact isAbs_append habs _
  · simp [join, hd]

theorem isAbs_join {d : Text} (habs : isAbs d = true) (rest : List Text) :
    isAbs (join (d :: rest)) = true := by
  obtain ⟨q, hq, heq⟩ := exists_join_eq_clean habs rest
  rw [heq, isAbs_clean, hq]

theorem ascents_join_eq_zero {d : Text} (habs : isAbs d = true) (rest : List Text) :
    ascents (join (d :: rest)) = 0 := by
  obtain ⟨q, hq, heq⟩ := exists_join_eq_clean habs rest
  rw [heq, ascents_eq_zero_of_isAbs hq]

theorem isAbs_absolute {root : Text} (habs : isAbs root = true) (p : Text) :
    isAbs (absolute root p) = true := by
  unfold absolute
  split_ifs with hp
  · exact hp
  · exact isAbs_join habs [p]

/-- Names at the end of a path are its last segments. -/
theorem exists_segments_eq {q : Text} {parts names : List Text}
    (hsplit : split slash q = parts ++ names) (hnames : ∀ s ∈ names, Named s) :
    ∃ front, segments q = front ++ names := by
  refine ⟨(parts.foldl (push (isAbs q)) []).reverse, ?_⟩
  rw [segments, hsplit, List.foldl_append, foldl_push_named hnames, List.reverse_append,
    List.reverse_reverse]

/-- The parts of a clean path end in its segments. -/
theorem exists_split_clean {p : Text} (hne : segments p ≠ []) :
    ∃ parts, split slash (clean p) = parts ++ segments p := by
  have hjoin : split slash (Text.join [slash] (segments p)) = segments p :=
    split_join hne fun s => slash_notMem_segments
  rcases clean_cases p with ⟨-, heq⟩ | ⟨-, hempty, -⟩ | ⟨-, -, heq⟩
  · exact ⟨[[]], by rw [heq, split_cons_sep, hjoin]; rfl⟩
  · exact absurd hempty hne
  · exact ⟨[], by rw [heq, hjoin]; rfl⟩

end Path

namespace FileTree

open Path

/-- A file is looked up under the segments of its path from the root. -/
theorem exists_key_eq {t : FileTree} (hcwd : isAbs t.cwd = true) (p : Text) :
    ∃ q, t.key p = Text.join [slash] (segments q) ∧
      ∃ parts, split slash q = parts ++ split slash p := by
  have hkey {q : Text} (habs : isAbs q = true) :
      without (clean q) [ch '/'] = Text.join [slash] (segments q) := by
    rcases clean_cases q with ⟨-, heq⟩ | ⟨hrel, -⟩ | ⟨hrel, -⟩
    · rw [heq]
      simp [without, after?, starts, slash]
    · exact absurd habs (by simp [hrel])
    · exact absurd habs (by simp [hrel])
  by_cases habs : isAbs p = true
  · exact ⟨p, by rw [key, if_pos habs, hkey habs], [], rfl⟩
  · refine ⟨t.cwd ++ ch '/' :: p, ?_, split slash t.cwd, split_append_sep _ _ _⟩
    rw [key, if_neg habs, hkey (isAbs_append hcwd _)]

/-- A clean path is longer than the key of its file only by the segments that lead up and a
slash: the names after those stand at the end of the key. -/
theorem length_clean_le {t : FileTree} (hcwd : isAbs t.cwd = true) (x : Text) :
    (clean x).length ≤ (t.key (clean x)).length + 3 * ascents (clean x) + 1 := by
  by_cases hempty : segments x = []
  · have hone : (clean x).length = 1 := by
      rcases clean_cases x with ⟨-, heq⟩ | ⟨-, -, heq⟩ | ⟨-, hne, -⟩
      · rw [heq, hempty]
        rfl
      · rw [heq]
        rfl
      · exact absurd hempty hne
    omega
  obtain ⟨names, ups, hsegments, hnames, -, -⟩ := segments_eq x
  -- each segment that leads up counts three bytes, and the names are in the key
  have hups : ascents (clean x) = ups := by
    have hnone : names.count up = 0 :=
      List.count_eq_zero_of_not_mem fun hup => (hnames up hup).1.ne_up rfl
    rw [ascents_clean, hsegments, List.count_append, List.count_replicate_self, hnone]
    rfl
  have hlength : (clean x).length ≤ (Text.join [slash] (segments x)).length + 1 := by
    rcases clean_cases x with ⟨-, heq⟩ | ⟨-, hnil, -⟩ | ⟨-, -, heq⟩
    · rw [heq]
      exact Nat.le_refl _
    · exact absurd hnil hempty
    · rw [heq]
      exact Nat.le_succ _
  have hups_length := length_join_replicate_le slash up ups names
  have hup_length : up.length = 2 := by decide
  rw [hup_length, ← hsegments] at hups_length
  -- the names are the last segments of the path from the root
  obtain ⟨q, hkey, parts, hsplit⟩ := exists_key_eq hcwd (clean x)
  obtain ⟨parts', hsplit'⟩ := exists_split_clean hempty
  rw [hsplit', hsegments, ← List.append_assoc, ← List.append_assoc] at hsplit
  obtain ⟨front, hq⟩ := exists_segments_eq hsplit fun s hs => (hnames s hs).1
  have hnames_length := length_join_le_append slash front names
  rw [hkey, hq, hups]
  omega

end FileTree

end Stylesheet
