import Mathlib.Data.List.Induction
import Stylesheet.Proofs.Path

/-!
# Paths below a directory

A clean path is in a directory if its segments are those of the directory and then names, none
of which leads up. What a path adds to the directory it is taken from is its trail: it climbs
out of so many directories and then goes down by names. From an absolute directory that says
where it ends, with nothing above the root to climb to; from a relative one it does so if the
path never leads up.

## Main definitions

* `Path.trail` — how a path goes on from a directory
* `Path.Within` — a directory, or a path below it

## Main results

* `Path.segments_clean`, `Path.clean_clean` — cleaning once is enough
* `Path.exists_trail` — where a path taken from an absolute directory ends
* `Path.within_join` — a path that never leads up stays in the directory
-/

namespace Stylesheet.Path

open Text

/-! ### Cleaning once -/

theorem foldl_push_replicate_up (n : Nat) (stack : List Text) (hstack : ∀ s ∈ stack, s = up) :
    (List.replicate n up).foldl (push false) stack = List.replicate n up ++ stack := by
  induction n generalizing stack with
  | zero => rfl
  | succ n ih =>
    have hpush : push false stack up = up :: stack := by
      rw [push_up]
      cases stack with
      | nil => rfl
      | cons top rest => exact if_pos (hstack top List.mem_cons_self)
    rw [List.replicate_succ, List.foldl_cons, hpush,
      ih _ (List.forall_mem_cons.mpr ⟨rfl, hstack⟩), List.append_cons, ← List.replicate_succ',
      List.replicate_succ]

/-- The segments of a clean path, passed again, are left as they are. -/
theorem foldl_push_segments (p : Text) :
    (segments p).foldl (push (isAbs p)) [] = (segments p).reverse := by
  obtain ⟨names, ups, heq, hnames, -, hrooted⟩ := segments_eq p
  have hnamed : ∀ s ∈ names, Named s := fun s hs => (hnames s hs).1
  cases habs : isAbs p with
  | true =>
    obtain rfl := hrooted habs
    rw [heq, List.replicate_zero, List.nil_append, foldl_push_named hnamed, List.append_nil]
  | false =>
    rw [heq, List.foldl_append, foldl_push_replicate_up _ _ (List.forall_mem_nil _),
      foldl_push_named hnamed, List.append_nil, List.reverse_append, List.reverse_replicate]

theorem segments_clean (p : Text) : segments (clean p) = segments p := by
  have hagain : ((segments p).foldl (push (isAbs p)) []).reverse = segments p := by
    rw [foldl_push_segments, List.reverse_reverse]
  have hjoin : segments p ≠ [] →
      split slash (Text.join [slash] (segments p)) = segments p :=
    fun hne => split_join hne fun s => slash_notMem_segments
  rw [segments, isAbs_clean]
  rcases clean_cases p with ⟨habs, heq⟩ | ⟨hrel, hempty, heq⟩ | ⟨hrel, hne, heq⟩
  · rw [heq, split_cons_sep]
    by_cases hempty : segments p = []
    · rw [hempty, habs]
      rfl
    · rw [hjoin hempty, List.foldl_cons]
      exact hagain
  · rw [heq, hempty, hrel]
    rfl
  · rw [heq, hjoin hne]
    exact hagain

theorem clean_clean (p : Text) : clean (clean p) = clean p := by
  rw [clean, segments_clean, isAbs_clean]
  rfl

/-! ### Trails -/

/-- How a path goes on from a directory: out of it, and then down. -/
def trail (p : Text) : List Text := ((split slash p).foldl (push false) []).reverse

theorem trail_eq_segments {p : Text} (hrel : isAbs p = false) : trail p = segments p := by
  rw [trail, segments, hrel]

/-- A part of a path does nothing, leads up, or names something. -/
theorem part_cases (s : Text) :
    (∀ rooted stack, push rooted stack s = stack) ∨ s = up ∨ Named s := by
  by_cases hskip : s = [] ∨ s = of "."
  · left
    rintro rooted stack
    rcases hskip with rfl | rfl <;> rfl
  obtain ⟨hnil, hhere⟩ := not_or.mp hskip
  by_cases hup : s = up
  · exact .inr (.inl hup)
  · exact .inr (.inr ⟨hnil, hhere, hup⟩)

/-- What parts do to the directory they are taken from: they leave so many of its last segments
behind and put names after the others. One more part changes one of the two. -/
theorem exists_shape_foldl_push (parts : List Text) :
    ∃ names ups, Shape (parts.foldl (push false) []) names ups ∧
      ∀ stack, (∀ s ∈ stack, Named s) →
        parts.foldl (push true) stack = names ++ stack.drop ups := by
  -- segment by segment: what is on the stack on its own, and what is taken from one below it
  induction parts using List.reverseRecOn with
  | nil => exact ⟨[], 0, shape_nil, fun stack _ => rfl⟩
  | append_singleton parts s ih =>
    obtain ⟨names, ups, hshape, hstacks⟩ := ih
    simp only [List.foldl_append, List.foldl_cons, List.foldl_nil]
    rcases part_cases s with hskip | rfl | hs
    · refine ⟨names, ups, by rwa [hskip], fun stack hstack => ?_⟩
      rw [hskip, hstacks stack hstack]
    · rw [hshape.eq]
      cases names with
      | cons top names =>
        -- the last name is taken back
        obtain ⟨htop, hnames⟩ := List.forall_mem_cons.mp hshape.named
        refine ⟨names, ups, ⟨?_, hnames⟩, fun stack hstack => ?_⟩
        · exact if_neg htop.ne_up
        · rw [hstacks stack hstack]
          exact if_neg htop.ne_up
      | nil =>
        -- one more of the directory's segments is left behind
        refine ⟨[], ups + 1, ⟨?_, hshape.named⟩, fun stack hstack => ?_⟩
        · cases ups <;> rfl
        · rw [hstacks stack hstack, List.nil_append, List.nil_append, ← List.drop_drop, push_up]
          cases hdrop : stack.drop ups with
          | nil => rfl
          | cons top rest =>
            have htop : Named top := hstack top (List.mem_of_mem_drop (hdrop ▸ List.mem_cons_self))
            exact if_neg htop.ne_up
    · refine ⟨s :: names, ups, ⟨?_, List.forall_mem_cons.mpr ⟨hs, hshape.named⟩⟩,
        fun stack hstack => ?_⟩
      · rw [push_named hs, hshape.eq, List.cons_append]
      · rw [push_named hs, hstacks stack hstack, List.cons_append]

/-- The segments of a path below an absolute directory. -/
theorem named_of_mem_segments {p s : Text} (habs : isAbs p = true) (hs : s ∈ segments p) :
    Named s := by
  obtain ⟨names, ups, heq, hnames, -, hrooted⟩ := segments_eq p
  rw [heq, hrooted habs] at hs
  exact (hnames s hs).1

theorem segments_append_slash {d : Text} (hd : d ≠ []) (p : Text) :
    segments (d ++ slash :: p) =
      ((split slash p).foldl (push (isAbs d)) (segments d).reverse).reverse := by
  have habs : isAbs (d ++ slash :: p) = isAbs d := by
    obtain ⟨c, rest, rfl⟩ := List.exists_cons_of_ne_nil hd
    rfl
  rw [segments, habs, split_append_sep, List.foldl_append, segments, List.reverse_reverse]

/-- A path joined to a directory goes on from there. -/
theorem segments_join {d : Text} (hd : d ≠ []) (p : Text) :
    segments (join [d, p]) =
      ((split slash p).foldl (push (isAbs d)) (segments d).reverse).reverse := by
  rw [join_pair, if_neg fun h => hd h.1, if_neg hd, segments_clean]
  split_ifs with hp
  · rw [hp, show split slash [] = [[]] from rfl, List.foldl_cons, List.foldl_nil]
    exact (List.reverse_reverse _).symm
  · exact segments_append_slash hd p

/-- From an absolute directory a path climbs out of as many directories as its trail says, but
not above the root, and then goes down by the names of the trail. -/
theorem exists_trail (p : Text) :
    ∃ ups names, trail p = List.replicate ups up ++ names ∧ (∀ s ∈ names, Named s) ∧
      ∀ d, isAbs d = true → segments (join [d, p]) =
        (segments d).take ((segments d).length - ups) ++ names := by
  obtain ⟨names, ups, hshape, hstacks⟩ := exists_shape_foldl_push (split slash p)
  refine ⟨ups, names.reverse, ?_, fun s hs => hshape.named s (List.mem_reverse.mp hs),
    fun d habs => ?_⟩
  · rw [trail, hshape.eq, List.reverse_append, List.reverse_replicate]
  · have hd : d ≠ [] := by
      rintro rfl
      exact absurd habs (by decide)
    have hnamed : ∀ s ∈ (segments d).reverse, Named s :=
      fun s hs => named_of_mem_segments habs (List.mem_reverse.mp hs)
    rw [segments_join hd, habs, hstacks _ hnamed, List.reverse_append, List.reverse_drop,
      List.reverse_reverse, List.length_reverse]

/-! ### Staying in a directory -/

/-- A clean path that is a directory or lies below it. -/
structure Within (d p : Text) : Prop where
  clean : clean p = p
  isAbs : isAbs p = isAbs d
  segments : ∃ names, segments p = segments d ++ names ∧ ∀ s ∈ names, Named s

/-- Parts that do not lead up put names after those there are. -/
theorem exists_foldl_push_eq (rooted : Bool) {parts : List Text} (hparts : up ∉ parts)
    (stack : List Text) : ∃ names, parts.foldl (push rooted) stack = names ++ stack ∧
      ∀ s ∈ names, Named s := by
  induction parts generalizing stack with
  | nil => exact ⟨[], rfl, List.forall_mem_nil _⟩
  | cons s parts ih =>
    obtain ⟨hs, hparts⟩ := List.ne_and_not_mem_of_not_mem_cons hparts
    rw [List.foldl_cons]
    rcases part_cases s with hskip | hup | hnamed
    · rw [hskip]
      exact ih hparts stack
    · exact absurd hup.symm hs
    · obtain ⟨names, heq, hnames⟩ := ih hparts (s :: stack)
      refine ⟨names ++ [s], ?_, ?_⟩
      · rw [push_named hnamed, heq, List.append_assoc, List.singleton_append]
      · exact List.forall_mem_append.mpr ⟨hnames, List.forall_mem_singleton.mpr hnamed⟩

theorem isAbs_join_pair {d : Text} (hd : d ≠ []) (p : Text) : isAbs (join [d, p]) = isAbs d := by
  rw [join_pair, if_neg fun h => hd h.1, if_neg hd, isAbs_clean]
  split_ifs
  · rfl
  · obtain ⟨c, rest, rfl⟩ := List.exists_cons_of_ne_nil hd
    rfl

theorem clean_ne_nil (p : Text) : clean p ≠ [] := by
  rcases clean_cases p with ⟨-, heq⟩ | ⟨-, -, heq⟩ | ⟨-, hne, heq⟩
  · rw [heq]
    exact List.cons_ne_nil _ _
  · rw [heq]
    decide
  · rw [heq]
    obtain ⟨s, rest, hsegments⟩ := List.exists_cons_of_ne_nil hne
    have hs : s ≠ [] := segments_ne_nil (p := p) (by simp [hsegments])
    simp [hsegments, join_cons, hs]

theorem clean_join_of_ne_nil {d : Text} (hd : d ≠ []) (p : Text) :
    clean (join [d, p]) = join [d, p] := by
  rw [join_pair, if_neg fun h => hd h.1, if_neg hd]
  exact clean_clean _

/-- A path that never leads up stays in the directory it is joined to. -/
theorem within_join {d p : Text} (hd : d ≠ []) (hp : up ∉ split slash p) :
    Within d (join [d, p]) := by
  refine ⟨clean_join_of_ne_nil hd p, isAbs_join_pair hd p, ?_⟩
  obtain ⟨names, heq, hnames⟩ := exists_foldl_push_eq (isAbs d) hp (segments d).reverse
  refine ⟨names.reverse, ?_, fun s hs => hnames s (List.mem_reverse.mp hs)⟩
  rw [segments_join hd, heq, List.reverse_append, List.reverse_reverse]

end Stylesheet.Path
