import Stylesheet.Proofs.Path.Containment

/-!
# Relative paths

The path from one absolute directory to another file climbs as far as the two have to part, and
goes down from there. A path that was made absolute against the directory is told again by it
only if it climbs no further than it must: one that climbs above the root, or goes down again
where it came up, is told shorter.

## Main definitions

* `Path.Retraces` — a path that climbs further than it must
* `Path.Tells` — a path as it is told from a directory

## Main results

* `Path.exists_rel?` — the relative path, and how it climbs
* `Path.clean_eq_clean_rel_iff` — which paths are told as they are written
-/

namespace Stylesheet.Path

open Text

/-! ### Where two paths part -/

/-- Two lists of segments share their first segments and part there. -/
theorem exists_apart (r t : List Text) :
    ∃ shared, r = shared ++ (apart r t).1 ∧ t = shared ++ (apart r t).2 ∧
      ∀ s ∈ (apart r t).1.head?, s ∉ (apart r t).2.head? := by
  fun_induction apart r t with
  | case1 r b t ih =>
    obtain ⟨shared, hr, ht, hpart⟩ := ih
    exact ⟨b :: shared, congrArg (b :: ·) hr, congrArg (b :: ·) ht, hpart⟩
  | case2 a r b t hne =>
    refine ⟨[], rfl, rfl, fun s hs hs' => hne ?_⟩
    rw [Option.mem_def, List.head?_cons] at hs hs'
    rw [Option.some.inj hs, Option.some.inj hs']
  | case3 r t hnone =>
    refine ⟨[], rfl, rfl, fun s hs hs' => ?_⟩
    cases r with
    | nil => cases hs
    | cons a r =>
      cases t with
      | nil => cases hs'
      | cons b t => exact hnone a r b t rfl rfl

theorem apart_append (shared r t : List Text) : apart (shared ++ r) (shared ++ t) = apart r t := by
  induction shared with
  | nil => rfl
  | cons a shared ih =>
    rw [List.cons_append, List.cons_append, apart, if_pos rfl]
    exact ih

theorem apart_eq_self {r t : List Text} (h : ∀ s ∈ r.head?, s ∉ t.head?) : apart r t = (r, t) := by
  cases r with
  | nil => rfl
  | cons a r =>
    cases t with
    | nil => rfl
    | cons b t =>
      have hne : a ≠ b := by
        rintro rfl
        exact h a rfl rfl
      rw [apart, if_neg hne]

/-! ### The relative path -/

/-- Two clean paths are the same if they start alike and have the same segments. -/
theorem clean_eq_clean_iff {p q : Text} :
    clean p = clean q ↔ isAbs p = isAbs q ∧ segments p = segments q := by
  constructor
  · intro h
    exact ⟨by rw [← isAbs_clean p, h, isAbs_clean], by rw [← segments_clean p, h, segments_clean]⟩
  · rintro ⟨habs, hsegments⟩
    rw [clean, clean, habs, hsegments]

theorem isAbs_join_segments {parts : List Text} (hnil : ∀ s ∈ parts, s ≠ [])
    (hslash : ∀ s ∈ parts, slash ∉ s) : isAbs (Text.join [slash] parts) = false := by
  cases parts with
  | nil => rfl
  | cons s parts =>
    obtain ⟨c, t, rfl⟩ := List.exists_cons_of_ne_nil (hnil s List.mem_cons_self)
    have hc : c ≠ slash := by
      rintro rfl
      exact hslash _ List.mem_cons_self List.mem_cons_self
    simp [isAbs, head0, join_cons, hc]

/-- A path made of segments that lead up and names has these segments. -/
theorem segments_join_segments {ups : Nat} {names : List Text} (hnames : ∀ s ∈ names, Named s)
    (hslash : ∀ s ∈ names, slash ∉ s) :
    isAbs (Text.join [slash] (List.replicate ups up ++ names)) = false ∧
      segments (Text.join [slash] (List.replicate ups up ++ names)) =
        List.replicate ups up ++ names := by
  have hparts : ∀ s ∈ List.replicate ups up ++ names, s ≠ [] ∧ slash ∉ s := by
    intro s hs
    rcases List.mem_append.mp hs with hs | hs
    · rw [List.eq_of_mem_replicate hs]
      decide
    · exact ⟨(hnames s hs).ne_nil, hslash s hs⟩
  have hrel := isAbs_join_segments (fun s hs => (hparts s hs).1) (fun s hs => (hparts s hs).2)
  refine ⟨hrel, ?_⟩
  by_cases hempty : List.replicate ups up ++ names = []
  · rw [hempty]
    decide
  · rw [segments, hrel, split_join hempty fun s hs => (hparts s hs).2, List.foldl_append,
      foldl_push_replicate_up _ _ (List.forall_mem_nil _), foldl_push_named hnames,
      List.append_nil, List.reverse_append, List.reverse_reverse, List.reverse_replicate]

/-- From one absolute path to another: up to where they part, and down from there. -/
theorem exists_rel? {root target : Text} (hroot : isAbs root = true)
    (htarget : isAbs target = true) :
    ∃ rel, rel? root target = some rel ∧ isAbs rel = false ∧
      segments rel = List.replicate (apart (segments root) (segments target)).1.length up ++
        (apart (segments root) (segments target)).2 := by
  unfold rel?
  by_cases hsame : clean root = clean target
  · refine ⟨of ".", if_pos hsame, rfl, ?_⟩
    have heq := (clean_eq_clean_iff.mp hsame).2
    have hself := apart_append (segments target) [] []
    rw [List.append_nil] at hself
    rw [heq, hself]
    decide
  rw [if_neg hsame, if_neg (by simp [hroot, htarget])]
  obtain ⟨shared, hr, ht, -⟩ := exists_apart (segments root) (segments target)
  generalize apart (segments root) (segments target) = parted at hr ht ⊢
  obtain ⟨back, forth⟩ := parted
  dsimp only at hr ht ⊢
  -- neither path climbs, so nothing is in the way of climbing back
  have hback : back.head? ≠ some up := by
    intro hhead
    have hmem : up ∈ segments root := hr ▸ List.mem_append_right _ (List.mem_of_mem_head? hhead)
    exact (named_of_mem_segments hroot hmem).ne_up rfl
  have hforth : ∀ s ∈ forth, s ∈ segments target := by
    intro s hs
    rw [ht]
    exact List.mem_append_right _ hs
  rw [if_neg hback, List.map_const']
  exact ⟨_, rfl, segments_join_segments (fun s hs => named_of_mem_segments htarget (hforth s hs))
    (fun s hs => slash_notMem_segments (hforth s hs))⟩

/-! ### Paths told as they are written -/

/-- How many directories a relative path leaves. -/
def climbs (p : Text) : Nat := (segments p).count up

/-- The path climbs above the root directory of all, or out of a directory it enters again. -/
def Retraces (root path : Text) : Prop :=
  (segments root).length < climbs path ∨
    ∃ s ∈ ((segments root).drop ((segments root).length - climbs path)).head?,
      s ∈ ((segments path).drop (climbs path)).head?

instance (root path : Text) : Decidable (Retraces root path) := instDecidableOr

/-- The path is a direct way from the directory to the target. -/
structure Tells (root path target : Text) : Prop where
  isRel : isAbs path = false
  direct : ¬ Retraces root path
  target : clean (absolute root path) = clean target

/-- A path that begins with so many segments that lead up, and then names. -/
theorem climbs_eq {path : Text} {ups : Nat} {names : List Text}
    (h : segments path = List.replicate ups up ++ names) (hnames : ∀ s ∈ names, Named s) :
    climbs path = ups ∧ (segments path).drop (climbs path) = names := by
  have hups : climbs path = ups := by
    have hnone : names.count up = 0 :=
      List.count_eq_zero_of_not_mem fun hup => (hnames up hup).ne_up rfl
    rw [climbs, h, List.count_append, List.count_replicate_self, hnone]
    rfl
  rw [hups, h]
  exact ⟨rfl, List.drop_left' List.length_replicate⟩

theorem segments_eq_climbs (path : Text) :
    segments path = List.replicate (climbs path) up ++ (segments path).drop (climbs path) := by
  obtain ⟨names, ups, heq, hnames, -⟩ := segments_eq path
  obtain ⟨hups, hdrop⟩ := climbs_eq heq fun s hs => (hnames s hs).1
  rw [hdrop, hups, heq]

/-- Where a relative path leads from an absolute directory. -/
theorem segments_absolute {root path : Text} (hroot : isAbs root = true)
    (hpath : isAbs path = false) :
    segments (absolute root path) =
      (segments root).take ((segments root).length - climbs path) ++
        (segments path).drop (climbs path) := by
  obtain ⟨ups, names, htrail, hnames, hjoin⟩ := exists_trail path
  rw [trail_eq_segments hpath] at htrail
  obtain ⟨hups, hdrop⟩ := climbs_eq htrail hnames
  rw [absolute, if_neg (by simp [hpath]), hjoin root hroot, hdrop, hups]

/-- What climbs to what two paths share and goes on as the second does tells it. -/
theorem tells_of_segments {root path target : Text} (hroot : isAbs root = true)
    (htarget : isAbs target = true) (hpath : isAbs path = false)
    (hsegments : segments path =
      List.replicate (apart (segments root) (segments target)).1.length up ++
        (apart (segments root) (segments target)).2) : Tells root path target := by
  obtain ⟨shared, hr, ht, hpart⟩ := exists_apart (segments root) (segments target)
  have hforth : ∀ s ∈ (apart (segments root) (segments target)).2, Named s := by
    intro s hs
    refine named_of_mem_segments htarget ?_
    rw [ht]
    exact List.mem_append_right _ hs
  obtain ⟨hclimbs, hdrop⟩ := climbs_eq hsegments hforth
  have hlength := congrArg List.length hr
  rw [List.length_append] at hlength
  -- what is climbed over is what the root has for itself
  have hat : (segments root).length - climbs path = shared.length := by
    rw [hclimbs]
    omega
  have hback : (segments root).drop shared.length =
      (apart (segments root) (segments target)).1 := by
    conv_lhs => rw [hr]
    exact List.drop_left
  have hfront : (segments root).take shared.length = shared := by
    conv_lhs => rw [hr]
    exact List.take_left
  refine ⟨hpath, ?_, clean_eq_clean_iff.mpr ⟨?_, ?_⟩⟩
  · rintro (habove | ⟨s, hs, hs'⟩)
    · omega
    · rw [hat, hback] at hs
      rw [hdrop] at hs'
      exact hpart s hs hs'
  · rw [isAbs_absolute hroot, htarget]
  · rw [segments_absolute hroot hpath, hat, hdrop, hfront, ← ht]

/-- A path that tells another climbs to what they share, and goes on as the other does. -/
theorem segments_of_tells {root path target : Text} (hroot : isAbs root = true)
    (h : Tells root path target) : segments path =
      List.replicate (apart (segments root) (segments target)).1.length up ++
        (apart (segments root) (segments target)).2 := by
  obtain ⟨hpath, hdirect, hsame⟩ := h
  obtain ⟨hnotAbove, hpart⟩ := not_or.mp hdirect
  have htarget' := (clean_eq_clean_iff.mp hsame).2
  rw [segments_absolute hroot hpath] at htarget'
  have hsplit := List.take_append_drop ((segments root).length - climbs path) (segments root)
  -- what the path leaves and what it enters have nothing in common
  have hapart := apart_append ((segments root).take ((segments root).length - climbs path))
    ((segments root).drop ((segments root).length - climbs path))
    ((segments path).drop (climbs path))
  rw [hsplit, htarget', apart_eq_self fun s hs hs' => hpart ⟨s, hs, hs'⟩] at hapart
  have hlength : ((segments root).drop ((segments root).length - climbs path)).length =
      climbs path := by
    rw [List.length_drop]
    omega
  rw [hapart, hlength]
  exact segments_eq_climbs path

/-- A path is told as it is written exactly if it is relative and a direct way to the target. -/
theorem clean_eq_clean_rel_iff {root path target rel : Text} (hroot : isAbs root = true)
    (htarget : isAbs target = true) (hrel : rel? root target = some rel) :
    clean path = clean rel ↔ Tells root path target := by
  obtain ⟨_, heq, hisrel, hsegments⟩ := exists_rel? hroot htarget
  obtain rfl := Option.some.inj (heq.symm.trans hrel)
  rw [clean_eq_clean_iff, hisrel, hsegments]
  constructor
  · rintro ⟨hpath, hsegments⟩
    exact tells_of_segments hroot htarget hpath hsegments
  · exact fun h => ⟨h.1, segments_of_tells hroot h⟩

end Stylesheet.Path
