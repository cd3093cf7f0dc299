import Mathlib.Algebra.Order.BigOperators.Group.List
import Mathlib.Algebra.Order.Monoid.Canonical.Basic
import Mathlib.Algebra.Order.Ring.Nat
import Stylesheet.Import
import Stylesheet.Proofs.Path

/-!
# Where imports are found

A name is looked for in the importing directory, in the load paths, and in the packages above
the importing directory. Whatever file is found, the path it is found under ends in the file's
key and leads up no more often than the directories the search started from. So the paths of
files are of bounded length, however files import each other.

## Main results

* `Resolver.search_of_resolve` — what was searched for a name that is resolved
* `Resolver.ascents_le_of_resolve` — how often the path found leads up
* `FileTree.length_le_of_read` — how long the path of a file is
* `FileTree.read_of_isFile` — which files are read
-/

namespace Stylesheet

open Text Path

/-! ### Files -/

/-- A text that is read is that of a file, under the key of its path. -/
theorem FileTree.mem_files_of_read {tree : FileTree} {p content : Text}
    (h : tree.read p = .ok content) : (tree.key p, content) ∈ tree.files := by
  unfold read at h
  dsimp only at h
  split at h
  · next c hlookup =>
    split_ifs at h
    cases h
    obtain ⟨before, after, hfiles, -⟩ := List.lookup_eq_some_iff.mp hlookup
    rw [hfiles]
    exact List.mem_append_right _ List.mem_cons_self
  · split_ifs at h

/-- A file is what has a text, whether that can be read or not. -/
theorem FileTree.isFile_iff {tree : FileTree} {p : Text} :
    tree.isFile p = true ↔
      tree.openable (tree.key p) = true ∧ (tree.content? (tree.key p)).isSome := by
  unfold isFile stat
  dsimp only
  cases hopen : tree.openable (tree.key p) with
  | false => simp
  | true =>
    cases tree.content? (tree.key p) with
    | some c => simp
    | none => split_ifs <;> simp_all

/-- A file is read, unless it is one of those that cannot be. -/
theorem FileTree.read_of_isFile {tree : FileTree} {p : Text} (h : tree.isFile p = true) :
    (tree.key p ∈ tree.unreadable → tree.read p = .error (.denied (tree.shown p))) ∧
      (tree.key p ∉ tree.unreadable → ∃ content, tree.read p = .ok content) := by
  obtain ⟨hopen, hcontent⟩ := isFile_iff.mp h
  obtain ⟨content, hcontent⟩ := Option.isSome_iff_exists.mp hcontent
  unfold read
  dsimp only
  rw [hcontent]
  dsimp only
  rw [if_pos hopen]
  refine ⟨fun hdenied => if_pos (by simpa using hdenied), fun hallowed => ⟨content, ?_⟩⟩
  exact if_neg (by simpa using hallowed)

/-- The path of a file, which a directory and a name were joined to, is not much longer than
the keys of all files. -/
theorem FileTree.length_le_of_read {tree : FileTree} (hcwd : isAbs tree.cwd = true)
    {d n content : Text}
    (h : tree.read (Path.join [d, n]) = .ok content) :
    (Path.join [d, n]).length ≤
      (tree.files.map fun f => f.1.length).sum + 3 * ascents (Path.join [d, n]) + 1 := by
  have hkey : (tree.key (Path.join [d, n])).length ≤ (tree.files.map fun f => f.1.length).sum :=
    List.le_sum_of_mem (List.mem_map.mpr ⟨_, mem_files_of_read h, rfl⟩)
  rw [join_pair] at hkey ⊢
  split_ifs at hkey ⊢
  · exact Nat.zero_le _
  all_goals
    refine Nat.le_trans (length_clean_le hcwd _) ?_
    omega

/-! ### Spellings -/

/-- The spellings of a name lead up only where the name does. -/
theorem ascents_of_mem_candidates {name n : Text} (hname : up ∉ split slash name)
    (hn : n ∈ candidates name) : ascents n = 0 := by
  obtain ⟨hslash, heq, front, hfront⟩ := exists_split_splitLast name
  have hsplit := hfront _ hslash
  rw [← heq] at hsplit
  unfold candidates at hn
  dsimp only at hn
  generalize (splitLast name).1 = dir at hn hfront
  generalize (splitLast name).2 = file at hn hslash hsplit
  rw [hsplit] at hname
  have hlast {x : Text} (hx : slash ∉ x) (hup : x ≠ up) : ascents (dir ++ x) = 0 := by
    rw [ascents, hfront x hx]
    refine List.count_eq_zero_of_not_mem fun hmem => ?_
    rcases List.mem_append.mp hmem with hmem | hmem
    · exact hname (List.mem_append_left _ hmem)
    · exact hup (List.mem_singleton.mp hmem).symm
  -- the file's name with something before or after it is no `..`
  have hextension : slash ∉ extension ∧ extension.length = 5 := by decide
  have hunder {x : Text} : ch '_' :: x ≠ up := fun h =>
    absurd (List.head_eq_of_cons_eq h) (by decide)
  have hlong {x : Text} : x ++ extension ≠ up := by
    intro h
    have hlength := congrArg List.length h
    rw [List.length_append, hextension.2] at hlength
    have hup : up.length = 2 := by decide
    omega
  have hslash' {x : Text} (hx : slash ∉ x) : slash ∉ ch '_' :: x ∧ slash ∉ x ++ extension := by
    have hne : slash ≠ ch '_' := by decide
    simp [hx, hne, hextension.1]
  simp only [List.append_assoc, List.cons_append, List.mem_cons, List.not_mem_nil, or_false] at hn
  rcases hn with rfl | rfl | rfl | rfl
  · exact hlast (hslash' (hslash' hslash).2).1 hunder
  · exact hlast (hslash' hslash).2 hlong
  · exact hlast (hslash' hslash).1 hunder
  · refine hlast hslash ?_
    rintro rfl
    exact hname (List.mem_append_right _ List.mem_cons_self)

/-! ### Directories -/

namespace Resolver

variable {tree : FileTree} {dirs names paths : List Text} {p root name src : Text}

/-- A file found is named by a directory and a spelling. -/
theorem exists_of_firstFile? (h : firstFile? tree dirs names = some p) :
    ∃ d ∈ dirs, ∃ n ∈ names, p = Path.join [d, n] := by
  have hmem := List.mem_of_find?_eq_some h
  obtain ⟨d, hd, hmap⟩ := List.mem_flatMap.mp hmem
  obtain ⟨n, hn, rfl⟩ := List.mem_map.mp hmap
  exact ⟨d, hd, n, hn, rfl⟩

/-- Whatever a name is resolved to was searched for: in the modules of the directories above an
absolute one, or in the load paths for a name that does not lead up. -/
theorem search_of_resolve {found : Resolved}
    (h : (standard root paths).resolve tree name src = .ok found) :
    (∃ start package names, firstFile? tree
      (((upwards (absolute tree.cwd start).length (absolute tree.cwd start)).map fun d =>
        Path.join [d, of "node_modules", package]).filter tree.exists') names = some found.path) ∨
    up ∉ split slash name ∧
      firstFile? tree (searchDirs paths src) (candidates name) = some found.path := by
  unfold standard resolve resolveFirst at h
  split at h
  · unfold resolve byPackage at h
    split at h
    · cases h
    · next pkg hpkg =>
      dsimp only at h
      split at h
      · next p hfound =>
        cases h
        exact .inl ⟨_, pkg.name, _, hfound⟩
      · cases h
  · unfold resolveFirst at h
    split at h
    · unfold resolve byLoadPath at h
      split_ifs at h with hup
      dsimp only at h
      split at h
      · next p hfound =>
        cases h
        exact .inr ⟨by simpa [slash] using hup, hfound⟩
      · cases h
    · cases h

/-- What a name is resolved to is a file. -/
theorem isFile_of_resolve {found : Resolved}
    (h : (standard root paths).resolve tree name src = .ok found) :
    tree.isFile found.path = true := by
  rcases search_of_resolve h with ⟨start, package, names, hfound⟩ | ⟨-, hfound⟩
  · exact List.find?_some hfound
  · exact List.find?_some hfound

/-- The directories searched lead up no more often than the importing one and the load
paths. -/
theorem ascents_le_of_mem_searchDirs {k : Nat} (hpaths : ∀ q ∈ paths, ascents q ≤ k)
    (hsrc : ascents src ≤ k) {d : Text} (hd : d ∈ searchDirs paths src) : ascents d ≤ k := by
  have hfold {dirs seen : List Text} (hd : d ∈ dirs.foldl
      (fun seen d => if seen.contains d then seen else seen ++ [d]) seen) :
      d ∈ seen ∨ d ∈ dirs := by
    induction dirs generalizing seen with
    | nil => exact .inl hd
    | cons e dirs ih =>
      rw [List.foldl_cons] at hd
      rcases ih hd with hseen | hdirs
      · split_ifs at hseen
        · exact .inl hseen
        · rcases List.mem_append.mp hseen with hseen | he
          · exact .inl hseen
          · exact .inr (List.mem_cons.mpr (.inl (List.mem_singleton.mp he)))
      · exact .inr (List.mem_cons_of_mem _ hdirs)
  have hdirs : ∀ e ∈ (if src.isEmpty then [] else [Path.clean src]) ++ paths.map Path.clean,
      ascents e ≤ k := by
    intro e he
    rcases List.mem_append.mp he with he | he
    · split_ifs at he
      · exact absurd he List.not_mem_nil
      · rw [List.mem_singleton.mp he]
        exact Nat.le_trans (ascents_clean_le src) hsrc
    · obtain ⟨q, hq, rfl⟩ := List.mem_map.mp he
      exact Nat.le_trans (ascents_clean_le q) (hpaths q hq)
  have hmem := (hfold hd).resolve_left List.not_mem_nil
  generalize (if src.isEmpty then [] else [Path.clean src]) ++ paths.map Path.clean = dirs
    at hdirs hmem
  split_ifs at hmem
  · rw [List.mem_singleton.mp hmem]
    exact Nat.zero_le _
  · exact hdirs d hmem

/-- The directories above an absolute one are absolute. -/
theorem isAbs_of_mem_upwards {fuel : Nat} {dir d : Text} (habs : isAbs dir = true)
    (hd : d ∈ upwards fuel dir) : isAbs d = true := by
  induction fuel generalizing dir with
  | zero => exact List.mem_singleton.mp hd ▸ habs
  | succ fuel ih =>
    unfold upwards at hd
    dsimp only at hd
    split_ifs at hd
    · exact List.mem_singleton.mp hd ▸ habs
    · rcases List.mem_cons.mp hd with rfl | hd
      · exact habs
      · exact ih (isAbs_dir habs) hd

/-- The path found for an import: a spelling below a directory, which leads up no more often
than the importing directory and the load paths do. -/
theorem ascents_le_of_resolve {k : Nat} {found : Resolved} (hcwd : isAbs tree.cwd = true)
    (hpaths : ∀ q ∈ paths, ascents q ≤ k) (hsrc : ascents src ≤ k)
    (h : (standard root paths).resolve tree name src = .ok found) :
    ∃ d n, found.path = Path.join [d, n] ∧ ascents found.path ≤ k := by
  rcases search_of_resolve h with ⟨start, package, names, hfound⟩ | ⟨hname, hfound⟩
  · -- a package: every directory is absolute
    obtain ⟨d, hd, n, -, hpath⟩ := exists_of_firstFile? hfound
    obtain ⟨above, habove, rfl⟩ := List.mem_map.mp (List.mem_filter.mp hd).1
    have habs : isAbs above = true := isAbs_of_mem_upwards (isAbs_absolute hcwd _) habove
    refine ⟨_, n, hpath, ?_⟩
    rw [hpath, ascents_join_eq_zero (isAbs_join habs _)]
    exact Nat.zero_le _
  · obtain ⟨d, hd, n, hn, hpath⟩ := exists_of_firstFile? hfound
    refine ⟨d, n, hpath, ?_⟩
    rw [hpath]
    refine Nat.le_trans (ascents_join_le d n) ?_
    rw [ascents_of_mem_candidates hname hn]
    exact ascents_le_of_mem_searchDirs hpaths hsrc hd

end Resolver

end Stylesheet
