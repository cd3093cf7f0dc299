import Stylesheet.Proofs.Import
import Stylesheet.Proofs.Path.Containment

/-!
# Load paths

A name that is no package import is looked for in the importing directory and then in the load
paths. A directory that is listed twice is searched once, which makes no difference: what is
found is the first file in the order of the directories, and in each of them in the order of
the spellings. A name that leads up anywhere is refused, so what is found is in the directory
it was found in, whatever else the name is made of.

## Main definitions

* `Resolver.searchOrder` — the directories to search, in order
* `Resolver.FirstFile` — the first place where there is a file

## Main results

* `Resolver.firstFile?_eq_some_iff` — a search finds the first file there is
* `Resolver.loadPath_finds_first` — what a name is resolved to, and when it is not resolved
-/

namespace Stylesheet.Resolver

open Text Path

/-! ### The first file -/

/-- The directories searched for a name imported from `src`: that one and the load paths, each
clean and in order, or else the working directory. -/
def searchOrder (paths : List Text) (src : Text) : List Text :=
  let dirs := (if src.isEmpty then [] else [Path.clean src]) ++ paths.map Path.clean
  if dirs.isEmpty then [of "."] else dirs

/-- Where the first file is: there is none in the directories before `d`, and none in `d` under
the names before `n`. -/
structure FirstFile (tree : FileTree) (dirs names : List Text) (d n : Text) : Prop where
  isFile : tree.isFile (Path.join [d, n]) = true
  dirs : ∃ before after, dirs = before ++ d :: after ∧
    ∀ e ∈ before, ∀ m ∈ names, tree.isFile (Path.join [e, m]) = false
  names : ∃ before after, names = before ++ n :: after ∧
    ∀ m ∈ before, tree.isFile (Path.join [d, m]) = false

variable {tree : FileTree} {dirs names paths : List Text} {p name src : Text}

theorem firstFile?_eq (tree : FileTree) (dirs names : List Text) :
    firstFile? tree dirs names =
      dirs.findSome? fun d => (names.map fun n => Path.join [d, n]).find? tree.isFile := by
  rw [firstFile?, List.find?_flatMap]

/-- A search finds the first file there is. -/
theorem firstFile?_eq_some_iff :
    firstFile? tree dirs names = some p ↔
      ∃ d n, FirstFile tree dirs names d n ∧ p = Path.join [d, n] := by
  rw [firstFile?_eq, List.findSome?_eq_some_iff]
  constructor
  · rintro ⟨before, d, after, hdirs, hfound, hbefore⟩
    rw [List.find?_map, Option.map_eq_some_iff] at hfound
    obtain ⟨n, hn, rfl⟩ := hfound
    obtain ⟨hfile, front, rest, hnames, hfront⟩ := List.find?_eq_some_iff_append.mp hn
    refine ⟨d, n,
      ⟨hfile, ⟨before, after, hdirs, fun e he m hm => ?_⟩, ⟨front, rest, hnames, ?_⟩⟩, rfl⟩
    · have hnone := List.find?_eq_none.mp (hbefore e he) _ (List.mem_map_of_mem hm)
      simpa using hnone
    · intro m hm
      simpa using hfront m hm
  · rintro ⟨d, n, ⟨hfile, ⟨before, after, hdirs, hbefore⟩, ⟨front, rest, hnames, hfront⟩⟩, rfl⟩
    refine ⟨before, d, after, hdirs, ?_, fun e he => ?_⟩
    · rw [List.find?_map, Option.map_eq_some_iff]
      refine ⟨n, List.find?_eq_some_iff_append.mpr ⟨hfile, front, rest, hnames, ?_⟩, rfl⟩
      intro m hm
      simpa using hfront m hm
    · refine List.find?_eq_none.mpr fun q hq => ?_
      obtain ⟨m, hm, rfl⟩ := List.mem_map.mp hq
      simpa using hbefore e he m hm

theorem firstFile?_eq_none_iff :
    firstFile? tree dirs names = none ↔
      ∀ d ∈ dirs, ∀ n ∈ names, tree.isFile (Path.join [d, n]) = false := by
  rw [firstFile?, List.find?_eq_none]
  constructor
  · intro h d hd n hn
    simpa using h _ (List.mem_flatMap.mpr ⟨d, hd, List.mem_map_of_mem hn⟩)
  · intro h q hq
    obtain ⟨d, hd, hmap⟩ := List.mem_flatMap.mp hq
    obtain ⟨n, hn, rfl⟩ := List.mem_map.mp hmap
    simpa using h d hd n hn

/-! ### Directories listed twice -/

/-- To leave out what is there already changes no search. -/
theorem findSome?_foldl_distinct {α : Type} (f : Text → Option α) (dirs seen : List Text) :
    (dirs.foldl (fun seen d => if seen.contains d then seen else seen ++ [d]) seen).findSome? f =
      (seen ++ dirs).findSome? f := by
  induction dirs generalizing seen with
  | nil => rw [List.foldl_nil, List.append_nil]
  | cons d dirs ih =>
    rw [List.foldl_cons, ih]
    by_cases hseen : seen.contains d = true
    · -- if there is something at `d`, the search ends before it comes there again
      rw [if_pos hseen, List.findSome?_append, List.findSome?_append, List.findSome?_cons]
      cases hd : f d with
      | none => rfl
      | some a =>
        have hmem : d ∈ seen := by simpa using hseen
        have hsome : (seen.findSome? f).isSome :=
          List.findSome?_isSome_iff.mpr ⟨d, hmem, by simp [hd]⟩
        obtain ⟨b, hb⟩ := Option.isSome_iff_exists.mp hsome
        rw [hb]
        rfl
    · rw [if_neg hseen, List.append_assoc, List.singleton_append]

theorem firstFile?_searchDirs (tree : FileTree) (paths names : List Text) (src : Text) :
    firstFile? tree (searchDirs paths src) names =
      firstFile? tree (searchOrder paths src) names := by
  rw [firstFile?_eq, firstFile?_eq]
  exact findSome?_foldl_distinct _ (searchOrder paths src) []

theorem ne_nil_of_mem_searchOrder {d : Text} (hd : d ∈ searchOrder paths src) : d ≠ [] := by
  have hdirs : ∀ e ∈ (if src.isEmpty then [] else [Path.clean src]) ++ paths.map Path.clean,
      e ≠ [] := by
    intro e he
    rcases List.mem_append.mp he with he | he
    · split_ifs at he
      · cases he
      · rw [List.mem_singleton.mp he]
        exact clean_ne_nil src
    · obtain ⟨q, -, rfl⟩ := List.mem_map.mp he
      exact clean_ne_nil q
  unfold searchOrder at hd
  dsimp only at hd
  split_ifs at hd
  · rw [List.mem_singleton.mp hd]
    decide
  all_goals exact hdirs d (by simp_all)

/-! ### Names in the load paths -/

/-- A name is resolved to the first file there is, in the order of the directories and then of
the spellings, and this is the directory it was found in or lies below it. It is not resolved
exactly if one of its segments leads up, or there is no such file. -/
theorem loadPath_finds_first (tree : FileTree) (paths : List Text) (name src : Text) :
    (∀ found, (loadPath paths).resolve tree name src = .ok found →
      ∃ d n, FirstFile tree (searchOrder paths src) (candidates name) d n ∧
        found = ⟨name, Path.join [d, n], .loadPath⟩ ∧ Within d found.path) ∧
    ((∃ e, (loadPath paths).resolve tree name src = .error e) ↔
      up ∈ split slash name ∨ ∀ d ∈ searchOrder paths src, ∀ n ∈ candidates name,
        tree.isFile (Path.join [d, n]) = false) := by
  rw [resolve, byLoadPath, show ch '/' = slash from rfl]
  by_cases hup : up ∈ split slash name
  · have hrefused : (split slash name).contains up = true := by simpa using hup
    rw [if_pos hrefused]
    exact ⟨fun found h => (nomatch h), fun _ => .inl hup, fun _ => ⟨_, rfl⟩⟩
  have hallowed : ¬ (split slash name).contains up = true := by simpa using hup
  rw [if_neg hallowed]
  dsimp only
  rw [firstFile?_searchDirs]
  cases hsearch : firstFile? tree (searchOrder paths src) (candidates name) with
  | some p =>
    obtain ⟨d, n, hfirst, rfl⟩ := firstFile?_eq_some_iff.mp hsearch
    obtain ⟨before, after, hdirs, -⟩ := hfirst.dirs
    obtain ⟨front, rest, hnames, -⟩ := hfirst.names
    have hd : d ∈ searchOrder paths src := by simp [hdirs]
    have hn : n ∈ candidates name := by simp [hnames]
    constructor
    · rintro found hfound
      obtain rfl := Except.ok.inj hfound
      refine ⟨d, n, hfirst, rfl, within_join (ne_nil_of_mem_searchOrder hd) ?_⟩
      exact List.count_eq_zero.mp (ascents_of_mem_candidates hup hn)
    · refine ⟨fun ⟨e, he⟩ => (nomatch he), fun h => ?_⟩
      rcases h with hup' | hnone
      · exact absurd hup' hup
      · exact absurd (hnone d hd n hn) (by simp [hfirst.isFile])
  | none =>
    refine ⟨fun found h => (nomatch h), fun _ => .inr ?_, fun _ => ⟨_, rfl⟩⟩
    exact firstFile?_eq_none_iff.mp hsearch

/-- A site with a theme of its own vendor, and another in its library. -/
def themedSite : FileTree :=
  .ofList [(of "/site/vendor/theme.scss", of ".v { w: x; }"),
    (of "/site/lib/theme.scss", of ".t { w: x; }"), (of "/site/lib/_theme.scss", of ".p { w: x; }")]

/-- Of the three files the partial in the library is found, since the library is searched before
the vendor and a partial is the first spelling. A name that leads up is refused although there is
such a file. -/
theorem themedSite_finds_first :
    (∃ d n, FirstFile themedSite (searchOrder [of "/site/lib/", of "/site/vendor"] (of "/site"))
        (candidates (of "theme")) d n ∧
      Path.join [d, n] = of "/site/lib/_theme.scss" ∧ Within d (of "/site/lib/_theme.scss")) ∧
    themedSite.isFile (Path.join [of "/site/lib", of "../vendor/theme.scss"]) = true ∧
    ∃ e, (loadPath []).resolve themedSite (of "../vendor/theme") (of "/site/lib") = .error e := by
  have hfound : (loadPath [of "/site/lib/", of "/site/vendor"]).resolve themedSite (of "theme")
      (of "/site") = .ok ⟨of "theme", of "/site/lib/_theme.scss", .loadPath⟩ := by decide +kernel
  obtain ⟨d, n, hfirst, hpath, hwithin⟩ := (loadPath_finds_first _ _ _ _).1 _ hfound
  injection hpath with _ hpath _
  refine ⟨⟨d, n, hfirst, hpath.symm, hwithin⟩, by decide +kernel, ?_⟩
  exact (loadPath_finds_first _ _ _ _).2.mpr (.inl (by decide))

end Stylesheet.Resolver
