import Stylesheet.Project
import Stylesheet.Proofs.Path.Relative

/-!
# Where output goes

A project says for some of its files where their output goes. A file is compiled under its
absolute path and looked up under the relative one, so what the configuration says holds for the
paths that are told from the root as they are written there. An absolute path is never told so,
and neither is a relative one that climbs further than it must; for these the file is placed as
if the configuration did not name it.

## Main results

* `Config.outputFor_of_first`, `Config.outputFor_of_ne` — the first entry for a path decides
* `Project.output_of_spec` — when the output of a file is where its entry says
* `Project.absolute_spec_not_honoured` — an entry with an absolute path says nothing
-/

namespace Stylesheet

open Text Path

/-! ### Patterns -/

/-- A clean path has no bytes but those of the path, and those of segments that lead up. -/
theorem Path.mem_of_mem_clean {p : Text} {c : UInt8} (hc : c ∈ clean p) :
    c ∈ p ∨ c = slash ∨ c = ch '.' := by
  have hsegments (h : c ∈ Text.join [slash] (segments p)) : c ∈ p ∨ c = slash ∨ c = ch '.' := by
    by_cases hslash : c = slash
    · exact .inr (.inl hslash)
    have hsep : c ∉ [slash] := by simpa using hslash
    obtain ⟨s, hs, hcs⟩ := (mem_join_iff hsep).mp h
    by_cases hup : s = up
    · have hdots : up = [ch '.', ch '.'] := by decide
      rw [hup, hdots] at hcs
      exact .inr (.inr (by simpa using hcs))
    · have hmem := (mem_of_mem_foldl_push (List.mem_reverse.mp hs) hup).resolve_left
        List.not_mem_nil
      have hjoin : Text.join [slash] (split slash p) = p := by
        rw [split_eq_splitOn]
        exact List.intercalate_splitOn slash
      have hcp := (mem_join_iff hsep).mpr ⟨s, hmem, hcs⟩
      exact .inl (hjoin ▸ hcp)
  rcases clean_cases p with ⟨-, heq⟩ | ⟨-, -, heq⟩ | ⟨-, -, heq⟩
  · rw [heq] at hc
    rcases List.mem_cons.mp hc with hc | hc
    · exact .inr (.inl hc)
    · exact hsegments hc
  · rw [heq] at hc
    exact .inr (.inr (List.mem_singleton.mp hc))
  · exact hsegments (heq ▸ hc)

theorem isGlob_append (p q : Text) : isGlob (p ++ q) = (isGlob p || isGlob q) := List.any_append

theorem isGlob_clean {p : Text} (h : isGlob p = false) : isGlob (clean p) = false := by
  have hplain : ∀ c ∈ p, isGlob [c] = false := by
    simpa [isGlob] using h
  have hclean : ∀ c ∈ clean p, isGlob [c] = false := by
    intro c hc
    rcases mem_of_mem_clean hc with hc | rfl | rfl
    · exact hplain c hc
    · decide
    · decide
  simpa [isGlob] using hclean

theorem isGlob_absolute {root path : Text} (hroot : isGlob root = false)
    (hpath : isGlob path = false) : isGlob (absolute root path) = false := by
  have hslash : isGlob (slash :: path) = false := by
    rw [← List.singleton_append, isGlob_append, hpath]
    decide
  rw [absolute, join_pair]
  split_ifs
  · exact hpath
  · rfl
  · exact isGlob_clean hpath
  · exact isGlob_clean hroot
  · refine isGlob_clean ?_
    rw [isGlob_append, hroot, hslash]
    rfl

/-! ### The entry that decides -/

namespace Config

variable {c : Config} {before after : List FileSpec} {f : FileSpec} {path : Text}

theorem outputFor_of_first (hfiles : c.files = before ++ f :: after) (houtput : f.output ≠ [])
    (hfirst : ∀ g ∈ before, g.output ≠ [] → clean g.path ≠ clean path)
    (hpath : clean f.path = clean path) : c.outputFor path = f.output := by
  have hfind : c.files.find? (fun f => !f.output.isEmpty && clean f.path = clean path) =
      some f := by
    refine List.find?_eq_some_iff_append.mpr ⟨by simp [houtput, hpath], before, after, hfiles, ?_⟩
    intro g hg
    by_cases hempty : g.output = []
    · simp [hempty]
    · simp [hfirst g hg hempty]
  rw [outputFor, hfind]

/-- An entry for another path changes nothing. -/
theorem outputFor_of_ne (hfiles : c.files = before ++ f :: after)
    (hpath : clean f.path ≠ clean path) :
    c.outputFor path = ({ c with files := before ++ after } : Config).outputFor path := by
  have hskip : c.files.find? (fun f => !f.output.isEmpty && clean f.path = clean path) =
      (before ++ after).find? fun f => !f.output.isEmpty && clean f.path = clean path := by
    rw [hfiles, List.find?_append, List.find?_append, List.find?_cons_of_neg (by simp [hpath])]
  rw [outputFor, outputFor, hskip]

end Config

/-! ### The output of a file -/

namespace Project

variable {p : Project} {before after : List FileSpec} {f : FileSpec} {q : Text} {canceled : Bool}
  {r : FileResult}

/-- The project with other entries for its files. -/
def withFiles (p : Project) (files : List FileSpec) : Project :=
  { p with config := { p.config with files := files } }

theorem compileFile_eq_ok (h : (p.compileFile canceled q).result = .ok r) :
    r.path = p.absolute q ∧ r.output = p.output r.path := by
  unfold compileFile at h
  dsimp only at h
  split_ifs at h
  split at h
  · cases h
  · split at h
    · cases h
    · obtain rfl := Except.ok.inj h
      exact ⟨rfl, rfl⟩

/-- Take an entry that says where output goes, for a file that no earlier entry does so for, and
a file it stands for that is compiled. If the path of the entry is told from the root as it is
written, the output is where the entry says; if not, it is where it would be without the entry.
Where no patterns are in sight, the paths told so are the relative ones that climb no further
than they must. -/
theorem output_of_spec (hroot : isAbs p.root = true)
    (hfiles : p.config.files = before ++ f :: after) (houtput : f.output ≠ [])
    (hfirst : ∀ g ∈ before, g.output ≠ [] →
      clean (p.absolute g.path) ≠ clean (p.absolute f.path))
    (hq : q ∈ Config.expandPath p.tree p.root f.path)
    (hr : (p.compileFile canceled q).result = .ok r) :
    (Tells p.root f.path r.path → r.output = p.absolute f.output) ∧
    (¬ Tells p.root f.path r.path → r.output = (p.withFiles (before ++ after)).output r.path) ∧
    (isGlob p.root = false → isGlob f.path = false →
      (Tells p.root f.path r.path ↔ isAbs f.path = false ∧ ¬ Retraces p.root f.path)) := by
  obtain ⟨hpath, hout⟩ := compileFile_eq_ok hr
  have htarget : isAbs r.path = true := by
    rw [hpath]
    exact isAbs_absolute hroot q
  obtain ⟨rel, hrel, -, -⟩ := exists_rel? hroot htarget
  have htells (path : Text) : clean path = clean rel ↔ Tells p.root path r.path :=
    clean_eq_clean_rel_iff hroot htarget hrel
  refine ⟨fun htold => ?_, fun htold => ?_, fun hroot' hpath' => ?_⟩
  · have hfor : p.config.outputFor rel = f.output := by
      refine Config.outputFor_of_first hfiles houtput (fun g hg hempty hsame => ?_)
        ((htells f.path).mpr htold)
      -- an earlier entry told the same way would name the same file
      refine hfirst g hg hempty ?_
      rw [absolute, absolute, ((htells g.path).mp hsame).target, htold.target]
    rw [hout, output, hrel, Option.getD_some, hfor]
  · have hfor := Config.outputFor_of_ne hfiles (mt (htells f.path).mp htold)
    rw [hout, output, output, hrel, Option.getD_some, hfor]
    simp only [withFiles, hrel, Option.getD_some]
    rfl
  · have hplain := isGlob_absolute hroot' hpath'
    have hq' : q = Path.absolute p.root f.path := by
      simpa [Config.expandPath, hplain] using hq
    have hsame : Path.absolute p.root q = q := by
      rw [hq', Path.absolute, if_pos (isAbs_absolute hroot _)]
    constructor
    · intro htold
      exact ⟨htold.isRel, htold.direct⟩
    · rintro ⟨hrelative, hdirect⟩
      refine ⟨hrelative, hdirect, ?_⟩
      rw [hpath, absolute, hsame, hq']

/-- A file that the configuration places, told by a path that goes around. -/
def placedProject : Project where
  tree := .ofList [(of "/project/styles/main.scss", of ".a { b: c; }")]
  root := of "/project"
  config := { files := [⟨of "other.scss", of "other.css"⟩,
    ⟨of "./lib/../styles//main.scss", of "out/main.css"⟩] }

/-- The output of that file is where the configuration says. -/
theorem placedProject_output :
    ∃ r, (placedProject.compileFile false (of "/project/styles/main.scss")).result = .ok r ∧
      r.output = of "/project/out/main.css" := by
  have hok : (placedProject.compileFile false (of "/project/styles/main.scss")).result.isOk := by
    decide +kernel
  cases hr : (placedProject.compileFile false (of "/project/styles/main.scss")).result with
  | error e => simp [hr, Except.isOk, Except.toBool] at hok
  | ok r =>
    have hq : of "/project/styles/main.scss" ∈ Config.expandPath placedProject.tree
        placedProject.root (of "./lib/../styles//main.scss") := by decide +kernel
    have hfiles : placedProject.config.files = [⟨of "other.scss", of "other.css"⟩] ++
        ⟨of "./lib/../styles//main.scss", of "out/main.css"⟩ :: [] := rfl
    obtain ⟨htold, -, htells⟩ := output_of_spec (by decide) hfiles (by decide)
      (by decide +kernel) hq hr
    exact ⟨r, rfl, (htold ((htells (by decide) (by decide)).mpr (by decide +kernel))).trans
      (by decide +kernel)⟩

/-- A file that the configuration names by its absolute path. -/
def absoluteProject : Project where
  tree := .ofList [(of "/project/a.scss", of ".a { b: c; }")]
  root := of "/project"
  config := { files := [⟨of "/project/a.scss", of "out.css"⟩] }

/-- Its output is not where the configuration says. -/
theorem absolute_spec_not_honoured :
    (absoluteProject.files = [of "/project/a.scss"]) ∧
    ((absoluteProject.compileFile false (of "/project/a.scss")).result.toOption.map
      (·.output)) = some (of "/project/a.css") ∧
    absoluteProject.absolute (of "out.css") = of "/project/out.css" := by
  decide +kernel

end Project

end Stylesheet
