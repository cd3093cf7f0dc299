import Mathlib.Data.List.TakeWhile
import Stylesheet.Proofs.Import.LoadPath

/-!
# Package imports

A package import names a package and a file in it. The package is looked for among the modules
of the importing directory and of those above it, and the file under its spellings in the
package. Unlike a name in the load paths neither of the two is kept from leading up: the file
may climb out of the package, and a package whose name is `..` is no directory below the
modules at all.

How far a name climbs can be read off it. Taken from the root directory it stays in its package
exactly if it does so from every directory, because a file that climbs higher than the package
and comes back to it must name the package on its way down, and then it names that of the
directory it has climbed to.

## Main definitions

* `Resolver.packageDir` — where a package is, among the modules of a directory
* `Resolver.Contained` — a path in a package that is a directory below the modules
* `Path.Upward` — a directory, or one above it

## Main results

* `Resolver.package_contained_iff` — the names that are found in their package only
* `Resolver.climbing_name_escapes` — a file that leads up is found outside
-/

namespace Stylesheet

open Text

namespace Path

/-! ### Directories above -/

/-- The directory `d` is `start`, or one that lies above it. -/
inductive Upward (start : Text) : Text → Prop
  | here : Upward start start
  | above {d : Text} (h : Upward start d) : Upward start (dir d)

theorem Upward.trans {a b c : Text} (hab : Upward a b) (hbc : Upward b c) : Upward a c := by
  induction hbc with
  | here => exact hab
  | above _ ih => exact ih.above

theorem Upward.isAbs {start d : Text} (h : Upward start d) (habs : isAbs start = true) :
    Path.isAbs d = true := by
  induction h with
  | here => exact habs
  | above _ ih => exact isAbs_dir ih

theorem upward_of_mem_upwards {fuel : Nat} {start d : Text}
    (hd : d ∈ Resolver.upwards fuel start) : Upward start d := by
  induction fuel generalizing start with
  | zero => exact List.mem_singleton.mp hd ▸ .here
  | succ fuel ih =>
    unfold Resolver.upwards at hd
    dsimp only at hd
    split_ifs at hd
    · exact List.mem_singleton.mp hd ▸ .here
    · rcases List.mem_cons.mp hd with rfl | hd
      · exact .here
      · exact Upward.here.above.trans (ih hd)

/-- What the last part of a path adds to the directory the path is in. -/
theorem segments_eq_dir {d : Text} (habs : isAbs d = true) :
    segments d = (push true (segments (dir d)).reverse (splitLast d).2).reverse := by
  obtain ⟨hslash, heq, front, hfront⟩ := exists_split_splitLast d
  have hsplit : split slash d = front ++ [(splitLast d).2] := by
    have h := hfront _ hslash
    rwa [← heq] at h
  have hfirst : split slash (splitLast d).1 = front ++ [[]] := by
    have h := hfront [] (by simp)
    rwa [List.append_nil] at h
  have habs' : isAbs (splitLast d).1 = true := by
    have h := isAbs_dir habs
    rwa [dir, isAbs_clean] at h
  rw [dir, segments_clean, segments, segments, hfirst, hsplit, habs, habs', List.foldl_append,
    List.foldl_append, List.foldl_cons, List.foldl_cons, List.foldl_nil, List.foldl_nil,
    List.reverse_reverse]
  rfl

/-- A path that ends in a name is in the directory of the segments before that. -/
theorem segments_dir {d s : Text} {l : List Text} (hd : Path.clean d = d) (habs : isAbs d = true)
    (hsegments : segments d = l ++ [s]) : segments (dir d) = l := by
  have hs : Named s := named_of_mem_segments habs (by simp [hsegments])
  have hlast : (splitLast d).2 = s := by
    obtain ⟨hslash, heq, front, hfront⟩ := exists_split_splitLast d
    obtain ⟨parts, hparts⟩ := exists_split_clean (p := d) (by simp [hsegments])
    have h := hfront _ hslash
    rw [← heq, ← hd, hparts, hd, hsegments, ← List.append_assoc] at h
    exact (List.singleton_inj.mp (List.append_inj_right' h rfl)).symm
  have h := segments_eq_dir habs
  rw [hsegments, hlast, push_named hs, List.reverse_cons, List.reverse_reverse] at h
  exact (List.append_inj_left' h rfl).symm

/-- Every first part of an absolute path is a directory above it. -/
theorem exists_upward {d : Text} {l : List Text} (habs : isAbs d = true) (hl : l <+: segments d) :
    ∃ e, Upward d e ∧ segments e = l := by
  have hclean {d : Text} (hd : Path.clean d = d) (habs : isAbs d = true)
      (hl : l <+: segments d) : ∃ e, Upward d e ∧ segments e = l := by
    generalize hsegments : segments d = names at hl
    induction names using List.reverseRecOn generalizing d with
    | nil => exact ⟨d, .here, by rw [hsegments, List.prefix_nil.mp hl]⟩
    | append_singleton names s ih =>
      rcases List.prefix_concat_iff.mp hl with rfl | hl
      · exact ⟨d, .here, hsegments⟩
      · have hdir := segments_dir hd habs hsegments
        obtain ⟨e, he, heq⟩ := ih (clean_clean _) (isAbs_dir habs) hdir hl
        exact ⟨e, Upward.here.above.trans he, heq⟩
  by_cases heq : l = segments d
  · exact ⟨d, .here, heq.symm⟩
  -- the directory of an unclean path has at least the segments before the last
  have hdir : l <+: segments (dir d) := by
    have h := segments_eq_dir habs
    rcases part_cases (splitLast d).2 with hskip | hup | hnamed
    · rw [hskip, List.reverse_reverse] at h
      exact h ▸ hl
    · -- the last part takes a name back, if there is one
      refine hl.trans ?_
      rw [h, hup, push_up]
      cases hstack : (segments (dir d)).reverse with
      | nil => exact List.nil_prefix
      | cons top rest =>
        have hnames := List.reverse_eq_cons_iff.mp hstack
        have htop : Named top := named_of_mem_segments (isAbs_dir habs) (by simp [hnames])
        dsimp only
        rw [if_neg htop.ne_up, hnames]
        exact List.prefix_append _ _
    · rw [push_named hnamed, List.reverse_cons, List.reverse_reverse] at h
      rw [h] at hl heq
      exact (List.prefix_concat_iff.mp hl).resolve_left heq
  obtain ⟨e, he, hsegments⟩ := hclean (clean_clean _) (isAbs_dir habs) hdir
  exact ⟨e, Upward.here.above.trans he, hsegments⟩

/-- A clean path is made up by its segments. -/
theorem eq_of_segments_eq {p q : Text} (hp : clean p = p) (hq : clean q = q)
    (habs : isAbs p = isAbs q) (hsegments : segments p = segments q) : p = q := by
  rw [← hp, ← hq, clean, clean, habs, hsegments]

/-! ### Trails that do not climb -/

/-- From an absolute directory a path that does not climb goes down its trail. -/
theorem segments_join_of_trail {d p : Text} (habs : isAbs d = true) (hup : up ∉ trail p) :
    segments (join [d, p]) = segments d ++ trail p := by
  obtain ⟨ups, names, htrail, -, hjoin⟩ := exists_trail p
  have hzero : ups = 0 := by
    by_contra hne
    refine hup ?_
    rw [htrail]
    exact List.mem_append_left _ (List.mem_replicate.mpr ⟨hne, rfl⟩)
  rw [hjoin d habs, htrail, hzero, Nat.sub_zero, List.take_length]
  rfl

theorem up_notMem_trail {p : Text} (hp : up ∉ split slash p) : up ∉ trail p := by
  obtain ⟨names, heq, hnames⟩ := exists_foldl_push_eq false hp []
  intro hup
  rw [trail, heq, List.append_nil, List.mem_reverse] at hup
  exact (hnames up hup).ne_up rfl

/-- A path with a name at its end has a trail. -/
theorem trail_ne_nil {p s : Text} {front : List Text} (hsplit : split slash p = front ++ [s])
    (hs : Named s) : trail p ≠ [] := by
  rw [trail, hsplit, List.foldl_append, List.foldl_cons, List.foldl_nil, push_named hs]
  simp

/-- What starts with anything but a dot is a name. -/
theorem named_cons {c : UInt8} (hc : c ≠ ch '.') (t : Text) : Named (c :: t) :=
  ⟨List.cons_ne_nil _ _, fun h => hc (List.head_eq_of_cons_eq h),
    fun h => hc (List.head_eq_of_cons_eq h)⟩

/-- Three paths joined: the last two are one path. -/
theorem join_triple {d a b : Text} (ha : a ≠ []) (hb : b ≠ []) :
    join [d, a, b] = join [d, a ++ slash :: b] := by
  cases d <;> cases a <;> cases b <;> simp_all [join, join_cons_cons]

theorem clean_join_of_isAbs {d : Text} (habs : isAbs d = true) (rest : List Text) :
    Path.clean (join (d :: rest)) = join (d :: rest) := by
  obtain ⟨q, -, heq⟩ := exists_join_eq_clean habs rest
  rw [heq, clean_clean]

end Path

namespace Resolver

open Path

/-! ### Packages -/

/-- The directory that packages are in. -/
def modules : Text := of "node_modules"

/-- Where a package is, among the modules of a directory. -/
def packageDir (d name : Text) : Text := Path.join [d, modules, name]

/-- A path in a package of the directory `d`: the package is a directory below the modules, and
the path lies below that. -/
structure Contained (d name p : Text) : Prop where
  package : Within (Path.join [d, modules]) (packageDir d name)
  package_ne : packageDir d name ≠ Path.join [d, modules]
  path : Within (packageDir d name) p
  path_ne : p ≠ packageDir d name

/-- How a package is reached from a directory. -/
def packageTrail (name : Text) : List Text := trail (modules ++ slash :: name)

/-- The name of a package is one segment, or a scope and a segment. -/
inductive PackageName : Text → Prop
  | single {s : Text} (hs : s ≠ []) (hslash : slash ∉ s) : PackageName s
  | inScope {a b : Text} (ha : a ≠ []) (hb : b ≠ []) (hslash : slash ∉ a ∧ slash ∉ b) :
    PackageName (ch '@' :: a ++ slash :: b)

theorem segment?_eq_some {t name rest : Text} (h : segment? t = some (name, rest)) :
    name ≠ [] ∧ slash ∉ name := by
  unfold segment? at h
  dsimp only at h
  split_ifs at h with hempty
  obtain ⟨rfl, -⟩ := Prod.mk.inj (Option.some.inj h)
  refine ⟨by simpa using hempty, fun hmem => ?_⟩
  have hne := List.mem_takeWhile_imp hmem
  simp [slash] at hne

theorem packageName_of_packageName? {t name rest : Text}
    (h : packageName? t = some (name, rest)) : PackageName name := by
  have hsingle {name rest : Text} (h : segment? t = some (name, rest)) : PackageName name :=
    .single (segment?_eq_some h).1 (segment?_eq_some h).2
  unfold packageName? at h
  dsimp only at h
  split at h
  · split at h
    · next scope rest' hscope =>
      split at h
      · next inner rest'' hinner =>
        obtain ⟨rfl, -⟩ := Prod.mk.inj (Option.some.inj h)
        obtain ⟨ha, hslasha⟩ := segment?_eq_some hscope
        obtain ⟨hb, hslashb⟩ := segment?_eq_some hinner
        exact .inScope ha hb ⟨hslasha, hslashb⟩
      · exact hsingle h
    · exact hsingle h
  · exact hsingle h

theorem packageName_of_parse? {name : Text} {pkg : Package}
    (h : Package.parse? name = some pkg) : PackageName pkg.name := by
  obtain ⟨body, -, h⟩ := Option.bind_eq_some_iff.mp h
  obtain ⟨⟨package, rest⟩, hname, h⟩ := Option.bind_eq_some_iff.mp h
  dsimp only at h
  split_ifs at h
  rw [← Option.some.inj h]
  exact packageName_of_packageName? hname

theorem PackageName.ne_nil {name : Text} (h : PackageName name) : name ≠ [] := by
  cases h with
  | single hs => exact hs
  | inScope => exact List.cons_ne_nil _ _

theorem split_single {s : Text} (hs : slash ∉ s) : split slash s = [s] := by
  have h := split_join (List.cons_ne_nil s []) (by simpa using hs)
  rwa [join_singleton] at h

theorem named_modules : Named modules := ⟨by decide, by decide, by decide⟩

/-- The modules, and below them the segments of the package's name; `..` takes one back. -/
theorem packageTrail_cases {name : Text} (h : PackageName name) :
    (∃ t, packageTrail name = modules :: t ∧ (∀ s ∈ t, Named s) ∧
      (t ≠ [] ∨ name = of "." ∨ up ∈ split slash name)) ∨
    packageTrail name = [] ∧ up ∈ split slash name := by
  have hmodules : split slash modules = [modules] := split_single (by decide)
  have hscoped (a : Text) : Named (ch '@' :: a) := named_cons (by decide) a
  rw [packageTrail, trail, split_append_sep, hmodules, List.singleton_append, List.foldl_cons,
    push_named named_modules]
  cases h with
  | single hs hslash =>
    rw [split_single hslash, List.foldl_cons, List.foldl_nil]
    rcases part_cases name with hskip | hup | hnamed
    · refine .inl ⟨[], by rw [hskip]; rfl, List.forall_mem_nil _, .inr (.inl ?_)⟩
      by_contra hne
      have hpush := hskip false []
      by_cases hup : name = up
      · exact absurd (hup ▸ hpush) (by decide)
      · exact absurd (push_named ⟨hs, hne, hup⟩ [] ▸ hpush) (List.cons_ne_nil _ _)
    · exact .inr ⟨by rw [hup]; decide, by rw [hup]; exact List.mem_cons_self⟩
    · exact .inl ⟨[name], by rw [push_named hnamed]; rfl, List.forall_mem_singleton.mpr hnamed,
        .inl (List.cons_ne_nil _ _)⟩
  | @inScope a b ha hb hslash =>
    have hscope : slash ∉ ch '@' :: a := by
      simpa using ⟨show slash ≠ ch '@' by decide, hslash.1⟩
    rw [split_append_sep, split_single hscope, split_single hslash.2, List.singleton_append,
      List.foldl_cons, push_named (hscoped a), List.foldl_cons, List.foldl_nil]
    rcases part_cases b with hskip | hup | hnamed
    · exact .inl ⟨[ch '@' :: a], by rw [hskip]; rfl, List.forall_mem_singleton.mpr (hscoped a),
        .inl (List.cons_ne_nil _ _)⟩
    · refine .inl ⟨[], ?_, List.forall_mem_nil _, .inr (.inr (by simp [hup]))⟩
      have hback : push false [ch '@' :: a, modules] up = [modules] := by
        rw [push_up]
        exact if_neg (hscoped a).ne_up
      rw [hup, hback]
      rfl
    · exact .inl ⟨[ch '@' :: a, b], by rw [push_named hnamed]; rfl,
        List.forall_mem_cons.mpr ⟨hscoped a, List.forall_mem_singleton.mpr hnamed⟩,
        .inl (List.cons_ne_nil _ _)⟩

theorem up_notMem_packageTrail {name : Text} (h : PackageName name) : up ∉ packageTrail name := by
  rcases packageTrail_cases h with ⟨t, heq, ht, -⟩ | ⟨heq, -⟩
  · rw [heq]
    intro hup
    rcases List.mem_cons.mp hup with hup | hup
    · exact absurd hup (by decide)
    · exact (ht up hup).ne_up rfl
  · rw [heq]
    exact List.not_mem_nil

section

variable {d name p n : Text}

theorem packageDir_eq (h : PackageName name) :
    packageDir d name = Path.join [d, modules ++ slash :: name] :=
  join_triple (by decide) h.ne_nil

theorem segments_packageDir (h : PackageName name) (habs : isAbs d = true) :
    segments (packageDir d name) = segments d ++ packageTrail name := by
  rw [packageDir_eq h]
  exact segments_join_of_trail habs (up_notMem_packageTrail h)

theorem isAbs_packageDir (name : Text) (habs : isAbs d = true) :
    isAbs (packageDir d name) = true :=
  isAbs_join habs _

theorem segments_modules (habs : isAbs d = true) :
    segments (Path.join [d, modules]) = segments d ++ [modules] := by
  have htrail : trail modules = [modules] := by decide
  rw [segments_join_of_trail habs (by rw [htrail]; decide), htrail]

/-- What it takes for a path to be in a package, by the segments of all of them. -/
theorem contained_iff (h : PackageName name) (habs : isAbs d = true) (hp : Path.clean p = p)
    (habsp : isAbs p = true) :
    Contained d name p ↔ (∃ t, packageTrail name = modules :: t ∧ t ≠ []) ∧
      ∃ names, names ≠ [] ∧ segments p = segments d ++ packageTrail name ++ names := by
  have hdir := segments_packageDir h habs
  have hmodules := segments_modules habs
  constructor
  · rintro ⟨⟨-, -, t, ht, -⟩, hproper, ⟨-, -, names, hnames, -⟩, hne⟩
    rw [hdir, hmodules, List.append_assoc, List.append_cancel_left_eq] at ht
    refine ⟨⟨t, ht, ?_⟩, names, ?_, by rw [hnames, hdir]⟩
    · rintro rfl
      refine hproper (eq_of_segments_eq (clean_join_of_isAbs habs _)
        (clean_join_of_isAbs habs _) ?_ ?_)
      · rw [isAbs_packageDir name habs, isAbs_join habs]
      · rw [hdir, hmodules, ht]
        rfl
    · rintro rfl
      refine hne (eq_of_segments_eq hp (clean_join_of_isAbs habs _) ?_ ?_)
      · rw [habsp, isAbs_packageDir name habs]
      · rw [hnames, List.append_nil]
  · rintro ⟨⟨t, ht, hne⟩, names, hnames, hp'⟩
    have hnamed : ∀ s ∈ segments d ++ packageTrail name ++ names, Named s := by
      intro s hs
      rw [← hp'] at hs
      exact named_of_mem_segments habsp hs
    refine ⟨⟨clean_join_of_isAbs habs _, ?_, t, ?_, fun s hs => hnamed s ?_⟩, fun heq => hne ?_,
      ⟨hp, ?_, names, ?_, fun s hs => hnamed s (List.mem_append_right _ hs)⟩, fun heq => hnames ?_⟩
    · rw [isAbs_packageDir name habs, isAbs_join habs]
    · rw [hmodules, List.append_assoc, List.singleton_append, ← ht]
      exact hdir
    · simp [ht, hs]
    · have hsegments := congrArg segments heq
      rw [hdir, hmodules, ht] at hsegments
      simpa using hsegments
    · rw [isAbs_packageDir name habs, habsp]
    · rw [hdir, hp']
    · have hsegments := congrArg segments heq
      rw [hdir, hp'] at hsegments
      simpa using hsegments

/-- A file that does not lead up, in a package that does not, is in the package. -/
theorem contained_of_up_notMem (h : PackageName name) (habs : isAbs d = true)
    (hhere : name ≠ of ".") (hname : up ∉ split slash name) (hn : up ∉ split slash n)
    (hne : trail n ≠ []) : Contained d name (Path.join [packageDir d name, n]) := by
  have hdir := isAbs_packageDir name habs
  refine (contained_iff h habs (clean_join_of_isAbs hdir _) (isAbs_join hdir _)).mpr
    ⟨?_, trail n, hne, ?_⟩
  · rcases packageTrail_cases h with ⟨t, heq, -, ht | hdot | hup⟩ | ⟨-, hup⟩
    · exact ⟨t, heq, ht⟩
    · exact absurd hdot hhere
    · exact absurd hup hname
    · exact absurd hup hname
  · rw [segments_join_of_trail hdir (up_notMem_trail hn), segments_packageDir h habs]

/-- A spelling that stays in its package from the root directory stays in one from every
directory: in the same, or in that of the directory it climbs to. -/
theorem contained_upward (h : PackageName name) (habs : isAbs d = true)
    (hroot : Contained [slash] name (Path.join [packageDir [slash] name, n])) :
    ∃ e, Upward d e ∧ Contained e name (Path.join [packageDir d name, n]) := by
  have hrooted : isAbs [slash] = true := rfl
  have hdir := isAbs_packageDir name habs
  have hdir' := isAbs_packageDir name hrooted
  have hcontained {e : Text} (he : isAbs e = true) :=
    contained_iff h he (clean_join_of_isAbs hdir [n]) (isAbs_join hdir [n])
  obtain ⟨hbelow, more, hmore, heq⟩ := (contained_iff h hrooted
    (clean_join_of_isAbs hdir' _) (isAbs_join hdir' _)).mp hroot
  obtain ⟨ups, names, -, -, hjoin⟩ := exists_trail n
  have hempty : segments [slash] = [] := by decide
  rw [hjoin _ hdir', segments_packageDir h hrooted, hempty, List.nil_append] at heq
  have hsegments := hjoin _ hdir
  rw [segments_packageDir h habs] at hsegments
  rcases le_or_gt ups (packageTrail name).length with hle | hlt
  · -- the name climbs no higher than the directory
    refine ⟨d, .here, (hcontained habs).mpr ⟨hbelow, more, hmore, ?_⟩⟩
    have htake : (segments d ++ packageTrail name).length - ups =
        (segments d).length + ((packageTrail name).length - ups) := by
      rw [List.length_append]
      omega
    rw [hsegments, htake, List.take_length_add_append, List.append_assoc, heq, List.append_assoc]
  · -- it climbs above the directory, and names the whole package from there
    obtain ⟨e, he, hfront⟩ := exists_upward habs
      (List.take_prefix ((segments d ++ packageTrail name).length - ups) (segments d))
    have hle : (segments d ++ packageTrail name).length - ups ≤ (segments d).length := by
      rw [List.length_append]
      omega
    refine ⟨e, he, (hcontained (he.isAbs habs)).mpr ⟨hbelow, more, hmore, ?_⟩⟩
    rw [Nat.sub_eq_zero_of_le hlt.le, List.take_zero, List.nil_append] at heq
    rw [hsegments, List.take_append_of_le_length hle, hfront, heq, List.append_assoc]

end

/-! ### The files of packages -/

/-- The name of the file in a package, that of its index if the import has none. -/
def fileName (pkg : Package) : Text := if pkg.file.isEmpty then of "index" else pkg.file

/-- The directory a package is looked for from. -/
def startDir (tree : FileTree) (root src : Text) : Text :=
  Path.absolute tree.cwd (if src.isEmpty then root else src)

/-- The directories of a package that there are, nearest first. -/
def packageDirs (tree : FileTree) (start name : Text) : List Text :=
  ((upwards start.length start).map fun d => packageDir d name).filter tree.exists'

variable {tree : FileTree} {root name src p n : Text} {pkg : Package} {found : Resolved}

theorem byPackage_eq (h : Package.parse? name = some pkg) :
    byPackage tree root name src =
      match firstFile? tree (packageDirs tree (startDir tree root src) pkg.name)
        (candidates (fileName pkg)) with
      | some p => .ok ⟨name, p, .package⟩
      | none => .error (.noPackage name (startDir tree root src)) := by
  rw [byPackage, h]
  rfl

/-- A spelling is the name itself, or ends in a name with something put before or after it. -/
theorem trail_ne_nil_of_mem_candidates (hname : trail name ≠ []) (hn : n ∈ candidates name) :
    trail n ≠ [] := by
  obtain ⟨hslash, heq, front, hfront⟩ := exists_split_splitLast name
  unfold candidates at hn
  dsimp only at hn
  generalize (splitLast name).1 = dir at hn hfront heq
  generalize (splitLast name).2 = file at hn hslash heq
  have hextension : slash ∉ extension ∧ extension.length = 5 := by decide
  have hmark : slash ≠ ch '_' := by decide
  have hunder (x : Text) : Named (ch '_' :: x) := named_cons (by decide) x
  have hlong : Named (file ++ extension) := by
    have hne {t : Text} (ht : t.length < 5) : file ++ extension ≠ t := by
      intro h
      have hlength := congrArg List.length h
      rw [List.length_append, hextension.2] at hlength
      omega
    exact ⟨hne (by decide), hne (by decide), hne (by decide)⟩
  simp only [List.append_assoc, List.cons_append, List.mem_cons, List.not_mem_nil, or_false] at hn
  rcases hn with rfl | rfl | rfl | rfl
  · exact trail_ne_nil (hfront _ (by simp [hslash, hmark, hextension.1])) (hunder _)
  · exact trail_ne_nil (hfront _ (by simp [hslash, hextension.1])) hlong
  · exact trail_ne_nil (hfront _ (by simp [hslash, hmark])) (hunder _)
  · rwa [← heq]

/-- Where the file of a package is found. -/
theorem exists_of_resolve_package (h : Package.parse? name = some pkg)
    (hfound : (package root).resolve tree name src = .ok found) :
    ∃ d n, Upward (startDir tree root src) d ∧ n ∈ candidates (fileName pkg) ∧
      found.path = Path.join [packageDir d pkg.name, n] := by
  rw [resolve, byPackage_eq h] at hfound
  split at hfound
  · next p hfirst =>
    obtain ⟨q, hq, n, hn, rfl⟩ := exists_of_firstFile? hfirst
    obtain ⟨d, hd, rfl⟩ := List.mem_map.mp (List.mem_filter.mp hq).1
    exact ⟨d, n, upward_of_mem_upwards hd, hn, by rw [← Except.ok.inj hfound]⟩
  · cases hfound

/-! ### A tree for every spelling -/

theorem cons_key (tree : FileTree) (hp : Path.clean p = p) (habs : isAbs p = true) :
    slash :: tree.key p = p := by
  rcases clean_cases p with ⟨-, heq⟩ | ⟨hrel, -⟩ | ⟨hrel, -⟩
  · rw [FileTree.key, if_pos habs, heq]
    conv_rhs => rw [← hp, heq]
    simp [without, after?, starts, slash]
  · exact absurd habs (by simp [hrel])
  · exact absurd habs (by simp [hrel])

theorem isFile_iff_of_system (hsystem : tree.system = true) :
    tree.isFile p = true ↔ (tree.content? (tree.key p)).isSome := by
  rw [FileTree.isFile_iff, FileTree.openable, hsystem]
  exact and_iff_right rfl

/-- A file at `p`, and in the package another one whose name is so long. -/
def packageTree (name p : Text) (length : Nat) : FileTree where
  files := [p, packageDir [slash] name ++ slash :: List.replicate length (ch 'x')].map
    fun f => (f.drop 1, [])
  system := true

section

variable {length : Nat}

/-- No file at a shorter path but the first. -/
theorem packageTree_isFile_iff (hn : Path.clean n = n) (habs : isAbs n = true)
    (hlength : n.length ≤ length) (hp : Path.clean p = p) (habsp : isAbs p = true) :
    (packageTree name p length).isFile n = true ↔ n = p := by
  have hkey := cons_key (packageTree name p length) hn habs
  have hkeyp := cons_key (packageTree name p length) hp habsp
  have hne : (packageTree name p length).key n ≠
      (packageDir [slash] name ++ slash :: List.replicate length (ch 'x')).drop 1 := by
    intro heq
    have hlong := congrArg List.length heq
    rw [← hkey] at hlength
    simp only [List.length_drop, List.length_append, List.length_cons, List.length_replicate]
      at hlong hlength
    omega
  have hdrop : p.drop 1 = (packageTree name p length).key p := by
    conv_lhs => rw [← hkeyp]
    rfl
  rw [isFile_iff_of_system rfl, FileTree.content?, List.lookup_isSome_iff]
  constructor
  · rintro ⟨f, hf, heq⟩
    obtain ⟨r, hr, rfl⟩ := List.mem_map.mp hf
    have heq : (packageTree name p length).key n = r.drop 1 := by simpa using heq
    rcases List.mem_cons.mp hr with rfl | hr
    · rw [← hkey, heq, hdrop, hkeyp]
    · rw [List.mem_singleton.mp hr] at heq
      exact absurd heq hne
  · rintro rfl
    exact ⟨(n.drop 1, []), List.mem_cons_self, by simp [hdrop]⟩

theorem packageTree_exists :
    (packageTree name p length).exists' (packageDir [slash] name) = true := by
  have hdir : isAbs (packageDir [slash] name) = true := isAbs_packageDir name rfl
  have hkey : slash :: (packageTree name p length).key (packageDir [slash] name) =
      packageDir [slash] name := cons_key _ (clean_join_of_isAbs rfl _) hdir
  have hbelow : (packageTree name p length).hasBelow
      ((packageTree name p length).key (packageDir [slash] name)) = true := by
    rw [FileTree.hasBelow, List.any_eq_true]
    refine ⟨_, List.mem_cons_of_mem _ List.mem_cons_self, ?_⟩
    generalize (packageTree name p length).key (packageDir [slash] name) = k at hkey
    dsimp only
    rw [← hkey]
    simp [starts, slash]
  rw [FileTree.exists', hbelow, Bool.or_true, Bool.true_or]

theorem packageTree_firstFile? {names : List Text}
    (hlength : ∀ m ∈ names, (Path.join [packageDir [slash] name, m]).length ≤ length)
    (hn : n ∈ names) :
    firstFile? (packageTree name (Path.join [packageDir [slash] name, n]) length)
      [packageDir [slash] name] names = some (Path.join [packageDir [slash] name, n]) := by
  have hdir : isAbs (packageDir [slash] name) = true := isAbs_packageDir name rfl
  have hfile {m : Text} (hm : m ∈ names) :
      (packageTree name (Path.join [packageDir [slash] name, n]) length).isFile
        (Path.join [packageDir [slash] name, m]) = true ↔ _ :=
    packageTree_isFile_iff (clean_join_of_isAbs hdir _) (isAbs_join hdir _) (hlength m hm)
      (clean_join_of_isAbs hdir _) (isAbs_join hdir _)
  cases hfirst : firstFile? (packageTree name (Path.join [packageDir [slash] name, n]) length)
      [packageDir [slash] name] names with
  | none =>
    have hnone := firstFile?_eq_none_iff.mp hfirst _ List.mem_cons_self n hn
    exact absurd ((hfile hn).mpr rfl) (by simp [hnone])
  | some q =>
    obtain ⟨d, m, ⟨hat, ⟨before, after, hdirs, -⟩, ⟨front, rest, hnames, -⟩⟩, rfl⟩ :=
      firstFile?_eq_some_iff.mp hfirst
    obtain rfl : d = packageDir [slash] name :=
      List.mem_singleton.mp (hdirs ▸ List.mem_append_right _ List.mem_cons_self)
    have hm : m ∈ names := hnames ▸ List.mem_append_right _ List.mem_cons_self
    rw [(hfile hm).mp hat]

end

theorem startDir_root (tree : FileTree) : startDir tree [slash] [] = [slash] := rfl

/-- Every spelling of a file is found in some tree. -/
theorem exists_resolve_package (h : Package.parse? name = some pkg)
    (hn : n ∈ candidates (fileName pkg)) :
    ∃ tree : FileTree, isAbs tree.cwd = true ∧
      (package [slash]).resolve tree name [] =
        .ok ⟨name, Path.join [packageDir [slash] pkg.name, n], .package⟩ := by
  obtain ⟨length, hlength⟩ : ∃ length, ∀ m ∈ candidates (fileName pkg),
      (Path.join [packageDir [slash] pkg.name, m]).length ≤ length :=
    ⟨_, fun m hm => List.le_sum_of_mem (List.mem_map_of_mem
      (f := fun m => (Path.join [packageDir [slash] pkg.name, m]).length) hm)⟩
  refine ⟨packageTree pkg.name (Path.join [packageDir [slash] pkg.name, n]) length, rfl, ?_⟩
  have hupwards : upwards [slash].length [slash] = [[slash]] := by decide
  have hfirst := packageTree_firstFile? hlength hn
  rw [resolve, byPackage_eq h, startDir_root, packageDirs, hupwards, List.map_singleton,
    List.filter_singleton, packageTree_exists, cond_true, hfirst]

/-! ### Names that stay in their package -/

theorem eq_root_of_upward {d : Text} (h : Upward [slash] d) : d = [slash] := by
  induction h with
  | here => rfl
  | above _ ih =>
    rw [ih]
    decide

/-- Whatever the tree and wherever the search starts, the file found for a name is in the
package the name says, of a directory of that search, exactly if every spelling of the file
stays in the package at the root. It does if neither the package nor the file leads up, the
package is not the directory of all packages and the file not the package. -/
theorem package_contained_iff (hparse : Package.parse? name = some pkg) :
    ((∀ tree root src found, isAbs tree.cwd = true →
        (package root).resolve tree name src = .ok found →
        ∃ d, Upward (startDir tree root src) d ∧ Contained d pkg.name found.path) ↔
      ∀ n ∈ candidates (fileName pkg),
        Contained [slash] pkg.name (Path.join [packageDir [slash] pkg.name, n])) ∧
    (pkg.name ≠ of "." → up ∉ split slash pkg.name → up ∉ split slash (fileName pkg) →
      trail (fileName pkg) ≠ [] →
      ∀ n ∈ candidates (fileName pkg),
        Contained [slash] pkg.name (Path.join [packageDir [slash] pkg.name, n])) := by
  have hname := packageName_of_parse? hparse
  refine ⟨⟨fun h n hn => ?_, fun h tree root src found hcwd hfound => ?_⟩,
    fun hhere hup hfile htrail n hn => ?_⟩
  · obtain ⟨tree, hcwd, hfound⟩ := exists_resolve_package hparse hn
    obtain ⟨d, hd, hcontained⟩ := h tree _ _ _ hcwd hfound
    rw [startDir_root] at hd
    rwa [eq_root_of_upward hd] at hcontained
  · obtain ⟨d, n, hd, hn, hpath⟩ := exists_of_resolve_package hparse hfound
    have habs : isAbs d = true := hd.isAbs (isAbs_absolute hcwd _)
    obtain ⟨e, he, hcontained⟩ := contained_upward hname habs (h n hn)
    exact ⟨e, hd.trans he, hpath ▸ hcontained⟩
  · refine contained_of_up_notMem hname rfl hhere hup ?_ (trail_ne_nil_of_mem_candidates htrail hn)
    exact List.count_eq_zero.mp (ascents_of_mem_candidates hfile hn)

/-- A partial in a package with a scope is found there. -/
theorem scoped_file_contained :
    Package.parse? (of "npm:@acme/ui/scss/grid") = some ⟨of "@acme/ui", of "scss/grid"⟩ ∧
    ∀ tree root src found, isAbs tree.cwd = true →
      (package root).resolve tree (of "npm:@acme/ui/scss/grid") src = .ok found →
      ∃ d, Upward (startDir tree root src) d ∧ Contained d (of "@acme/ui") found.path := by
  have hparse : Package.parse? (of "npm:@acme/ui/scss/grid") =
      some ⟨of "@acme/ui", of "scss/grid"⟩ := by decide +kernel
  obtain ⟨hiff, hplain⟩ := package_contained_iff hparse
  exact ⟨hparse, hiff.mpr (hplain (by decide) (by decide) (by decide) (by decide))⟩

/-- A package without the file, which is among the modules themselves. -/
def climbingTree : FileTree :=
  .ofList [(of "/project/node_modules/ui/_index.scss", []),
    (of "/project/node_modules/_secret.scss", [])]

/-- A file that leads up is found outside its package. -/
theorem climbing_name_escapes :
    Package.parse? (of "npm:ui/../secret") = some ⟨of "ui", of "../secret"⟩ ∧
    (package (of "/project")).resolve climbingTree (of "npm:ui/../secret") (of "/project/src") =
      .ok ⟨of "npm:ui/../secret", of "/project/node_modules/_secret.scss", .package⟩ ∧
    ¬ ∃ d, Upward (startDir climbingTree (of "/project") (of "/project/src")) d ∧
      Contained d (of "ui") (of "/project/node_modules/_secret.scss") := by
  refine ⟨by decide +kernel, by decide +kernel, ?_⟩
  rintro ⟨d, hd, hcontained⟩
  have hname : PackageName (of "ui") := .single (by decide) (by decide)
  have habs : isAbs d = true := hd.isAbs (by decide)
  obtain ⟨-, names, -, heq⟩ :=
    (contained_iff hname habs (by decide) (by decide)).mp hcontained
  -- no segment of the path is the package
  have hmem : of "ui" ∈ segments (of "/project/node_modules/_secret.scss") := by
    rw [heq]
    exact List.mem_append_left _ (List.mem_append_right _ (by decide))
  exact absurd hmem (by decide)

end Resolver

end Stylesheet
