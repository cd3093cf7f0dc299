import Mathlib.Data.List.Destutter
import Mathlib.Data.List.SplitBy
import Stylesheet.Proofs.Output.Tree

/-!
# Printed fragments decoded

What is printed for fragments can be decoded again: the text is taken apart into the tree
that the fragments stand for. In that tree consecutive fragments with the same media query
share a media block, those with the same selectors share a rule, the lines of the root
stand by themselves, and a line is not repeated. The tree does not depend on the style, so
compressed and pretty output say the same.

## Main definitions

* `contentTree` — the tree that fragments stand for
* `TidyText`, `Fragment.Tidy` — fragments whose texts have no punctuation in them

## Main results

* `ofFragments_eq_runs` — the groups that are printed are the runs of the tree
* `print_eq_forest` — printing fragments writes their tree
* `decode_print` — decoding what is printed gives the tree
-/

namespace Stylesheet

open Text

/-! ### The tree of fragments -/

/-- The lines of fragments with the same selectors, without repetitions. -/
def lineNodes (run : List Fragment) : List CssNode :=
  ((run.flatMap (·.properties)).destutter (· ≠ ·)).map .line

/-- The rule of fragments with the same selectors; the lines of the root stand by
themselves. -/
def ruleNodes : List Fragment → List CssNode
  | [] => []
  | f :: run =>
    if f.key.isEmpty then lineNodes (f :: run)
    else [.block (.rule f.selectors) (lineNodes (f :: run))]

/-- The rules of fragments, one for each run with the same selectors. -/
def rulesOf (run : List Fragment) : List CssNode :=
  (run.splitBy fun f g => f.key = g.key).flatMap ruleNodes

/-- The media block of fragments with the same media query, if they have one. -/
def mediaNodes : List Fragment → List CssNode
  | [] => []
  | f :: run =>
    if (mediaQuery f.media).isEmpty then rulesOf (f :: run)
    else [.block (.media (mediaQuery f.media)) (rulesOf (f :: run))]

/-- The tree of fragments, of which those without properties are left out: one media block
for each run with the same media query. -/
def contentTree (fragments : List Fragment) : List CssNode :=
  ((fragments.filter fun f => !f.properties.isEmpty).splitBy
    fun f g => mediaQuery f.media = mediaQuery g.media).flatMap mediaNodes

/-! ### Groups and runs -/

/-- A list that starts with one more member: it joins the first run or is a run by
itself. -/
theorem splitBy_cons {α : Type} {r : α → α → Bool} {a b : α} {m run : List α}
    {runs : List (List α)} (h : m.splitBy r = (b :: run) :: runs) :
    (a :: m).splitBy r =
      if r a b then (a :: b :: run) :: runs else [a] :: (b :: run) :: runs := by
  obtain ⟨rfl, hnil, hchain, happart⟩ := List.splitBy_eq_iff.mp h
  obtain ⟨hfirst, hrest⟩ := List.forall_mem_cons.mp hchain
  rw [List.mem_cons, not_or] at hnil
  split_ifs with hab
  · rw [List.splitBy_eq_iff]
    refine ⟨by simp, by simp [hnil.2], List.forall_mem_cons.mpr ⟨?_, hrest⟩, ?_⟩
    · exact List.isChain_cons_cons.mpr ⟨hab, hfirst⟩
    · -- The first run still ends where it did, apart from the next.
      cases runs with
      | nil => exact List.isChain_singleton _
      | cons next runs =>
        obtain ⟨⟨hne, hnext, hlast⟩, happart⟩ := List.isChain_cons_cons.mp happart
        exact List.isChain_cons_cons.mpr ⟨⟨by simp, hnext, by simpa using hlast⟩, happart⟩
  · rw [List.splitBy_eq_iff]
    refine ⟨by simp, by simp [hnil.2], ?_, ?_⟩
    · exact List.forall_mem_cons.mpr ⟨List.isChain_singleton a, hchain⟩
    · exact List.isChain_cons_cons.mpr ⟨⟨by simp, by simp, by simpa using hab⟩, happart⟩

theorem mem_of_mem_splitBy {α : Type} {r : α → α → Bool} {a : α} {m run : List α}
    (hrun : run ∈ m.splitBy r) (ha : a ∈ run) : a ∈ m := by
  rw [← List.flatten_splitBy r m]
  exact List.mem_flatten_of_mem hrun ha

/-- The first run of a list starts with its first member. -/
theorem exists_splitBy_cons {α : Type} (r : α → α → Bool) (a : α) (m : List α) :
    ∃ run runs, (a :: m).splitBy r = (a :: run) :: runs := by
  cases h : (a :: m).splitBy r with
  | nil => exact absurd (List.splitBy_eq_nil.mp h) (by simp)
  | cons run runs =>
    obtain ⟨hflatten, hnil, -⟩ := List.splitBy_eq_iff.mp h
    cases run with
    | nil => simp at hnil
    | cons b run =>
      obtain ⟨rfl, -⟩ := List.cons.inj hflatten
      exact ⟨run, runs, rfl⟩

/-- The rule that is printed for fragments with the same selectors. -/
def itemOf : List Fragment → Item
  | [] => .rule [] []
  | f :: run => .rule f.selectors ((f :: run).flatMap (·.properties))

/-- The group that is printed for fragments with the same media query. -/
def groupOf : List Fragment → MediaGroup
  | [] => ⟨[], []⟩
  | f :: run => ⟨mediaQuery f.media, ((f :: run).splitBy fun f g => f.key = g.key).map itemOf⟩

/-- A fragment before others joins their first run or is one by itself. -/
theorem push_runs {f : Fragment} (hf : f.raw = none) (run : List Fragment) :
    Item.push f ((run.splitBy fun f g => f.key = g.key).map itemOf) =
      ((f :: run).splitBy fun f g => f.key = g.key).map itemOf := by
  cases run with
  | nil => simp [Item.push, hf, itemOf, List.splitBy, List.splitBy.loop]
  | cons g run =>
    obtain ⟨first, rest, hsplit⟩ := exists_splitBy_cons (fun f g => f.key = g.key) g run
    rw [splitBy_cons hsplit, hsplit, List.map_cons, itemOf]
    unfold Item.push
    rw [hf]
    dsimp only
    rw [← Fragment.key]
    by_cases hkey : f.key = g.key
    · rw [if_pos hkey.symm, if_pos (by simpa using hkey)]
      simp [itemOf]
    · rw [if_neg (Ne.symm hkey), if_neg (by simpa using hkey)]
      simp [itemOf]

/-- The groups that are printed are the runs with the same media query. -/
theorem ofFragments_eq_runs {fs : List Fragment} (hfs : ∀ f ∈ fs, f.raw = none) :
    MediaGroup.ofFragments fs =
      (fs.splitBy fun f g => mediaQuery f.media = mediaQuery g.media).map groupOf := by
  induction fs with
  | nil => rfl
  | cons f fs ih =>
    obtain ⟨hf, hfs⟩ := List.forall_mem_cons.mp hfs
    rw [MediaGroup.ofFragments, ih hfs]
    cases fs with
    | nil => simpa [List.splitBy, List.splitBy.loop, groupOf] using push_runs hf []
    | cons g fs =>
      obtain ⟨first, rest, hsplit⟩ :=
        exists_splitBy_cons (fun f g => mediaQuery f.media = mediaQuery g.media) g fs
      rw [splitBy_cons hsplit, hsplit, List.map_cons, groupOf]
      dsimp only
      by_cases hquery : mediaQuery f.media = mediaQuery g.media
      · rw [if_pos hquery.symm, if_pos (by simpa using hquery), push_runs hf]
        rfl
      · rw [if_neg (Ne.symm hquery), if_neg (by simpa using hquery)]
        have hlone := push_runs hf []
        rw [List.splitBy_nil, List.map_nil] at hlone
        rw [hlone]
        rfl

/-! ### Printing writes the tree -/

section Printing

variable {style : Style}

theorem forest_lines (level : Nat) (ps : List Property) :
    style.forest level (ps.map .line) =
      ps.flatMap fun p => style.line level (style.declaration p ++ [ch ';']) := by
  induction ps with
  | nil => rw [List.map_nil, Style.forest, List.flatMap_nil]
  | cons p ps ih => rw [List.map_cons, Style.forest, Style.node, ih, List.flatMap_cons]

/-- Lines after a line already written: those that repeat the one before them are left
out. Different declarations are written differently, since they are read back. -/
theorem lines_eq_destutter' {ps : List Property} {p : Property} (seen : List Text)
    (hp : p.Tidy style) (hps : ∀ q ∈ ps, q.Tidy style) :
    style.declaration p :: style.lines seen (style.declaration p) ps =
      (ps.destutter' (· ≠ ·) p).map style.declaration := by
  induction ps generalizing p seen with
  | nil => rfl
  | cons q ps ih =>
    obtain ⟨hq, hrest⟩ := List.forall_mem_cons.mp hps
    rw [Style.lines, hq.no_default, List.destutter'_cons, Bool.false_and, Bool.false_or,
      if_neg Bool.false_ne_true]
    by_cases hpq : p = q
    · subst hpq
      rw [if_pos (by simp), if_neg (by simp)]
      exact ih seen hq hrest
    · have hdiffer : style.declaration q ≠ style.declaration p := fun h =>
        hpq (by rw [← hp.read_declaration, ← h, hq.read_declaration])
      rw [if_neg (by simpa using hdiffer), if_pos hpq, List.map_cons]
      exact congrArg (_ :: ·) (ih (q.name :: seen) hq hrest)

theorem lines_eq_destutter {ps : List Property} (hps : ∀ q ∈ ps, q.Tidy style) :
    style.lines [] [] ps = (ps.destutter (· ≠ ·)).map style.declaration := by
  cases ps with
  | nil => rfl
  | cons p ps =>
    obtain ⟨hp, hps⟩ := List.forall_mem_cons.mp hps
    rw [Style.lines, hp.no_default, Bool.false_and, Bool.false_or, if_neg Bool.false_ne_true,
      if_neg (by simpa using hp.cleanLine.1.ne_nil)]
    exact lines_eq_destutter' [p.name] hp hps

/-- The lines of fragments are written without repetitions. -/
theorem declarations_eq_forest {run : List Fragment} (level : Nat)
    (hps : ∀ f ∈ run, ∀ p ∈ f.properties, p.Tidy style) :
    style.declarations level (run.flatMap (·.properties)) = style.forest level (lineNodes run) := by
  rw [lineNodes, forest_lines, Style.declarations, lines_eq_destutter, List.flatMap_map]
  intro p hp
  obtain ⟨f, hf, hp⟩ := List.mem_flatMap.mp hp
  exact hps f hf p hp

theorem item_eq_forest {run : List Fragment} (level : Nat)
    (hps : ∀ f ∈ run, ∀ p ∈ f.properties, p.Tidy style) :
    style.item level (itemOf run) = style.forest level (ruleNodes run) := by
  cases run with
  | nil =>
    rw [ruleNodes, Style.forest]
    rfl
  | cons f run =>
    rw [itemOf, ruleNodes, Style.item, ← Fragment.key]
    split_ifs with hroot
    · exact declarations_eq_forest level hps
    · rw [Style.forest_singleton, Style.node, declarations_eq_forest (level + 1) hps]
      rfl

theorem items_eq_forest {run : List Fragment} (level : Nat)
    (hps : ∀ f ∈ run, ∀ p ∈ f.properties, p.Tidy style) :
    ((run.splitBy fun f g => f.key = g.key).map itemOf).flatMap (style.item level) =
      style.forest level (rulesOf run) := by
  rw [rulesOf, Style.forest_flatMap, List.flatMap_map]
  refine List.flatMap_congr fun part hpart => ?_
  exact item_eq_forest level fun f hf => hps f (mem_of_mem_splitBy hpart hf)

theorem group_eq_forest {run : List Fragment}
    (hps : ∀ f ∈ run, ∀ p ∈ f.properties, p.Tidy style) :
    style.group (groupOf run) = style.forest 0 (mediaNodes run) := by
  cases run with
  | nil =>
    rw [mediaNodes, Style.forest]
    rfl
  | cons f run =>
    rw [groupOf, mediaNodes, Style.group]
    dsimp only
    split_ifs with hroot
    · exact items_eq_forest 0 hps
    · rw [Style.forest_singleton, Style.node, items_eq_forest 1 hps]
      rfl

/-- Printing fragments writes their tree. -/
theorem print_eq_forest {fs : List Fragment} (hraw : ∀ f ∈ fs, f.raw = none)
    (hps : ∀ f ∈ fs, ∀ p ∈ f.properties, p.Tidy style) :
    style.print fs = style.forest 0 (contentTree fs) := by
  have hemitted : emittedOf fs = fs.filter fun f => !f.properties.isEmpty :=
    List.filter_congr fun f hf => by simp [Fragment.isEmitted, hraw f hf]
  rw [Style.print, hemitted, ofFragments_eq_runs fun f hf => hraw f (List.mem_of_mem_filter hf),
    contentTree, Style.forest_flatMap, List.flatMap_map]
  refine List.flatMap_congr fun run hrun => ?_
  exact group_eq_forest fun f hf => hps f (List.mem_of_mem_filter (mem_of_mem_splitBy hrun hf))

end Printing

/-! ### Fragments without punctuation -/

/-- A text without white space at its ends, without the punctuation of a stylesheet and
without a mark that makes a declaration give way. -/
@[mk_iff]
structure TidyText (t : Text) : Prop where
  ne_nil : t ≠ []
  trimmed : trim t = t
  no_mark : ∀ c ∈ t, c ∉ outputMarks
  not_hash : t.getLast? ≠ some (ch '#')
  no_default : has t (of "!default") = false

/-- A fragment, not a raw at-rule, of which all texts are tidy. The empty selector is that
of the root. -/
@[mk_iff]
structure Fragment.Tidy (f : Fragment) : Prop where
  raw : f.raw = none
  selectors : f.selectors = [[]] ∨ ∀ t ∈ f.selectors, TidyText t ∧ head0 t ≠ ch '@'
  media : ∀ q ∈ f.media, TidyText q
  names : ∀ p ∈ f.properties, TidyText p.name ∧ ch ':' ∉ p.name
  values : ∀ p ∈ f.properties, ∀ v ∈ p.value, TidyText v

/-- A fragment whose values the style leaves as they are. -/
def Fragment.KeptBy (f : Fragment) (style : Style) : Prop :=
  ∀ p ∈ f.properties, ∀ v ∈ p.value, style.shorten v = v

instance (t : Text) : Decidable (TidyText t) := decidable_of_iff _ (tidyText_iff t).symm

instance (f : Fragment) : Decidable f.Tidy := decidable_of_iff _ (Fragment.tidy_iff f).symm

instance (f : Fragment) (style : Style) : Decidable (f.KeptBy style) :=
  inferInstanceAs (Decidable (∀ p ∈ f.properties, ∀ v ∈ p.value, style.shorten v = v))

theorem TidyText.clean {t : Text} (ht : TidyText t) : CleanText t :=
  ⟨snug_of_trim_eq ht.ne_nil ht.trimmed, ht.no_mark, ht.not_hash⟩

/-- A word without a byte occurs on one side of that byte. -/
theorem infix_of_infix_append_cons {p t u : Text} {c : UInt8} (hc : c ∉ p)
    (h : p <:+: t ++ c :: u) : p <:+: t ∨ p <:+: u := by
  have hstart {l : Text} (hl : l <+: c :: u) (hsub : l ⊆ p) : l = [] := by
    cases l with
    | nil => rfl
    | cons d l =>
      obtain ⟨rfl, -⟩ := List.cons_prefix_cons.mp hl
      exact absurd (hsub List.mem_cons_self) hc
  rcases List.infix_append_iff.mp h with h | h | ⟨l, l', rfl, hl, hl'⟩
  · exact .inl h
  · rcases List.infix_cons_iff.mp h with h | h
    · rw [hstart h fun _ hd => hd]
      exact .inl List.nil_infix
    · exact .inr h
  · rw [hstart hl' (List.subset_append_right l l'), List.append_nil]
    exact .inl hl.isInfix

/-- A declaration has no mark that its name and its value have not. -/
theorem has_declaration_eq_false {style : Style} {p : Property} {mark : Text}
    (hname : has p.name mark = false) (hvalue : ∀ v ∈ p.value, has v mark = false)
    (hshort : ∀ v ∈ p.value, style.shorten v = v) (hcolon : ch ':' ∉ mark)
    (hspace : ch ' ' ∉ mark) : has (style.declaration p) mark = false := by
  obtain ⟨name, value⟩ := p
  cases value with
  | none => exact hname
  | some v =>
    refine Bool.eq_false_iff.mpr fun h => ?_
    have hinfix : mark <:+: name ++ ch ':' :: (style.space ++ v) := by
      rw [has_iff, Style.declaration] at h
      dsimp only at h
      rwa [hshort v rfl, List.append_assoc, List.cons_append] at h
    -- The mark stands on one side of the colon, and then on one side of the space.
    rcases infix_of_infix_append_cons hcolon hinfix with h | h
    · exact absurd (has_iff.mpr h) (by simp [hname])
    have hmark : mark <:+: v := by
      rw [Style.space] at h
      split_ifs at h
      · exact h
      · rcases infix_of_infix_append_cons (t := []) hspace h with h | h
        · rw [List.infix_nil.mp h]
          exact List.nil_infix
        · exact h
    exact absurd (has_iff.mpr hmark) (by simp [hvalue v rfl])

theorem Fragment.Tidy.property {f : Fragment} {style : Style} (hf : f.Tidy)
    (hkept : f.KeptBy style) {p : Property} (hp : p ∈ f.properties) : p.Tidy style where
  name := (hf.names p hp).1.clean
  no_colon := (hf.names p hp).2
  value v hv := ⟨(hf.values p hp v hv).clean, hkept p hp v hv⟩
  no_default := has_declaration_eq_false (hf.names p hp).1.no_default
    (fun v hv => (hf.values p hp v hv).no_default) (hkept p hp) (by decide) (by decide)

/-- The selectors of a fragment other than the root make a heading. -/
theorem Fragment.Tidy.rule_heading {f : Fragment} (hf : f.Tidy) (hkey : f.key.isEmpty = false) :
    (CssHeading.rule f.selectors).Tidy := by
  have hroot : f.selectors ≠ [[]] := by
    intro h
    rw [Fragment.key, h] at hkey
    cases hkey
  refine ⟨fun h => ?_, fun t ht => ?_⟩
  · rw [Fragment.key, h] at hkey
    cases hkey
  · obtain ⟨htidy, hat⟩ := hf.selectors.resolve_left hroot t ht
    exact ⟨htidy.clean, hat⟩

/-- The queries of a media context are among those it was given. -/
theorem mem_of_mem_distinct {media qs : List Text} {q : Text}
    (hq : q ∈ media.foldl (fun qs q => if q.isEmpty || qs.contains q then qs else qs ++ [q]) qs) :
    q ∈ qs ∨ q ∈ media := by
  induction media generalizing qs with
  | nil => exact .inl hq
  | cons r media ih =>
    rcases ih hq with h | h
    · dsimp only at h
      split_ifs at h
      · exact .inl h
      · rcases List.mem_append.mp h with h | h
        · exact .inl h
        · exact .inr (List.mem_singleton.mp h ▸ List.mem_cons_self)
    · exact .inr (List.mem_cons_of_mem r h)

/-- The queries of a fragment in a media block make a heading. -/
theorem Fragment.Tidy.media_heading {f : Fragment} (hf : f.Tidy)
    (hquery : (mediaQuery f.media).isEmpty = false) :
    (CssHeading.media (mediaQuery f.media)).Tidy := by
  unfold mediaQuery at hquery ⊢
  generalize hqs : f.media.foldl
    (fun qs q => if q.isEmpty || qs.contains q then qs else qs ++ [q]) [] = qs at hquery ⊢
  have hclean : ∀ q ∈ qs, CleanText q := by
    intro q hq
    rw [← hqs] at hq
    exact (hf.media q ((mem_of_mem_distinct hq).resolve_left List.not_mem_nil)).clean
  have hne : qs ≠ [] := by
    rintro rfl
    cases hquery
  have hword : ∀ c ∈ of " and ", c < 0x80 ∧ c ∉ outputMarks := by decide
  refine ⟨snug_join hne (fun q hq => (hclean q hq).snug) (by decide) fun c hc => (hword c hc).1,
    fun c hc => ?_, ?_⟩
  · rcases mem_join hc with hc | ⟨q, hq, hc⟩
    · exact (hword c hc).2
    · exact (hclean q hq).no_mark c hc
  · rw [getLast?_join fun q hq => (hclean q hq).snug.ne_nil, List.getLast?_eq_some_getLast hne]
    exact (hclean _ (List.getLast_mem hne)).not_hash

/-! ### The tree of tidy fragments -/

section Tidying

variable {style : Style} {run : List Fragment}

theorem tidy_of_mem_lineNodes (hrun : ∀ f ∈ run, f.Tidy ∧ f.KeptBy style) :
    ∀ n ∈ lineNodes run, n.Tidy style := by
  intro n hn
  obtain ⟨p, hp, rfl⟩ := List.mem_map.mp hn
  obtain ⟨f, hf, hp⟩ := List.mem_flatMap.mp ((List.destutter_sublist _ _).subset hp)
  exact .line ((hrun f hf).1.property (hrun f hf).2 hp)

theorem tidy_of_mem_ruleNodes (hrun : ∀ f ∈ run, f.Tidy ∧ f.KeptBy style) :
    ∀ n ∈ ruleNodes run, n.Tidy style := by
  intro n hn
  cases run with
  | nil => cases hn
  | cons f run =>
    rw [ruleNodes] at hn
    split_ifs at hn with hkey
    · exact tidy_of_mem_lineNodes hrun n hn
    · obtain rfl := List.mem_singleton.mp hn
      have hheading := (hrun f List.mem_cons_self).1.rule_heading (by simpa using hkey)
      exact .block hheading (tidy_of_mem_lineNodes hrun)

theorem tidy_of_mem_rulesOf (hrun : ∀ f ∈ run, f.Tidy ∧ f.KeptBy style) :
    ∀ n ∈ rulesOf run, n.Tidy style := by
  intro n hn
  obtain ⟨part, hpart, hn⟩ := List.mem_flatMap.mp hn
  exact tidy_of_mem_ruleNodes (fun f hf => hrun f (mem_of_mem_splitBy hpart hf)) n hn

theorem tidy_of_mem_mediaNodes (hrun : ∀ f ∈ run, f.Tidy ∧ f.KeptBy style) :
    ∀ n ∈ mediaNodes run, n.Tidy style := by
  intro n hn
  cases run with
  | nil => cases hn
  | cons f run =>
    rw [mediaNodes] at hn
    split_ifs at hn with hquery
    · exact tidy_of_mem_rulesOf hrun n hn
    · obtain rfl := List.mem_singleton.mp hn
      have hheading := (hrun f List.mem_cons_self).1.media_heading (by simpa using hquery)
      exact .block hheading (tidy_of_mem_rulesOf hrun)

theorem tidy_of_mem_contentTree {fs : List Fragment} (hfs : ∀ f ∈ fs, f.Tidy ∧ f.KeptBy style) :
    ∀ n ∈ contentTree fs, n.Tidy style := by
  intro n hn
  obtain ⟨run, hrun, hn⟩ := List.mem_flatMap.mp hn
  exact tidy_of_mem_mediaNodes
    (fun f hf => hfs f (List.mem_of_mem_filter (mem_of_mem_splitBy hrun hf))) n hn

end Tidying

/-- Decoding what is printed for tidy fragments gives their tree, in every style that
leaves their values as they are. So compressed and pretty output are decoded to the same
tree. -/
theorem decode_print {fs : List Fragment} (hfs : ∀ f ∈ fs, f.Tidy) :
    ∀ style : Style, (∀ f ∈ fs, f.KeptBy style) →
      (locate (style.print fs)).2 = none ∧ decode (style.print fs) = some (contentTree fs) := by
  intro style hkept
  have hraw : ∀ f ∈ fs, f.raw = none := fun f hf => (hfs f hf).raw
  have hps : ∀ f ∈ fs, ∀ p ∈ f.properties, p.Tidy style :=
    fun f hf p hp => (hfs f hf).property (hkept f hf) hp
  rw [print_eq_forest hraw hps]
  exact decode_forest (tidy_of_mem_contentTree fun f hf => ⟨hfs f hf, hkept f hf⟩) 0

/-- Lines of the root, rules that are written as one with a line repeated across them, a
fragment with nothing to write, and a media block with a line and a rule. -/
def mixedFragments : List Fragment := [
  { id := 0, selectors := [[]], properties := [⟨of "@charset utf-8", none⟩] },
  { id := 1, selectors := [of ".a", of "b"], properties := [⟨of "color", some (of "red")⟩] },
  { id := 2, selectors := [of ".c"] },
  { id := 3, selectors := [of ".a", of "b"],
    properties := [⟨of "color", some (of "red")⟩, ⟨of "filter", some (of "x:y")⟩] },
  { id := 4, selectors := [[]], media := [of "print", of "screen"],
    properties := [⟨of "margin", some (of "0")⟩] },
  { id := 5, selectors := [of ".c"], media := [of "print", of "screen", of "print"],
    properties := [⟨of "top", some (of "1px")⟩] }]

/-- The style of both modes, with colors left alone. -/
def plainStyle (compress : Bool) : Style := ⟨compress, false, false⟩

example : contentTree mixedFragments = [
    .line ⟨of "@charset utf-8", none⟩,
    .block (.rule [of ".a", of "b"])
      [.line ⟨of "color", some (of "red")⟩, .line ⟨of "filter", some (of "x:y")⟩],
    .block (.media (of "print and screen")) [
      .line ⟨of "margin", some (of "0")⟩,
      .block (.rule [of ".c"]) [.line ⟨of "top", some (of "1px")⟩]]] := by rfl

theorem mixedFragments_decode :
    (∀ f ∈ mixedFragments, f.Tidy) ∧
      ∀ compress, (∀ f ∈ mixedFragments, f.KeptBy (plainStyle compress)) ∧
        (locate ((plainStyle compress).print mixedFragments)).2 = none ∧
          decode ((plainStyle compress).print mixedFragments) =
            some (contentTree mixedFragments) := by
  have htidy : ∀ f ∈ mixedFragments, f.Tidy := by decide
  have hkept : ∀ compress, ∀ f ∈ mixedFragments, f.KeptBy (plainStyle compress) := by
    decide
  exact ⟨htidy, fun compress => ⟨hkept compress, decode_print htidy _ (hkept compress)⟩⟩

end Stylesheet
