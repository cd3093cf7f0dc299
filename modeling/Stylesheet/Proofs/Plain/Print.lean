import Mathlib.Data.List.Chain
import Mathlib.Data.List.Nodup
import Stylesheet.Compile
import Stylesheet.Proofs.Compile.Ordering
import Stylesheet.Proofs.Plain.Expand

/-!
# Plain stylesheets printed

The fragments of a plain stylesheet extend nothing, so they stay as they are and in the
order they were encountered. Printing them gives the text of the stylesheet: rules that
follow each other are not written as one, and neither are media blocks.

## Main definitions

* `sheetGroups` — the rules of a plain stylesheet under their media queries

## Main results

* `resolveExtends_eq_self`, `orderFragments_eq` — nothing to extend and nothing to move
* `ofFragments_eq_sheetGroups` — how the fragments are grouped
* `print_sheetGroups` — how the groups are written
-/

namespace Stylesheet

open Text

variable {style : Style}

/-! ### Extends and order -/

theorem foldl_eq_self {α β : Type} {f : β → α → β} {xs : List α} (h : ∀ x ∈ xs, ∀ b, f b x = b)
    (b : β) : xs.foldl f b = b := by
  induction xs generalizing b with
  | nil => rfl
  | cons x xs ih =>
    rw [List.foldl_cons, h x List.mem_cons_self]
    exact ih (fun y hy => h y (List.mem_cons_of_mem x hy)) b

/-- Fragments that extend nothing stay as they are. -/
theorem resolveExtends_eq_self {fs : List Fragment} (hfs : ∀ f ∈ fs, f.parents = []) :
    resolveExtends fs = (fs, []) := by
  have hparents : ∀ f ∈ fs.filter (·.raw.isNone), f.parents = [] :=
    fun f hf => hfs f (List.mem_of_mem_filter hf)
  have hrequests : requests fs = [] :=
    foldl_eq_self (fun f hf rs => by rw [hparents f hf, List.foldl_nil]) []
  have hgraph : extendGraph fs = {} := by
    rw [extendGraph, hrequests]
    rfl
  rw [resolveExtends, cycleWarning, hrequests, hgraph]
  exact congrArg (·, []) (Parts.fragments_ofFragments fs)

/-- Fragments that depend on nothing are written in the order encountered. -/
theorem orderFragments_eq {fs gs : List Fragment} (hperm : gs.Perm fs)
    (hdeps : ∀ f ∈ fs, f.deps = []) (hposition : ∀ f ∈ fs, f.position = f.order)
    (horder : fs.Pairwise fun f g => f.order < g.order) :
    orderFragments gs = fs.map Fragment.rank := by
  have horders : (fs.map (·.order)).Nodup := List.pairwise_map.mpr (horder.imp Nat.ne_of_lt)
  obtain ⟨hs, heq, hmoved, hahead⟩ :=
    pairwise_orderFragments ((hperm.map (·.order)).nodup_iff.mpr horders)
  have hfront {f : Fragment} (hf : f ∈ fs) : f.front = f.order + 1 := by
    rw [Fragment.front_of_deps_eq_nil (hdeps f hf), hposition f hf]
  have hplaced : fs.Pairwise Fragment.Ahead := horder.imp_of_mem fun {f g} hf hg hlt => by
    refine .inl ?_
    rw [hfront hf, hfront hg]
    exact Nat.succ_lt_succ hlt
  -- There is one order of the output only, as no two fragments are ahead of each other.
  rw [heq, (hmoved.trans hperm).eq_of_pairwise (fun _ _ _ _ h h' => absurd h' h.asymm) hahead
    hplaced]

/-! ### Groups -/

/-- What is written for a rule. -/
def PlainRule.item (r : PlainRule) : Item :=
  .rule r.selectors (r.declarations.map PlainRule.property)

/-- The rules of a plain stylesheet under their media queries. Rules outside media blocks
are together as long as no media block comes between them. -/
def sheetGroups : List PlainItem → List MediaGroup
  | [] => []
  | .media query rules :: rest => ⟨query, rules.map PlainRule.item⟩ :: sheetGroups rest
  | .rule r :: rest =>
    match sheetGroups rest with
    | g :: groups =>
      if g.query = [] then ⟨[], r.item :: g.items⟩ :: groups else ⟨[], [r.item]⟩ :: g :: groups
    | [] => [⟨[], [r.item]⟩]

/-- The tasks of the rules of an item. -/
def PlainItem.ruleTasks : PlainItem → List PlainTask
  | .rule r => [.rule [] r]
  | .media query rules => rules.map (.rule [query])

/-- A fragment that is written as a task says. -/
structure PlainTask.Shows (t : PlainTask) (f : Fragment) : Prop where
  selectors : f.selectors = t.selectors
  media : f.media = t.context
  properties : f.properties = t.properties
  raw : f.raw = none

theorem PlainTask.Made.shows {t : PlainTask} {f : Fragment} (h : t.Made f) : t.Shows f.rank :=
  ⟨h.selectors, h.media, h.properties, h.raw⟩

/-- The fragments that are written are those of the rules. -/
theorem forall₂_emittedOf {sheet : List PlainItem} (hsheet : ∀ i ∈ sheet, i.Proper style)
    {fs : List Fragment} (h : List.Forall₂ PlainTask.Shows (PlainTask.root sheet).walk fs) :
    List.Forall₂ PlainTask.Shows (sheet.flatMap PlainItem.ruleTasks) (emittedOf fs) := by
  have hfilter : ((PlainTask.root sheet).walk.filter fun t => !t.properties.isEmpty) =
      sheet.flatMap PlainItem.ruleTasks := by
    have hrule {r : PlainRule} (hr : r.Proper style) (queries : List Text) :
        (PlainTask.rule queries r).properties.isEmpty = false := by
      simpa [PlainTask.properties] using hr.declarations_ne_nil
    have hitem {i : PlainItem} (hi : i.Proper style) :
        ((i.task :: i.task.children).filter fun t => !t.properties.isEmpty) = i.ruleTasks := by
      cases hi with
      | rule hr => simp [PlainItem.task, PlainTask.children, PlainItem.ruleTasks, hrule hr]
      | @media query rules _ _ hrules _ =>
        have hall : ∀ t ∈ rules.map (PlainTask.rule [query]), (!t.properties.isEmpty) = true := by
          intro t ht
          obtain ⟨r, hr, rfl⟩ := List.mem_map.mp ht
          simp [hrule (hrules r hr)]
        exact List.filter_eq_self.mpr hall
    rw [PlainTask.walk, List.filter_cons_of_neg (by simp [PlainTask.properties]),
      List.filter_flatMap]
    exact List.flatMap_congr fun i hi => hitem (hsheet i hi)
  rw [← hfilter, emittedOf]
  refine List.rel_filter (fun t f hf => ?_) h
  simp [Fragment.isEmitted, hf.raw, hf.properties]

theorem key_inj {ts us : List Text} (hts : ts ≠ []) (hus : us ≠ []) (hcomma : ∀ t ∈ ts, ch ',' ∉ t)
    (hcomma' : ∀ u ∈ us, ch ',' ∉ u) (h : join [ch ','] ts = join [ch ','] us) : ts = us := by
  rw [← split_join hts hcomma, h, split_join hus hcomma']

/-- A rule does not join one with other selectors. -/
theorem push_rule {r r' : PlainRule} (hr : r.Proper style) (hr' : r'.Proper style)
    (hdiffer : r.selectors ≠ r'.selectors) {queries : List Text} {f : Fragment}
    (hf : (PlainTask.rule queries r).Shows f) (items : List Item) :
    Item.push f (r'.item :: items) = r.item :: r'.item :: items := by
  have hcomma {r : PlainRule} (hr : r.Proper style) : ∀ t ∈ r.selectors, ch ',' ∉ t :=
    fun t ht hc => ((hr.selectors_plain t ht).byte hc).2.2.1 rfl
  have hkey : join [ch ','] r'.selectors ≠ f.key := by
    rw [Fragment.key, hf.selectors]
    exact fun h => hdiffer
      (key_inj hr'.selectors_ne_nil hr.selectors_ne_nil (hcomma hr') (hcomma hr) h).symm
  unfold Item.push
  rw [hf.raw, PlainRule.item]
  dsimp only
  rw [if_neg hkey, hf.selectors, hf.properties]
  rfl

theorem push_nil {r : PlainRule} {queries : List Text} {f : Fragment}
    (hf : (PlainTask.rule queries r).Shows f) : Item.push f [] = [r.item] := by
  unfold Item.push
  rw [hf.raw]
  dsimp only
  rw [hf.selectors, hf.properties]
  rfl

theorem mediaQuery_singleton {q : Text} (hq : q ≠ []) : mediaQuery [q] = q := by
  simp [mediaQuery, hq]

/-- The rules of a media block form a group of their own. -/
theorem ofFragments_media {q : Text} (hq : q ≠ []) {rules : List PlainRule} (hne : rules ≠ [])
    (hrules : ∀ r ∈ rules, r.Proper style)
    (hdiffer : rules.IsChain fun r r' => r.selectors ≠ r'.selectors) {fs rest : List Fragment}
    (h : List.Forall₂ PlainTask.Shows (rules.map (.rule [q])) fs)
    (hrest : ∀ g ∈ (MediaGroup.ofFragments rest).head?, g.query ≠ q) :
    MediaGroup.ofFragments (fs ++ rest) =
      ⟨q, rules.map PlainRule.item⟩ :: MediaGroup.ofFragments rest := by
  -- from the last rule back: each is pushed on the group that the rules after it make
  induction rules generalizing fs with
  | nil => exact absurd rfl hne
  | cons r rules ih =>
    cases h with
    | @cons _ f _ fs hf h =>
      have hquery : mediaQuery f.media = q := by
        rw [hf.media]
        exact mediaQuery_singleton hq
      rw [List.cons_append, MediaGroup.ofFragments, hquery]
      cases rules with
      | nil =>
        cases h
        rw [List.nil_append, push_nil hf]
        cases hgroups : MediaGroup.ofFragments rest with
        | nil => rfl
        | cons g groups => exact if_neg (hrest g (by simp [hgroups]))
      | cons r' rules =>
        obtain ⟨hr, hrules⟩ := List.forall_mem_cons.mp hrules
        obtain ⟨hnext, hdiffer⟩ := List.isChain_cons_cons.mp hdiffer
        rw [ih (List.cons_ne_nil _ _) hrules hdiffer h]
        dsimp only
        rw [if_pos rfl, List.map_cons, push_rule hr (hrules r' List.mem_cons_self) hnext hf]
        rfl

theorem forall₂_append_left {α β : Type} {R : α → β → Prop} {xs xs' : List α} {ys : List β}
    (h : List.Forall₂ R (xs ++ xs') ys) :
    ∃ zs zs', ys = zs ++ zs' ∧ List.Forall₂ R xs zs ∧ List.Forall₂ R xs' zs' := by
  induction xs generalizing ys with
  | nil => exact ⟨[], ys, rfl, .nil, h⟩
  | cons x xs ih =>
    cases h with
    | @cons _ y _ ys hy h =>
      obtain ⟨zs, zs', rfl, hzs, hzs'⟩ := ih h
      exact ⟨y :: zs, zs', rfl, .cons hy hzs, hzs'⟩

/-- The first group is that of the first item. -/
theorem sheetGroups_head {sheet : List PlainItem} {g : MediaGroup}
    (hg : g ∈ (sheetGroups sheet).head?) :
    (∃ r items, .rule r ∈ sheet.head? ∧ g.query = [] ∧ g.items = r.item :: items) ∨
      ∃ rules, .media g.query rules ∈ sheet.head? := by
  cases sheet with
  | nil => exact absurd hg (by simp [sheetGroups])
  | cons i rest =>
    cases i with
    | rule r =>
      refine .inl ⟨r, ?_⟩
      unfold sheetGroups at hg
      split at hg
      · split_ifs at hg
        · obtain rfl := Option.some.inj hg
          exact ⟨_, rfl, rfl, rfl⟩
        · obtain rfl := Option.some.inj hg
          exact ⟨_, rfl, rfl, rfl⟩
      · obtain rfl := Option.some.inj hg
        exact ⟨_, rfl, rfl, rfl⟩
    | media query rules =>
      obtain rfl := Option.some.inj hg
      exact .inr ⟨rules, rfl⟩

/-- How the fragments of a plain stylesheet are grouped. -/
theorem ofFragments_eq_sheetGroups {sheet : List PlainItem} (hsheet : ProperSheet style sheet)
    {fs : List Fragment}
    (h : List.Forall₂ PlainTask.Shows (sheet.flatMap PlainItem.ruleTasks) fs) :
    MediaGroup.ofFragments fs = sheetGroups sheet := by
  -- item by item: a rule joins the group after it, or makes one, and a media block makes one
  induction sheet generalizing fs with
  | nil =>
    cases h
    rfl
  | cons i rest ih =>
    obtain ⟨hi, hitems⟩ := List.forall_mem_cons.mp hsheet.items
    obtain ⟨hnext, hapart⟩ := List.isChain_cons.mp hsheet.apart
    rw [List.flatMap_cons] at h
    obtain ⟨fs, fs', rfl, hfs, hfs'⟩ := forall₂_append_left h
    have hrest := ih ⟨hitems, hapart⟩ hfs'
    cases hi with
    | @rule r hr =>
      cases hfs with
      | @cons _ f _ _ hf hnil =>
        cases hnil
        have hquery : mediaQuery f.media = [] := by
          rw [hf.media]
          rfl
        rw [List.singleton_append, MediaGroup.ofFragments, hquery, hrest, sheetGroups, push_nil hf]
        cases hgroups : sheetGroups rest with
        | nil => rfl
        | cons g groups =>
          dsimp only
          split_ifs with hroot
          · -- a group without a query starts with another rule, since no media block has none
            rcases sheetGroups_head (hgroups ▸ List.head?_cons : g ∈ (sheetGroups rest).head?) with
              ⟨r', items, hr', -, hg⟩ | ⟨rules, hrules⟩
            · have hproper := hitems _ (List.mem_of_mem_head? hr')
              cases hproper with
              | rule hproper => rw [hg, push_rule hr hproper (hnext _ hr') hf]
            · have hproper := hitems _ (List.mem_of_mem_head? hrules)
              cases hproper with
              | media hquery => exact absurd hroot hquery.ne_nil
          · rfl
    | @media query rules hq hne hrules hdiffer =>
      rw [ofFragments_media hq.ne_nil hne hrules hdiffer hfs, hrest]
      · rfl
      · intro g hg
        rw [hrest] at hg
        rcases sheetGroups_head hg with ⟨r, items, -, hroot, -⟩ | ⟨rules', hmem⟩
        · exact fun hquery => hq.ne_nil (hquery ▸ hroot)
        · exact fun hquery => hnext _ hmem hquery.symm

/-! ### Text -/

theorem Style.line_eq (level : Nat) (t : Text) :
    style.line level t = indent style.compress level ++ t ++ lineEnd style.compress := by
  unfold Style.line indent lineEnd
  cases style.compress <;> simp

/-- Texts between line ends, the first indented and the last ended like the others. -/
theorem flatMap_eq_join {ts : List Text} (hne : ts ≠ []) (w v : Text) :
    ts.flatMap (fun t => w ++ t ++ v) = w ++ join (v ++ w) ts ++ v := by
  induction ts with
  | nil => exact absurd rfl hne
  | cons t ts ih =>
    cases ts with
    | nil => simp
    | cons u ts =>
      rw [List.flatMap_cons, ih (List.cons_ne_nil u ts), join_cons_cons]
      simp

/-- A block is written as its text on a line. -/
theorem Style.block_eq {level : Nat} {header lines content : Text}
    (h : (if style.compress then withoutEnd lines [ch ';'] else lines) =
      indent style.compress (level + 1) ++ content ++ lineEnd style.compress) :
    style.block level header lines = indent style.compress level ++
      renderBlock style.compress level header content ++ lineEnd style.compress := by
  rw [Style.block, h, line_eq, line_eq, renderBlock]
  simp [Style.space, gap]

theorem withoutEnd_concat (t : Text) (c : UInt8) : withoutEnd (t ++ [c]) [c] = t := by
  simp [withoutEnd, ends]

theorem withoutEnd_eq_self {t : Text} {c d : UInt8} (ht : t.getLast? = some d) (hcd : c ≠ d) :
    withoutEnd t [c] = t := by
  rw [withoutEnd, if_neg]
  intro h
  obtain ⟨u, rfl⟩ := List.isSuffixOf_iff_suffix.mp h
  exact hcd (Option.some.inj (List.getLast?_concat.symm.trans ht))

/-! ### Rules -/

theorem PlainDeclaration.style_declaration {d : Text × Text} (hd : PlainDeclaration style d) :
    style.declaration (PlainRule.property d) = PlainRule.declaration style.compress d := by
  simp [Style.declaration, PlainRule.property, PlainRule.declaration, hd.value_short, Style.space,
    gap]

/-- Different declarations are written differently. -/
theorem PlainDeclaration.inj {d e : Text × Text} (hd : PlainDeclaration style d)
    (he : PlainDeclaration style e) {compress : Bool}
    (h : PlainRule.declaration compress d = PlainRule.declaration compress e) : d = e := by
  have hname {d : Text × Text} (hd : PlainDeclaration style d) :
      findByte (· = ch ':') (PlainRule.declaration compress d) = some d.1.length := by
    rw [PlainRule.declaration, List.append_assoc, List.cons_append]
    refine findByte_append_cons (fun c hc => ?_) (by decide)
    have hmark := hd.name_mark hc
    simp only [List.mem_cons, not_or] at hmark
    simp [hmark.1]
  have hlength : d.1.length = e.1.length := Option.some.inj (by rw [← hname hd, h, hname he])
  simp only [PlainRule.declaration, List.append_assoc, List.cons_append] at h
  obtain ⟨hfst, hrest⟩ := List.append_inj h hlength
  exact Prod.ext hfst (List.append_cancel_left (List.cons.inj hrest).2)

/-- Declarations without a mark are written one on a line, except repeated ones. -/
theorem lines_eq {ds : List (Text × Text)} (hds : ∀ d ∈ ds, PlainDeclaration style d)
    (hdiffer : ds.IsChain (· ≠ ·)) {seen : List Text} {last : Text}
    (hlast : ∀ d ∈ ds.head?, PlainRule.declaration style.compress d ≠ last) :
    style.lines seen last (ds.map PlainRule.property) =
      ds.map (PlainRule.declaration style.compress) := by
  induction ds generalizing seen last with
  | nil => rfl
  | cons d ds ih =>
    obtain ⟨hd, hds⟩ := List.forall_mem_cons.mp hds
    obtain ⟨hnext, hdiffer⟩ := List.isChain_cons.mp hdiffer
    have hmark : has (PlainRule.declaration style.compress d) (of "!default") = false := by
      refine Bool.eq_false_iff.mpr fun h => ?_
      have hc := (has_iff.mp h).subset (show ch '!' ∈ of "!default" by decide)
      exact absurd (hd.declaration_byte hc) (by decide)
    rw [List.map_cons, List.map_cons, Style.lines, hd.style_declaration, hmark, Bool.false_and,
      Bool.false_or, if_neg Bool.false_ne_true, if_neg (by simpa using hlast d rfl)]
    refine congrArg (_ :: ·) (ih hds hdiffer fun e he => ?_)
    exact fun h => hnext e he (hds e (List.mem_of_mem_head? he) |>.inj hd h).symm

/-- The declarations of a rule are written as its content. -/
theorem PlainRule.Proper.declarations_eq {r : PlainRule} (hr : r.Proper style) (level : Nat) :
    style.declarations level (r.declarations.map PlainRule.property) =
      indent style.compress level ++
        join (ch ';' :: lineEnd style.compress ++ indent style.compress level)
          (r.declarations.map (PlainRule.declaration style.compress)) ++
        ch ';' :: lineEnd style.compress := by
  have hne : r.declarations.map (PlainRule.declaration style.compress) ≠ [] := by
    simpa using hr.declarations_ne_nil
  have hlast : ∀ d ∈ r.declarations.head?, PlainRule.declaration style.compress d ≠ [] := by
    intro d hd hnil
    exact absurd hnil (by simp [PlainRule.declaration])
  have hjoin := flatMap_eq_join hne (indent style.compress level) (ch ';' :: lineEnd style.compress)
  rw [Style.declarations, lines_eq hr.declarations_plain hr.declarations_differ hlast, ← hjoin]
  refine List.flatMap_congr fun t _ => ?_
  rw [Style.line_eq]
  simp

/-- A rule is written as its text on lines. -/
theorem PlainRule.Proper.item_eq {r : PlainRule} (hr : r.Proper style) (level : Nat) :
    style.item level r.item = indent style.compress level ++ r.render style.compress level ++
      lineEnd style.compress := by
  have hkey : (join [ch ','] r.selectors).isEmpty = false := by
    obtain ⟨s, rest, hsplit⟩ := List.exists_cons_of_ne_nil hr.selectors_ne_nil
    simp [hsplit, join_cons, (hr.selectors_plain s (by simp [hsplit])).ne_nil]
  rw [PlainRule.item, Style.item, hkey, if_neg Bool.false_ne_true, hr.declarations_eq]
  refine Style.block_eq ?_
  unfold content
  cases style.compress with
  | true => simp [indent, lineEnd, withoutEnd_concat]
  | false => simp

/-! ### The whole -/

/-- A media block is written as its text on lines. -/
theorem group_media {q : Text} (hq : q ≠ []) {rules : List PlainRule} (hne : rules ≠ [])
    (hrules : ∀ r ∈ rules, r.Proper style) :
    style.group ⟨q, rules.map PlainRule.item⟩ =
      (PlainItem.media q rules).render style.compress ++ lineEnd style.compress := by
  have hitems : (rules.map PlainRule.item).flatMap (style.item 1) =
      indent style.compress 1 ++ renderRules style.compress rules ++ lineEnd style.compress := by
    have hmap : rules.map (PlainRule.render style.compress 1) ≠ [] := by simpa using hne
    have hjoin := flatMap_eq_join hmap (indent style.compress 1) (lineEnd style.compress)
    rw [renderRules, ← hjoin, List.flatMap_map, List.flatMap_map]
    exact List.flatMap_congr fun r hr => (hrules r hr).item_eq 1
  have hlines : (if style.compress then
        withoutEnd ((rules.map PlainRule.item).flatMap (style.item 1)) [ch ';']
      else (rules.map PlainRule.item).flatMap (style.item 1)) =
      indent style.compress 1 ++ renderRules style.compress rules ++ lineEnd style.compress := by
    rw [hitems]
    cases style.compress with
    | true =>
      have hlast := getLast?_renderRules true hne
      simpa [indent, lineEnd] using withoutEnd_eq_self hlast (by decide)
    | false => rfl
  rw [Style.group, if_neg (by simpa using hq), Style.block_eq hlines]
  simp [indent, PlainItem.render]

/-- The groups of a plain stylesheet are written as its text. -/
theorem flatMap_group_sheetGroups {sheet : List PlainItem} (hsheet : ∀ i ∈ sheet, i.Proper style) :
    (sheetGroups sheet).flatMap style.group = renderSheet style.compress sheet := by
  induction sheet with
  | nil => rfl
  | cons i rest ih =>
    obtain ⟨hi, hrest⟩ := List.forall_mem_cons.mp hsheet
    rw [renderSheet, List.flatMap_cons, ← renderSheet, ← ih hrest]
    cases hi with
    | @rule r hr =>
      have hitem : style.item 0 r.item = r.render style.compress 0 ++ lineEnd style.compress := by
        rw [hr.item_eq]
        simp [indent]
      rw [PlainItem.render, ← hitem, sheetGroups]
      cases sheetGroups rest with
      | nil => simp [Style.group]
      | cons g groups =>
        dsimp only
        split_ifs with hroot
        · simp [Style.group, hroot]
        · simp [Style.group]
    | @media query rules hq hne hrules _ =>
      rw [sheetGroups, List.flatMap_cons, group_media hq.ne_nil hne hrules]

/-- Printing the fragments of a plain stylesheet gives its text. -/
theorem print_eq_renderSheet {sheet : List PlainItem} (hsheet : ProperSheet style sheet)
    {fs : List Fragment} (h : List.Forall₂ PlainTask.Shows (PlainTask.root sheet).walk fs) :
    style.print fs = renderSheet style.compress sheet := by
  rw [Style.print, ofFragments_eq_sheetGroups hsheet (forall₂_emittedOf hsheet.items h)]
  exact flatMap_group_sheetGroups hsheet.items

end Stylesheet
