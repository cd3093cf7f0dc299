import Stylesheet.Proofs.Compile.Coupling
import Stylesheet.Proofs.Plain.Blocks

/-!
# Plain stylesheets expanded

Expanding a plain stylesheet gives one fragment for each of its rules, with the selectors
and declarations of the rule, and one without declarations for each media block. Nothing
is evaluated and nothing reported on the way.

## Main definitions

* `PlainTask` — what a fragment of a plain stylesheet stands for
* `PlainTask.Waits`, `PlainTask.Made` — a fragment before and after it is expanded

## Main results

* `block_declaration`, `block_rule`, `block_media` — what the blocks of a plain stylesheet do
* `PlainTask.expandPending_waits` — expanding one fragment
* `PlainTask.drain_waits` — expanding all
-/

namespace Stylesheet

open Text

variable {compress : Bool} {style : Style} {en : Engine} {opts : Options} {frame : Frame}

/-! ### Texts without anything to evaluate -/

/-- A text without braces is one segment. -/
theorem segments_eq {t : Text} (ht : ch '\x7b' ∉ t) : segments t = [.text t] := by
  have h (part : Text) : segmentsFrom 0 part t = [.text (part.reverse ++ t)] := by
    induction t generalizing part with
    | nil => simp [segmentsFrom]
    | cons c r ih =>
      have hr : ch '\x7b' ∉ r := fun h => ht (List.mem_cons_of_mem c h)
      have hhead : head0 r ≠ ch '\x7b' := by
        cases r with
        | nil => decide
        | cons d r => exact fun h => hr (h ▸ List.mem_cons_self)
      rw [segmentsFrom, if_neg (by simp [hhead]), ih hr]
      simp
  exact h []

/-- A text without dollar signs has no references. -/
theorem substitute_eq {t : Text} (ht : ch '$' ∉ t) (vars : Context) (shown : Value → Text) :
    substitute vars shown t = t := by
  rw [substitute]
  induction t with
  | nil => rfl
  | cons c r ih =>
    have hc : c ≠ ch '$' := fun h => ht (h ▸ List.mem_cons_self)
    have hvar : leadingVar? (c :: r) = none := by simp [leadingVar?, hc]
    rw [substituteFrom, hvar]
    exact congrArg (c :: ·) (ih fun h => ht (List.mem_cons_of_mem c h))

namespace Engine

theorem interpolate_eq {t : Text} (ht : ch '\x7b' ∉ t) (scope : Scope) :
    en.interpolate scope t = pure t := by
  rw [interpolate, segments_eq ht]
  simp [segmentText]

theorem textIn_eq {t : Text} (hbrace : ch '\x7b' ∉ t) (hdollar : ch '$' ∉ t) :
    en.textIn frame t = pure t := by
  have hresolve (scope : Scope) : en.resolveText scope t = pure t := by
    rw [resolveText, interpolate_eq hbrace, pure_bind, substitute_eq hdollar]
  rw [textIn]
  simp only [hresolve]
  rfl

end Engine

/-- A plain text has itself for a value. -/
theorem valueIn_engine {t : Text} (htrim : trim t = t) (hplain : isPlain t = true) (fuel : Nat) :
    (engine opts (fuel + 1)).valueIn frame t = pure (.plain t) := by
  have hbrace : ch '\x7b' ∉ t := by
    intro h
    simp only [isPlain, Bool.and_eq_true, List.all_eq_true] at hplain
    exact absurd (hplain.1.1 _ h) (by decide)
  have hvalue (scope : Scope) :
      (engine opts (fuel + 1)).evaluate scope t = pure (.plain t, true) := by
    change (engine opts fuel).evaluateWith opts scope t = _
    rw [Engine.evaluateWith, htrim, Engine.interpolate_eq hbrace, pure_bind, if_pos hplain]
  simp only [Engine.valueIn, Engine.calculate, hvalue]
  rfl

/-! ### Blocks -/

/-- The property that a declaration emits. -/
def PlainRule.property (d : Text × Text) : Property := ⟨d.1, some d.2⟩

theorem expandShorthand_eq {header : Text} (h : head0 header ∉ [ch '+', ch '=']) :
    expandShorthand header = header := by
  cases header with
  | nil => rfl
  | cons c r =>
    obtain ⟨hplus, hequals⟩ : c ≠ ch '+' ∧ c ≠ ch '=' := by simpa [head0] using h
    rw [expandShorthand, if_neg hplus, if_neg hequals]

theorem starts_singleton_eq_false {t : Text} {c : UInt8} (h : head0 t ≠ c) :
    starts t [c] = false := by
  cases t with
  | nil => rfl
  | cons d r =>
    have hc : c ≠ d := Ne.symm h
    simp [starts, List.isPrefixOf, hc]

theorem findByte_append_cons {p : UInt8 → Bool} {t u : Text} {c : UInt8}
    (ht : ∀ d ∈ t, p d = false) (hc : p c = true) : findByte p (t ++ c :: u) = some t.length := by
  induction t with
  | nil => simp [findByte, List.findIdx?_cons, hc]
  | cons d r ih =>
    have hr := ih fun e he => ht e (List.mem_cons_of_mem d he)
    rw [findByte] at hr ⊢
    simp [List.findIdx?_cons, ht d List.mem_cons_self, hr]

theorem head0_mem {t : Text} (ht : t ≠ []) : head0 t ∈ t := by
  obtain ⟨c, r, rfl⟩ := List.exists_cons_of_ne_nil ht
  exact List.mem_cons_self

/-- A byte of a property name is none that divides a declaration or starts another. -/
theorem PlainDeclaration.name_mark {d : Text × Text} (hd : PlainDeclaration style d) {c : UInt8}
    (hc : c ∈ d.1) : c ∉ [ch ':', ch '=', ch '$', ch '+', ch '@', ch '\x7b'] := by
  intro hmark
  rcases hd.name_bytes c hc with ⟨hfirst, hlast⟩ | rfl
  · simp only [List.mem_cons, List.not_mem_nil, or_false] at hmark
    rcases hmark with rfl | rfl | rfl | rfl | rfl | rfl
    iterate 5 exact absurd hfirst (by decide)
    exact absurd hlast (by decide)
  · exact absurd hmark (by decide)

/-- A block in which declarations are emitted and rules spawned. -/
structure Frame.IsOpen (frame : Frame) : Prop where
  stem : frame.stem = []
  binds : frame.binds = false
  spawns : frame.spawns = true

/-- A name, a colon and a value make a property, if no byte of the name says anything else. -/
theorem Engine.declaration_property (hframe : frame.IsOpen) {name : Text} (hne : name ≠ [])
    (htrim : trim name = name) (hname : ∀ c ∈ name, c ∉ [ch ':', ch '=', ch '$', ch '\x7b'])
    (rest : Text) :
    en.declaration frame (name ++ ch ':' :: rest) = (do
      emit ⟨name, some (← en.valueIn frame (trim rest)).text⟩) := by
  have hcolon : findByte (fun c => c = ch ':' || c = ch '=') (name ++ ch ':' :: rest) =
      some name.length := by
    refine findByte_append_cons (fun c hc => ?_) (by decide)
    have hmark := hname c hc
    simp only [List.mem_cons, not_or] at hmark
    simp [hmark.1, hmark.2.1]
  have hdrop : (name ++ ch ':' :: rest).drop (name.length + 1) = rest := by simp
  have hat : at0 (name ++ ch ':' :: rest) name.length ≠ ch '=' := by
    simp [at0]
    decide
  have hdollar : starts name [ch '$'] = false :=
    starts_singleton_eq_false fun h => hname _ (head0_mem hne) (by simp [h])
  rw [Engine.declaration, hcolon]
  dsimp only
  rw [List.take_left, hdrop, htrim, if_neg (by simpa using hne),
    if_neg (by simp [hat, hdollar, hframe.binds]), hframe.stem, List.nil_append,
    Engine.textIn_eq (fun h => hname _ h (by simp)) (fun h => hname _ h (by simp)), pure_bind,
    htrim]

/-- A declaration emits its property. -/
theorem declaration_engine {d : Text × Text} (hd : PlainDeclaration style d)
    (hframe : frame.IsOpen) (fuel : Nat) :
    (engine opts (fuel + 1)).declaration frame (PlainRule.declaration compress d) =
      emit (PlainRule.property d) := by
  have hvalue : trim (gap compress ++ d.2) = d.2 := by
    have htrim := hd.snug_value.trim_pad (w := gap compress) (v := [])
      (fun c hc => eq_space_of_mem_gap hc ▸ rfl) (List.forall_mem_nil _)
    rwa [List.append_nil] at htrim
  have hname (c : UInt8) (hc : c ∈ d.1) : c ∉ [ch ':', ch '=', ch '$', ch '\x7b'] := by
    have hmark := hd.name_mark hc
    simp only [List.mem_cons, not_or] at hmark ⊢
    tauto
  rw [PlainRule.declaration, List.append_assoc, List.cons_append,
    Engine.declaration_property hframe hd.name_ne_nil hd.snug_name.trim_eq hname, hvalue,
    valueIn_engine hd.value_trimmed hd.value_plain, pure_bind]
  rfl

theorem block_declaration {d : Text × Text} (hd : PlainDeclaration style d) {b : Block}
    (hb : DeclarationFound compress d b) (hframe : frame.IsOpen) (prev : Branch) (fuel : Nat) :
    (engine opts (fuel + 1)).block opts frame prev b =
      (do emit (PlainRule.property d); return (.done, .none)) := by
  have hhead : head0 (PlainRule.declaration compress d) ∈ d.1 := by
    obtain ⟨c, r, hsplit⟩ := List.exists_cons_of_ne_nil hd.name_ne_nil
    simp [PlainRule.declaration, hsplit, head0]
  have hmark := hd.name_mark hhead
  simp only [List.mem_cons, not_or] at hmark
  rw [Engine.block, hb.1, hb.2, expandShorthand_eq (by simp [hmark]),
    starts_singleton_eq_false hmark.2.2.2.2.1, if_neg Bool.false_ne_true]
  dsimp only
  rw [declaration_engine hd hframe]

/-- The selectors of a header, each with the space before it. -/
theorem PlainRule.Proper.split_header {r : PlainRule} (hr : r.Proper style) {s : Text}
    {rest : List Text} (hsplit : r.selectors = s :: rest) :
    split (ch ',') (r.header compress) = s :: rest.map (gap compress ++ ·) := by
  have hjoin : r.header compress = join [ch ','] (s :: rest.map (gap compress ++ ·)) := by
    rw [header, hsplit, join_cons, join_cons, List.flatMap_map]
    simp
  have hcomma {t : Text} (ht : t ∈ r.selectors) : ch ',' ∉ t :=
    fun hc => ((hr.selectors_plain t ht).byte hc).2.2.1 rfl
  rw [hjoin]
  refine split_join (by simp) fun t ht => ?_
  rcases List.mem_cons.mp ht with rfl | ht
  · exact hcomma (by simp [hsplit])
  · obtain ⟨u, hu, rfl⟩ := List.mem_map.mp ht
    have hgap : ch ',' ∉ gap compress := fun hc => absurd (eq_space_of_mem_gap hc) (by decide)
    simp [hgap, hcomma (t := u) (by simp [hsplit, hu])]

/-- The header of a rule is read back as its selectors. -/
theorem PlainRule.Proper.parseSelectors_header {r : PlainRule} (hr : r.Proper style)
    (hextends : has (r.header compress) (of " extends ") = false) :
    parseSelectors (r.header compress) = (r.selectors, []) := by
  have hfind : find (of " extends ") (r.header compress) = none := by
    simpa [has] using hextends
  obtain ⟨s, rest, hsplit⟩ := List.exists_cons_of_ne_nil hr.selectors_ne_nil
  have hcollapse {t : Text} (ht : t ∈ r.selectors) : collapse (gap compress ++ t) = t := by
    have hself := (hr.selectors_plain t ht).collapsed
    cases compress with
    | true => exact hself
    | false => exact (collapse_space_cons t).trans hself
  have hmap : (split (ch ',') (r.header compress)).map collapse = r.selectors := by
    have hs := (hr.selectors_plain s (by simp [hsplit])).collapsed
    have hrest : rest.map (collapse ∘ (gap compress ++ ·)) = rest := by
      conv_rhs => rw [← List.map_id rest]
      exact List.map_congr_left fun t ht => hcollapse (by simp [hsplit, ht])
    rw [hr.split_header hsplit, hsplit, List.map_cons, hs, List.map_map, hrest]
  have hfilter : (r.selectors.filter fun s => !s.isEmpty) = r.selectors :=
    List.filter_eq_self.mpr fun t ht => by simpa using (hr.selectors_plain t ht).ne_nil
  rw [parseSelectors, splitExtends, hfind]
  dsimp only
  rw [hmap, hfilter, sortUnique_eq_self hr.selectors_sorted hr.selectors_nodup]
  rfl

/-- At the top level selectors stand for themselves. -/
theorem PlainRule.Proper.nestSelectors_root {r : PlainRule} (hr : r.Proper style) :
    nestSelectors [[]] r.selectors = r.selectors := by
  have hnest : r.selectors.map (nestSelector []) = r.selectors := by
    conv_rhs => rw [← List.map_id r.selectors]
    refine List.map_congr_left fun s hs => ?_
    have hand : hasByte s (ch '&') = false := by
      simpa [hasByte] using fun c hc => ((hr.selectors_plain s hs).byte hc).2.2.2.1
    simp [nestSelector, hand]
  rw [nestSelectors]
  simp [hnest, sortUnique_eq_self hr.selectors_sorted hr.selectors_nodup]

theorem PlainRule.Proper.header_ne_self {r : PlainRule} (hr : r.Proper style) :
    r.header compress ≠ of "self" := by
  intro h
  obtain ⟨s, rest, hsplit⟩ := List.exists_cons_of_ne_nil hr.selectors_ne_nil
  have hself : [of "self"] = s :: rest.map (gap compress ++ ·) := by
    rw [← hr.split_header hsplit, h]
    rfl
  obtain ⟨rfl, hrest⟩ := List.cons.inj hself
  refine hr.not_self ?_
  rw [hsplit, List.map_eq_nil_iff.mp hrest.symm]

/-- The rules of a rule or media block. -/
def PlainItem.rules : PlainItem → List PlainRule
  | .rule r => [r]
  | .media _ rules => rules

/-- A rule whose header, as written, does not extend anything. -/
def PlainRule.NoExtends (compress : Bool) (r : PlainRule) : Prop :=
  has (r.header compress) (of " extends ") = false

/-- The fragment for a rule. -/
def PlainRule.spawned (compress : Bool) (level : Nat) (r : PlainRule) (p : Pending) : Pending :=
  { p with code := r.content compress (level + 1), selectors := r.selectors, parents := [] }

/-- The fragment for a rule or media block. -/
def PlainItem.spawned (compress : Bool) (i : PlainItem) (p : Pending) : Pending :=
  match i with
  | .rule r => r.spawned compress 0 p
  | .media query rules =>
    { p with code := renderRules compress rules, media := p.media ++ [query] }

/-- A rule spawns a fragment with its selectors. -/
theorem block_rule {r : PlainRule} (hr : r.Proper style)
    (hextends : r.NoExtends compress) {level : Nat} {b : Block}
    (hb : r.Found compress level b) (hframe : frame.IsOpen) (hselectors : frame.selectors = [[]])
    (prev : Branch) : en.block opts frame prev b =
      (do spawn frame (r.spawned compress level); return (.done, .none)) := by
  have hhead : head0 (r.header compress) ∉ [ch '@', ch '+', ch '='] := hr.head0_header
  simp only [List.mem_cons, List.not_mem_nil, or_false, not_or] at hhead
  have hends : ends (r.header compress) [ch ':'] = false := by
    refine Bool.eq_false_iff.mpr fun h => ?_
    obtain ⟨t, ht⟩ := List.isSuffixOf_iff_suffix.mp h
    exact hr.header_ne_concat (by simp) t ht.symm
  have htext : en.textIn frame (r.header compress) = pure (r.header compress) :=
    Engine.textIn_eq (fun hc => (hr.header_byte hc).1.opening rfl)
      (fun hc => (hr.header_byte hc).2.2.1 rfl)
  have hnest : en.nest frame (r.header compress) (r.content compress (level + 1)) =
      (do spawn frame (r.spawned compress level); return .done) := by
    rw [Engine.nest, hr.snug_header.trim_eq, if_neg hr.header_ne_self,
      if_neg (by simp [hframe.spawns]), htext, pure_bind, hr.parseSelectors_header hextends]
    dsimp only
    rw [if_pos (by simpa using hr.selectors_ne_nil), hselectors, hr.nestSelectors_root]
    rfl
  rw [Engine.block, hb.1, hb.2, expandShorthand_eq (by simp [hhead]),
    starts_singleton_eq_false hhead.1, if_neg Bool.false_ne_true]
  dsimp only
  rw [hends, if_neg Bool.false_ne_true, hframe.stem, if_pos List.isEmpty_nil, hnest]
  simp only [bind_assoc, pure_bind]

theorem splitDirective_media {q : Text} (hq : PlainQuery q) :
    splitDirective (of "@media " ++ q) = (of "@media", q) := by
  have hheader : of "@media " ++ q = of "@media" ++ ch ' ' :: q := rfl
  have hspace : findByte isSpace (of "@media" ++ ch ' ' :: q) = some 6 :=
    findByte_append_cons (by decide) (by decide)
  have hlower : lower (of "@media") = of "@media" := by decide
  rw [splitDirective, hq.snug_header.trim_eq, hheader, hspace]
  exact Prod.ext hlower hq.snug.trim_eq

/-- A media block spawns a fragment under its query. -/
theorem block_media {q : Text} (hq : PlainQuery q) {rules : List PlainRule} {b : Block}
    (hb : (PlainItem.media q rules).Found compress b) (hframe : frame.IsOpen) (prev : Branch) :
    en.block opts frame prev b =
      (do spawn frame ((PlainItem.media q rules).spawned compress); return (.done, .none)) := by
  have hhead : head0 (of "@media " ++ q) = ch '@' := rfl
  have htext : en.textIn frame q = pure q := by
    refine Engine.textIn_eq (fun hc => ?_) fun hc => (hq.byte hc).2.2.1 rfl
    exact absurd (hq.byte hc).1 (by decide)
  have hmedia : en.media frame q (renderRules compress rules) =
      spawn frame ((PlainItem.media q rules).spawned compress) := by
    rw [Engine.media, if_pos hframe.spawns, htext, pure_bind, hq.collapsed]
    rfl
  have hline : en.lineDirective? opts frame (of "@media") q = none := rfl
  rw [Engine.block, hb.1, hb.2, expandShorthand_eq (by rw [hhead]; decide)]
  have hstarts : starts (of "@media " ++ q) [ch '@'] = true := rfl
  dsimp only
  rw [if_pos hstarts, Engine.directive, splitDirective_media hq]
  dsimp only
  rw [hline]
  dsimp only
  rw [← hmedia]
  rfl

theorem PlainItem.Proper.block_spawns {i : PlainItem} (hi : i.Proper style)
    (hextends : ∀ r ∈ i.rules, r.NoExtends compress) {b : Block} (hb : i.Found compress b)
    (hframe : frame.IsOpen) (hselectors : frame.selectors = [[]]) (prev : Branch) :
    en.block opts frame prev b = (do spawn frame (i.spawned compress); return (.done, .none)) := by
  cases hi with
  | rule hr => exact block_rule hr (hextends _ List.mem_cons_self) hb hframe hselectors prev
  | media hquery _ _ _ => exact block_media hquery hb hframe prev

/-- Blocks that each do one thing do these in order. -/
theorem blocks_forall₂ {α : Type} {Found : α → Block → Prop} {act : α → ExpandM Unit} {xs : List α}
    {found : List Block} (h : List.Forall₂ Found xs found)
    (hblock : ∀ x ∈ xs, ∀ b, Found x b → ∀ prev,
      en.block opts frame prev b = (do act x; return (.done, .none))) (prev : Branch) :
    en.blocks opts frame none prev found = (do xs.forM act; return .done) := by
  induction h generalizing prev with
  | nil => simp [Engine.blocks]
  | cons hb _ ih =>
    rw [Engine.blocks, hblock _ List.mem_cons_self _ hb]
    simp only [bind_assoc, pure_bind, List.forM]
    rw [ih fun x hx => hblock x (List.mem_cons_of_mem _ hx)]

/-- Emitting properties adds them to the fragment. -/
theorem outcome_forM_emit {α : Type} (property : α → Property) (xs : List α) (l : Locals)
    (s : Session) : outcome ((xs.forM fun x => emit (property x)).run l) s =
      (.ok ((), { l with properties := l.properties ++ xs.map property }), s) := by
  induction xs generalizing l with
  | nil => simp [List.forM]
  | cons x xs ih =>
    have hemit : outcome ((emit (property x)).run l) s =
        (.ok ((), { l with properties := l.properties ++ [property x] }), s) := rfl
    rw [List.forM, outcome_run_bind hemit, ih]
    simp

/-- Expanding a text of declarations emits their properties. -/
theorem expandWith_emits {α : Type} {Found : α → Block → Prop} {property : α → Property}
    {xs : List α} {found : List Block} {t : Text} (hlocate : locate t = (found, none))
    (hfound : List.Forall₂ Found xs found)
    (hblock : ∀ x ∈ xs, ∀ b, Found x b → ∀ prev,
      en.block opts frame prev b = (do emit (property x); return (.done, .none)))
    (l : Locals) (s : Session) : outcome ((en.expandWith opts frame t).run l) s =
      (.ok (.done, { l with properties := l.properties ++ xs.map property }), s) := by
  rw [Engine.expandWith, hlocate]
  dsimp only
  rw [blocks_forall₂ hfound hblock, outcome_run_bind (outcome_forM_emit property xs l s)]
  rfl

/-- The fragment spawned in a block before it is given its text. -/
def Frame.child (frame : Frame) (l : Locals) (id : Nat) : Pending where
  id := id
  file := frame.file
  dir := frame.dir
  selectors := frame.selectors
  media := frame.media
  context := l.vars
  registry := l.registry

/-- Spawning fragments adds them to the children. -/
theorem outcome_forM_spawn {α : Type} (make : α → Pending → Pending) (xs : List α) (l : Locals)
    (s : Session) : ∃ children n,
      outcome ((xs.forM fun x => spawn frame (make x)).run l) s =
        (.ok ((), { l with children := l.children ++ children }), { s with nextId := n }) ∧
      List.Forall₂ (fun x p => ∃ id, p = make x (frame.child l id)) xs children := by
  induction xs generalizing l s with
  | nil => exact ⟨[], s.nextId, by simp [List.forM], .nil⟩
  | cons x xs ih =>
    have hspawn : outcome ((spawn frame (make x)).run l) s =
        (.ok ((), { l with children := l.children ++ [make x (frame.child l s.nextId)] }),
          { s with nextId := s.nextId + 1 }) := rfl
    obtain ⟨children, n, hrest, hchildren⟩ := ih
      { l with children := l.children ++ [make x (frame.child l s.nextId)] }
      { s with nextId := s.nextId + 1 }
    refine ⟨make x (frame.child l s.nextId) :: children, n, ?_, .cons ⟨_, rfl⟩ hchildren⟩
    rw [List.forM, outcome_run_bind hspawn, hrest]
    simp

/-- Expanding a text of rules and media blocks spawns their fragments. -/
theorem expandWith_spawns {α : Type} {Found : α → Block → Prop} {make : α → Pending → Pending}
    {xs : List α} {found : List Block} {t : Text} (hlocate : locate t = (found, none))
    (hfound : List.Forall₂ Found xs found)
    (hblock : ∀ x ∈ xs, ∀ b, Found x b → ∀ prev,
      en.block opts frame prev b = (do spawn frame (make x); return (.done, .none)))
    (l : Locals) (s : Session) : ∃ children n,
      outcome ((en.expandWith opts frame t).run l) s =
        (.ok (.done, { l with children := l.children ++ children }), { s with nextId := n }) ∧
      List.Forall₂ (fun x p => ∃ id, p = make x (frame.child l id)) xs children := by
  obtain ⟨children, n, hspawn, hchildren⟩ := outcome_forM_spawn make xs l s
  refine ⟨children, n, ?_, hchildren⟩
  rw [Engine.expandWith, hlocate]
  dsimp only
  rw [blocks_forall₂ hfound hblock, outcome_run_bind hspawn]
  rfl

/-! ### Fragments -/

/-- What a fragment of a plain stylesheet stands for: a rule in a media context, a media
block, or the whole. -/
inductive PlainTask where
  | rule (queries : List Text) (r : PlainRule)
  | media (query : Text) (rules : List PlainRule)
  | root (sheet : List PlainItem)

/-- The task of a rule or media block at the top level. -/
def PlainItem.task : PlainItem → PlainTask
  | .rule r => .rule [] r
  | .media query rules => .media query rules

namespace PlainTask

/-- The text to expand. -/
def code (compress : Bool) : PlainTask → Text
  | .rule queries r => r.content compress (queries.length + 1)
  | .media _ rules => renderRules compress rules
  | .root sheet => renderSheet compress sheet

/-- The selectors of the fragment; those of the root are one empty selector. -/
def selectors : PlainTask → List Text
  | .rule _ r => r.selectors
  | .media _ _ => [[]]
  | .root _ => [[]]

/-- The media context of the fragment. -/
def context : PlainTask → List Text
  | .rule queries _ => queries
  | .media query _ => [query]
  | .root _ => []

/-- The declarations of the fragment. -/
def properties : PlainTask → List Property
  | .rule _ r => r.declarations.map PlainRule.property
  | .media _ _ => []
  | .root _ => []

/-- The tasks that a task leads to. -/
def children : PlainTask → List PlainTask
  | .rule _ _ => []
  | .media query rules => rules.map (.rule [query])
  | .root sheet => sheet.map PlainItem.task

/-- A task and all that it leads to, in the order of the text. -/
def walk : PlainTask → List PlainTask
  | .root sheet => .root sheet :: sheet.flatMap fun i => i.task :: i.task.children
  | t => t :: t.children

theorem walk_eq (t : PlainTask) : t.walk = t :: t.children.flatMap walk := by
  cases t with
  | rule queries r => rfl
  | media query rules =>
    have hrule : (fun r => walk (.rule [query] r)) = fun r => [.rule [query] r] := rfl
    rw [walk, children, List.flatMap_map, hrule, ← List.map_eq_flatMap]
    exact nofun
  | root sheet =>
    have hitem (i : PlainItem) : walk i.task = i.task :: i.task.children := by cases i <;> rfl
    rw [walk, children, List.flatMap_map]
    simp only [hitem]

/-- A task that is written plainly. -/
inductive Proper (style : Style) (compress : Bool) : PlainTask → Prop
  | rule {queries : List Text} {r : PlainRule} (hr : r.Proper style) :
      Proper style compress (.rule queries r)
  | media {query : Text} {rules : List PlainRule}
      (hitem : (PlainItem.media query rules).Proper style)
      (hextends : ∀ r ∈ rules, r.NoExtends compress) : Proper style compress (.media query rules)
  | root {sheet : List PlainItem} (hsheet : ∀ i ∈ sheet, i.Proper style)
      (hextends : ∀ i ∈ sheet, ∀ r ∈ i.rules, r.NoExtends compress) :
      Proper style compress (.root sheet)

/-- A fragment that waits to be expanded for a task. -/
structure Waits (compress : Bool) (t : PlainTask) (p : Pending) : Prop where
  code : p.code = t.code compress
  selectors : p.selectors = t.selectors
  parents : p.parents = []
  media : p.media = t.context
  raw : p.raw = none

/-- The fragment that a task gives. -/
structure Made (t : PlainTask) (f : Fragment) : Prop where
  selectors : f.selectors = t.selectors
  parents : f.parents = []
  media : f.media = t.context
  properties : f.properties = t.properties
  raw : f.raw = none
  deps : f.deps = []
  position : f.position = f.order

theorem Proper.children {t : PlainTask} (ht : t.Proper style compress) :
    ∀ c ∈ t.children, c.Proper style compress := by
  intro c hc
  cases ht with
  | rule hr => exact absurd hc List.not_mem_nil
  | @media query rules hitem hextends =>
    obtain ⟨r, hr, rfl⟩ := List.mem_map.mp hc
    cases hitem with
    | media _ _ hrules _ => exact .rule (hrules r hr)
  | @root sheet hsheet hextends =>
    obtain ⟨i, hi, rfl⟩ := List.mem_map.mp hc
    have hitem := hsheet i hi
    cases i with
    | rule r =>
      cases hitem with
      | rule hr => exact .rule hr
    | media query rules => exact .media hitem (hextends _ hi)

/-- What expanding the text of a task does. -/
theorem Proper.expandWith {t : PlainTask} (ht : t.Proper style compress) (hframe : frame.IsOpen)
    (hselectors : frame.selectors = t.selectors) (hmedia : frame.media = t.context) (fuel : Nat)
    (l : Locals) (s : Session) :
    ∃ children n,
      outcome (((engine opts (fuel + 1)).expandWith opts frame (t.code compress)).run l) s =
        (.ok (.done, { l with
          properties := l.properties ++ t.properties, children := l.children ++ children }),
          { s with nextId := n }) ∧
      List.Forall₂ (Waits compress) t.children children := by
  cases ht with
  | @rule queries r hr =>
    obtain ⟨found, hfound, hlocate⟩ :
        ∃ found, List.Forall₂ (DeclarationFound compress) r.declarations found ∧
          locate (r.content compress (queries.length + 1)) = (found, none) :=
      hr.locate_content _
    -- declarations spawn nothing
    refine ⟨[], s.nextId, ?_, .nil⟩
    rw [List.append_nil]
    exact expandWith_emits hlocate hfound (fun d hd b hb prev =>
      block_declaration (hr.declarations_plain d hd) hb hframe prev fuel) l s
  | @media query rules hitem hextends =>
    cases hitem with
    | media _ _ hrules _ =>
      obtain ⟨found, hfound, hlocate⟩ :
          ∃ found, List.Forall₂ (PlainRule.Found compress 1) rules found ∧
            locate (renderRules compress rules) = (found, none) :=
        locate_renderRules hrules
      obtain ⟨children, n, hexpand, hchildren⟩ := expandWith_spawns hlocate hfound
        (fun r hr b hb prev => block_rule (hrules r hr) (hextends r hr) hb hframe hselectors prev)
        l s
      refine ⟨children, n, ?_, ?_⟩
      · rw [properties, List.append_nil]
        exact hexpand
      · rw [PlainTask.children, List.forall₂_map_left_iff]
        exact hchildren.imp fun r p ⟨id, hp⟩ => hp ▸ ⟨rfl, rfl, rfl, hmedia, rfl⟩
  | @root sheet hsheet hextends =>
    obtain ⟨found, hfound, hlocate⟩ :
        ∃ found, List.Forall₂ (PlainItem.Found compress) sheet found ∧
          locate (renderSheet compress sheet) = (found, none) :=
      locate_renderSheet hsheet
    obtain ⟨children, n, hexpand, hchildren⟩ := expandWith_spawns hlocate hfound
      (fun i hi b hb prev => (hsheet i hi).block_spawns (hextends i hi) hb hframe hselectors prev)
      l s
    refine ⟨children, n, ?_, ?_⟩
    · rw [properties, List.append_nil]
      exact hexpand
    · rw [PlainTask.children, List.forall₂_map_left_iff]
      refine hchildren.imp fun i p ⟨id, hp⟩ => ?_
      cases i with
      | rule r => exact hp ▸ ⟨rfl, rfl, rfl, hmedia, rfl⟩
      | media query rules =>
        -- the block is spawned in its query, on top of those around it
        refine hp ▸ ⟨rfl, hselectors, rfl, ?_, rfl⟩
        exact congrArg (· ++ [query]) hmedia

/-- Expanding the fragment of a task. -/
theorem Waits.expandPending {t : PlainTask} {p : Pending} (hp : Waits compress t p)
    (ht : t.Proper style compress) (opts : Options) (fuel order : Nat) (s : Session) :
    ∃ f children n,
      outcome (expandPending (engine opts (fuel + 2)) order p) s =
        (.ok (f, children), { s with nextId := n }) ∧
      t.Made f ∧ f.order = order ∧ List.Forall₂ (Waits compress) t.children children := by
  have hframe : Frame.IsOpen
      { selectors := p.selectors, media := p.media, file := p.file, dir := p.dir } :=
    ⟨rfl, rfl, rfl⟩
  obtain ⟨children, n, hexpand, hchildren⟩ := ht.expandWith hframe hp.selectors hp.media fuel
    { vars := p.context, registry := p.registry, parents := p.parents } s
  refine ⟨⟨p.id, p.file, p.selectors, p.parents, p.media, t.properties, p.raw, order, order, []⟩,
    children, n, ?_, ⟨hp.selectors, hp.parents, hp.media, rfl, hp.raw, rfl, rfl⟩, rfl, hchildren⟩
  have hengine (frame : Frame) (code : Text) : (engine opts (fuel + 2)).expand frame code =
      (engine opts (fuel + 1)).expandWith opts frame code := rfl
  rw [Stylesheet.expandPending, if_neg (by simp [hp.raw]), outcome_bind, hp.code, hengine, hexpand]
  rfl

/-- Expanding the fragments of tasks gives the fragments of all that these lead to. -/
theorem drain_waits {tasks : List PlainTask} {queue : List Pending} {fuel : Nat}
    (hqueue : List.Forall₂ (Waits compress) tasks queue)
    (htasks : ∀ t ∈ tasks, t.Proper style compress) (hfuel : (tasks.flatMap walk).length ≤ fuel)
    (depth order : Nat) (s : Session) :
    ∃ fs n,
      outcome (drain (engine opts (depth + 2)) fuel order queue) s =
        (.ok fs, { s with nextId := n }) ∧
      List.Forall₂ Made (tasks.flatMap walk) fs ∧
      fs.map (·.order) = List.range' order fs.length := by
  -- The first task is replaced by its children, which takes it off the walk.
  induction fuel generalizing tasks queue order s with
  | zero =>
    cases hqueue with
    | nil => exact ⟨[], s.nextId, rfl, .nil, rfl⟩
    | @cons t p tasks queue hp _ =>
      rw [List.flatMap_cons, walk_eq] at hfuel
      exact absurd hfuel (by simp)
  | succ fuel ih =>
    cases hqueue with
    | nil => exact ⟨[], s.nextId, rfl, .nil, rfl⟩
    | @cons t p tasks queue hp hqueue =>
      obtain ⟨ht, htasks⟩ := List.forall_mem_cons.mp htasks
      obtain ⟨f, children, n, hexpand, hmade, horder, hchildren⟩ :=
        hp.expandPending ht opts depth order s
      -- the children come before the tasks that waited, as they do on the walk
      have hwalk : (t :: tasks).flatMap walk = t :: (t.children ++ tasks).flatMap walk := by
        rw [List.flatMap_cons, walk_eq, List.flatMap_append, List.cons_append]
      rw [hwalk] at hfuel ⊢
      obtain ⟨fs, m, hdrain, hfs, horders⟩ := ih (List.rel_append hchildren hqueue)
        (List.forall_mem_append.mpr ⟨ht.children, htasks⟩) (Nat.le_of_succ_le_succ hfuel)
        (order + 1) { s with nextId := n }
      refine ⟨f :: fs, m, ?_, .cons hmade hfs, ?_⟩
      · rw [drain, outcome_bind, hexpand]
        dsimp only
        rw [outcome_bind, hdrain]
        rfl
      · rw [List.map_cons, horders, horder, List.length_cons, List.range'_succ]

end PlainTask

/-- Expanding a plain stylesheet gives the fragments of its rules and media blocks. -/
theorem expandSource_renderSheet {sheet : List PlainItem} (hsheet : ∀ i ∈ sheet, i.Proper style)
    (hextends : ∀ i ∈ sheet, ∀ r ∈ i.rules, r.NoExtends compress) {fuel : Nat}
    (hfuel : (PlainTask.root sheet).walk.length < fuel) (opts : Options) (s : Session) :
    ∃ fs n,
      outcome (expandSource fuel opts (renderSheet compress sheet)) s =
        (.ok fs, { s with nextId := n }) ∧
      List.Forall₂ PlainTask.Made (PlainTask.root sheet).walk fs ∧
      fs.map (·.order) = List.range' 0 fs.length := by
  have hproper : ∀ t ∈ [PlainTask.root sheet], t.Proper style compress := by
    simpa using .root hsheet hextends
  have hroot : PlainTask.Waits compress (.root sheet)
      (rootFragment opts (normalize (renderSheet compress sheet))) :=
    ⟨normalize_renderSheet hsheet, rfl, rfl, rfl, rfl⟩
  have hwalk : [PlainTask.root sheet].flatMap PlainTask.walk = (PlainTask.root sheet).walk := by
    simp
  obtain ⟨depth, rfl⟩ : ∃ depth, fuel = depth + 2 := by
    rw [PlainTask.walk_eq, List.length_cons] at hfuel
    exact ⟨fuel - 2, by omega⟩
  obtain ⟨fs, n, hdrain, hmade, horder⟩ := PlainTask.drain_waits (.cons hroot .nil) hproper
    (hwalk ▸ Nat.le_of_lt hfuel) depth 0 s
  rw [hwalk] at hmade
  refine ⟨fs, n, ?_, hmade, horder⟩
  rw [expandSource, outcome_tryCatch, ← normalize, hdrain]

end Stylesheet
