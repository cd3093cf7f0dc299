import Mathlib.Data.List.Induction
import Mathlib.Data.List.Perm.Basic
import Mathlib.Tactic.SplitIfs
import Stylesheet.Project
import Stylesheet.Proofs.Text.Words

/-!
# Variables given from outside

A compilation starts with variables that its settings give, and a project puts those of a run
over those it has configured. Settings are maps, so their entries have no order, but a name may
be written with the sigil of variables or without: two entries can be about one variable. Then
the entry visited last wins. This file says when the order makes no difference, and when what
a run gives holds against what is configured.

## Main definitions

* `Consistent` — the entries about one variable agree
* `Governs` — a variable of a run is not configured under another spelling with another text

## Main results

* `Context.set_comm` — bindings of different variables commute
* `compile_reordered` — the order of consistent variables is no concern of a compilation
* `presets_determined` — exactly when the order makes no difference, and when a run prevails
* `twoSpellings_undetermined` — two spellings of a name with different texts
-/

namespace Stylesheet

open Text

/-! ### The order of names -/

namespace Text

variable {s t u : Text}

theorem lt_asymm (h : lt s t = true) : lt t s = false := by
  have hle : le t s = false := by simpa [lt] using h
  have htotal := (le_total t s).resolve_left (by simp [hle])
  simp [lt, htotal]

theorem lt_of_not_lt (hne : s ≠ t) (h : lt s t = false) : lt t s = true := by
  have hle : le t s = true := by simpa [lt] using h
  cases hback : le s t with
  | false => simp [lt, hback]
  | true => exact absurd (le_antisymm hback hle) hne

theorem lt_trans (h : lt s t = true) (h' : lt t u = true) : lt s u = true := by
  have hle : le s t = true := by simpa [lt] using lt_asymm h
  cases hback : le u s with
  | false => simp [lt, hback]
  | true =>
    have hut : le u t = true := le_trans hback hle
    simp [lt, hut] at h'

theorem ne_of_lt (h : lt s t = true) : s ≠ t := by
  rintro rfl
  exact absurd h (by simp [lt_asymm h])

end Text

/-! ### Bindings -/

namespace Context

variable {a b : Text} {v w : Value}

theorem set_cons_self (a : Text) (v w : Value) (c : Context) :
    set ((a, w) :: c) a v = (a, v) :: c := if_pos rfl

theorem set_cons_of_lt (h : lt a b = true) (v w : Value) (c : Context) :
    set ((b, w) :: c) a v = (a, v) :: (b, w) :: c := by
  rw [set, if_neg (ne_of_lt h), if_pos h]

theorem set_cons_of_gt (h : lt b a = true) (v w : Value) (c : Context) :
    set ((b, w) :: c) a v = (b, w) :: set c a v := by
  rw [set, if_neg (ne_of_lt h).symm, if_neg (by simp [lt_asymm h])]

/-- The first of two bindings, the one with the lesser name, stays in front. -/
theorem set_comm_of_lt (h : lt a b = true) (v w : Value) (c : Context) :
    (c.set a v).set b w = (c.set b w).set a v := by
  induction c with
  | nil =>
    change set [(a, v)] b w = set [(b, w)] a v
    rw [set_cons_of_gt h, set_cons_of_lt h]
    rfl
  | cons e c ih =>
    obtain ⟨k, x⟩ := e
    -- Where the two names are as to the first name bound decides where they go.
    by_cases hak : a = k
    · subst hak
      rw [set_cons_self, set_cons_of_gt h, set_cons_of_gt h, set_cons_self]
    by_cases hlt : lt a k = true
    · rw [set_cons_of_lt hlt, set_cons_of_gt h]
      by_cases hbk : b = k
      · subst hbk
        rw [set_cons_self, set_cons_of_lt h]
      by_cases hlt' : lt b k = true
      · rw [set_cons_of_lt hlt', set_cons_of_lt h]
      · have hgt := lt_of_not_lt hbk (by simpa using hlt')
        rw [set_cons_of_gt hgt, set_cons_of_lt hlt]
    · have hgt := lt_of_not_lt hak (by simpa using hlt)
      have hgt' := lt_trans hgt h
      rw [set_cons_of_gt hgt, set_cons_of_gt hgt', set_cons_of_gt hgt', set_cons_of_gt hgt, ih]

/-- Bindings of different variables commute. -/
theorem set_comm (hne : a ≠ b) (v w : Value) (c : Context) :
    (c.set a v).set b w = (c.set b w).set a v := by
  by_cases h : lt a b = true
  · exact set_comm_of_lt h v w c
  · exact (set_comm_of_lt (lt_of_not_lt hne (by simpa using h)) w v c).symm

/-- What a binding gives is found. -/
theorem lookup_set_self (a : Text) (v : Value) (c : Context) :
    (c.set a v).lookup a = some v := by
  induction c with
  | nil => simp [set]
  | cons e c ih =>
    obtain ⟨k, x⟩ := e
    rw [set]
    split_ifs with hak hlt
    · exact List.lookup_cons_self
    · exact List.lookup_cons_self
    · rw [List.lookup_cons, beq_eq_false_iff_ne.mpr hak]
      exact ih

/-- Other variables are as they were. -/
theorem lookup_set_of_ne (hne : b ≠ a) (v : Value) (c : Context) :
    (c.set a v).lookup b = c.lookup b := by
  have hba : (b == a) = false := beq_eq_false_iff_ne.mpr hne
  induction c with
  | nil => simp [set, List.lookup_cons, hba]
  | cons e c ih =>
    obtain ⟨k, x⟩ := e
    rw [set]
    split_ifs with hak hlt
    · subst hak
      simp [List.lookup_cons, hba]
    · rw [List.lookup_cons, hba]
    · rw [List.lookup_cons, List.lookup_cons, ih]

end Context

/-! ### The variables a compilation starts with -/

/-- Entries for one variable, however its name is spelt, give it one text. -/
def Consistent (presets : List (Text × Text)) : Prop :=
  ∀ e ∈ presets, ∀ e' ∈ presets, sigil e.1 = sigil e'.1 → e.2 = e'.2

variable {presets order : List (Text × Text)} {e : Text × Text}

theorem Consistent.seedContext_eq (h : Consistent presets) (horder : order.Perm presets) :
    seedContext order = seedContext presets := by
  refine (List.Perm.foldl_eq' horder.symm (fun e he e' he' c => ?_) []).symm
  dsimp only
  by_cases hname : sigil e.1 = sigil e'.1
  · rw [hname, h e he e' he' hname]
  · exact Context.set_comm hname _ _ c

/-- The entry visited last wins. -/
theorem lookup_seedContext_concat (presets : List (Text × Text)) (e : Text × Text) :
    (seedContext (presets ++ [e])).lookup (sigil e.1) = some (.plain e.2) := by
  rw [seedContext, List.foldl_append]
  exact Context.lookup_set_self _ _ _

/-- Any entry can be the one visited last. -/
theorem exists_perm_concat (he : e ∈ presets) :
    ∃ rest, (rest ++ [e]).Perm presets :=
  ⟨presets.erase e, (List.perm_append_singleton e _).trans (List.perm_cons_erase he).symm⟩

/-- A variable has the text that all its entries give it. -/
theorem lookup_seedContext {name t : Text} (hsome : ∃ e ∈ presets, sigil e.1 = name)
    (hall : ∀ e ∈ presets, sigil e.1 = name → e.2 = t) :
    (seedContext presets).lookup name = some (.plain t) := by
  induction presets using List.reverseRecOn with
  | nil =>
    obtain ⟨e, he, -⟩ := hsome
    exact absurd he List.not_mem_nil
  | append_singleton rest e ih =>
    by_cases hname : sigil e.1 = name
    · have ht : e.2 = t := hall e (by simp) hname
      rw [← hname, ← ht]
      exact lookup_seedContext_concat rest e
    · rw [seedContext, List.foldl_append]
      refine (Context.lookup_set_of_ne (Ne.symm hname) _ _).trans (ih ?_ fun e' he' => ?_)
      · obtain ⟨e', he', hname'⟩ := hsome
        rcases List.mem_append.mp he' with hrest | hlast
        · exact ⟨e', hrest, hname'⟩
        · rw [List.mem_singleton.mp hlast] at hname'
          exact absurd hname' hname
      · exact hall e' (List.mem_append_left _ he')

/-- An entry holds whatever the order if and only if all entries for its variable agree
with it. -/
theorem holds_in_any_order_iff (he : e ∈ presets) :
    (∀ order : List (Text × Text), order.Perm presets →
        (seedContext order).lookup (sigil e.1) = some (.plain e.2)) ↔
      ∀ e' ∈ presets, sigil e'.1 = sigil e.1 → e'.2 = e.2 := by
  constructor
  · intro h e' he' hname
    obtain ⟨rest, hperm⟩ := exists_perm_concat he'
    have hlast := lookup_seedContext_concat rest e'
    rw [hname, h _ hperm] at hlast
    simpa [Value.plain] using hlast.symm
  · intro h order horder
    exact lookup_seedContext ⟨e, horder.mem_iff.mpr he, rfl⟩ fun e' he' =>
      h e' (horder.mem_iff.mp he')

/-- The order makes no difference if and only if the entries are consistent. -/
theorem consistent_iff :
    Consistent presets ↔ ∀ order : List (Text × Text), order.Perm presets →
      seedContext order = seedContext presets := by
  refine ⟨fun h order horder => h.seedContext_eq horder, fun h e he e' he' hname => ?_⟩
  obtain ⟨rest, hperm⟩ := exists_perm_concat he
  obtain ⟨rest', hperm'⟩ := exists_perm_concat he'
  have hlast := lookup_seedContext_concat rest e
  have hlast' := lookup_seedContext_concat rest' e'
  rw [h _ hperm, hname] at hlast
  rw [h _ hperm', hlast] at hlast'
  simpa [Value.plain] using hlast'

/-! ### Compilation -/

/-- What one block does has nothing to do with the variables given. -/
theorem Engine.block_presets (en : Engine) (opts : Options) (order : List (Text × Text))
    (frame : Frame) (prev : Branch) (b : Block) :
    en.block { opts with presets := order } frame prev b = en.block opts frame prev b := rfl

theorem Engine.blocks_presets (en : Engine) (opts : Options) (order : List (Text × Text))
    (frame : Frame) (failure : Option StructuralError) (prev : Branch) (found : List Block) :
    en.blocks { opts with presets := order } frame failure prev found =
      en.blocks opts frame failure prev found := by
  induction found generalizing prev with
  | nil => rfl
  | cons b rest ih =>
    rw [Engine.blocks, Engine.blocks, Engine.block_presets]
    congr 1
    funext r
    split
    · rfl
    · exact ih _

/-- Expansion and evaluation have nothing to do with the variables given. -/
theorem engine_presets (opts : Options) (order : List (Text × Text)) (fuel : Nat) :
    engine { opts with presets := order } fuel = engine opts fuel := by
  induction fuel with
  | zero => rfl
  | succ fuel ih =>
    rw [engine, engine, ih]
    congr 1
    funext frame code
    exact Engine.blocks_presets _ opts order frame _ _ _

/-- The order of consistent variables is no concern of a compilation. -/
theorem compile_reordered {opts : Options} (h : Consistent opts.presets)
    (horder : order.Perm opts.presets) (source : Text) :
    compile { opts with presets := order } source = compile opts source := by
  have hroot (code : Text) :
      rootFragment { opts with presets := order } code = rootFragment opts code := by
    rw [rootFragment, rootFragment, h.seedContext_eq horder]
  unfold compile compileWith expandSource
  simp only [engine_presets, hroot]
  rfl

/-! ### Projects -/

/-- An entry replaces the one of its name. -/
theorem mem_assign {α : Type} {key : Text} {v : α} {table : List (Text × α)}
    (hnodup : (table.map Prod.fst).Nodup) (x : Text × α) :
    x ∈ assign key v table ↔ x = (key, v) ∨ x ∈ table ∧ x.1 ≠ key := by
  induction table with
  | nil => simp [assign]
  | cons y rest ih =>
    obtain ⟨k, w⟩ := y
    obtain ⟨hk, hrest⟩ := List.nodup_cons.mp hnodup
    -- a key stands in the table once
    have hother : x ∈ rest → x.1 ≠ k := by
      rintro hx rfl
      have hmem : x.1 ∈ rest.map Prod.fst := List.mem_map_of_mem hx
      exact hk hmem
    rw [assign]
    split_ifs with hkey
    · subst hkey
      simp only [List.mem_cons]
      constructor
      · rintro (h | h)
        · exact .inl h
        · exact .inr ⟨.inr h, hother h⟩
      · rintro (h | ⟨rfl | h, hne⟩)
        · exact .inl h
        · exact absurd rfl hne
        · exact .inr h
    · rw [List.mem_cons, ih hrest, List.mem_cons]
      constructor
      · rintro (rfl | h | ⟨h, hne⟩)
        · exact .inr ⟨.inl rfl, hkey⟩
        · exact .inl h
        · exact .inr ⟨.inr h, hne⟩
      · rintro (h | ⟨h | h, hne⟩)
        · exact .inr (.inl h)
        · exact .inl h
        · exact .inr (.inr ⟨h, hne⟩)

theorem nodup_assign {α : Type} (key : Text) (v : α) {table : List (Text × α)}
    (hnodup : (table.map Prod.fst).Nodup) : ((assign key v table).map Prod.fst).Nodup := by
  induction table with
  | nil => simp [assign]
  | cons y rest ih =>
    obtain ⟨k, w⟩ := y
    obtain ⟨hk, hrest⟩ := List.nodup_cons.mp hnodup
    rw [assign]
    split_ifs with hkey
    · subst hkey
      exact List.nodup_cons.mpr ⟨hk, hrest⟩
    · refine List.nodup_cons.mpr ⟨fun hmem => hk ?_, ih hrest⟩
      obtain ⟨x, hx, hname⟩ := List.mem_map.mp hmem
      rcases (mem_assign hrest x).mp hx with rfl | ⟨hx, -⟩
      · exact absurd hname.symm hkey
      · exact List.mem_map.mpr ⟨x, hx, hname⟩

/-- The entries of a run are kept, and those configured under a name that the run does not
give. -/
theorem mem_foldl_assign {given table : List (Text × Text)}
    (hgiven : (given.map Prod.fst).Nodup) (htable : (table.map Prod.fst).Nodup)
    (x : Text × Text) :
    x ∈ given.foldl (fun vs (name, t) => assign name t vs) table ↔
      x ∈ given ∨ x ∈ table ∧ x.1 ∉ given.map Prod.fst := by
  induction given generalizing table with
  | nil => simp
  | cons y rest ih =>
    obtain ⟨k, w⟩ := y
    obtain ⟨hk, hrest⟩ := List.nodup_cons.mp hgiven
    rw [List.foldl_cons, ih hrest (nodup_assign k w htable), mem_assign htable]
    simp only [List.mem_cons, List.map_cons, not_or]
    constructor
    · rintro (h | ⟨rfl | ⟨h, hne⟩, hnot⟩)
      · exact .inl (.inr h)
      · exact .inl (.inl rfl)
      · exact .inr ⟨h, hne, hnot⟩
    · rintro ((rfl | h) | ⟨h, hne, hnot⟩)
      · exact .inr ⟨.inl rfl, hk⟩
      · exact .inl h
      · exact .inr ⟨.inr ⟨h, hne⟩, hnot⟩

/-- A text that a run gives for a variable is up against no other: not in the run, and not in
the configuration under a spelling of the name that the run does not replace. -/
structure Project.Governs (p : Project) (e : Text × Text) : Prop where
  given : ∀ e' ∈ p.overrides.presets, sigil e'.1 = sigil e.1 → e'.2 = e.2
  configured : ∀ e' ∈ p.config.presets, sigil e'.1 = sigil e.1 →
    e'.1 ∈ p.overrides.presets.map Prod.fst ∨ e'.2 = e.2

/-- The order in which variables are visited makes no difference if and only if the entries
for each of them agree, and then it makes none to a compilation. What a run gives for a
variable holds against the configuration in every order if and only if no other text is given
for it under a spelling that stays. -/
theorem presets_determined (presets : List (Text × Text)) (opts : Options) (p : Project)
    (path : Text) :
    (Consistent presets ↔ ∀ order : List (Text × Text), order.Perm presets →
      seedContext order = seedContext presets) ∧
    (∀ (order : List (Text × Text)) (source : Text),
      Consistent opts.presets → order.Perm opts.presets →
        compile { opts with presets := order } source = compile opts source) ∧
    ((p.config.presets.map Prod.fst).Nodup →
      (p.overrides.presets.map Prod.fst).Nodup → ∀ e ∈ p.overrides.presets,
        ((∀ order : List (Text × Text), order.Perm (p.options path).presets →
            (seedContext order).lookup (sigil e.1) = some (.plain e.2)) ↔ p.Governs e)) := by
  refine ⟨consistent_iff, fun _ source h horder => compile_reordered h horder source, ?_⟩
  intro hconfig hgiven e he
  have hmem (x : Text × Text) : x ∈ (p.options path).presets ↔
      x ∈ p.overrides.presets ∨ x ∈ p.config.presets ∧ x.1 ∉ p.overrides.presets.map Prod.fst :=
    mem_foldl_assign hgiven hconfig x
  rw [holds_in_any_order_iff ((hmem e).mpr (.inl he))]
  constructor
  · intro h
    refine ⟨fun e' he' => h e' ((hmem e').mpr (.inl he')), fun e' he' hname => ?_⟩
    by_cases hreplaced : e'.1 ∈ p.overrides.presets.map Prod.fst
    · exact .inl hreplaced
    · exact .inr (h e' ((hmem e').mpr (.inr ⟨he', hreplaced⟩)) hname)
  · intro h e' he' hname
    rcases (hmem e').mp he' with hrun | ⟨hstays, hnot⟩
    · exact h.given e' hrun hname
    · exact (h.configured e' hstays hname).resolve_left hnot

/-- A project with two variables configured, one of which a run gives under the same name. -/
def brandProject : Project :=
  { tree := {}, root := of "/project",
    config := { presets := [(of "$brand", of "red"), (of "gap", of "1px")] },
    overrides := { presets := [(of "$brand", of "blue")] } }

/-- The same name is replaced, and the other variable may come before or after. -/
theorem brandProject_determined :
    (∀ order : List (Text × Text),
        order.Perm (brandProject.options (of "main.scss")).presets →
        (seedContext order).lookup (of "$brand") = some (.plain (of "blue"))) ∧
      compile { brandProject.options (of "main.scss") with
          presets := [(of "gap", of "1px"), (of "$brand", of "blue")] } (of "a { b: $brand; }") =
        compile (brandProject.options (of "main.scss")) (of "a { b: $brand; }") := by
  have hpresets : (brandProject.options (of "main.scss")).presets =
      [(of "$brand", of "blue"), (of "gap", of "1px")] := by decide
  obtain ⟨-, hreordered, hgoverns⟩ := presets_determined []
    (brandProject.options (of "main.scss")) brandProject (of "main.scss")
  refine ⟨(hgoverns (by decide) (by decide) (of "$brand", of "blue") List.mem_cons_self).mpr ?_,
    hreordered _ _ ?_ ?_⟩
  · constructor <;> decide
  · rw [hpresets]
    unfold Consistent
    decide
  · rw [hpresets]
    exact .swap _ _ _

/-- A project whose run spells the name of a configured variable without the sigil. -/
def unsigiledProject : Project :=
  { tree := {}, root := of "/project", config := { presets := [(of "$brand", of "red")] },
    overrides := { presets := [(of "brand", of "blue")] } }

/-- Two spellings of a name with different texts: the variables a compilation starts with are
others in the other order, and what is configured can hold against what a run gives. -/
theorem twoSpellings_undetermined :
    seedContext [(of "a", of "1px"), (of "$a", of "2px")] ≠
        seedContext [(of "$a", of "2px"), (of "a", of "1px")] ∧
      (of "brand", of "blue") ∈ unsigiledProject.overrides.presets ∧
      ∃ order : List (Text × Text),
        order.Perm (unsigiledProject.options (of "main.scss")).presets ∧
        (seedContext order).lookup (sigil (of "brand")) = some (.plain (of "red")) := by
  refine ⟨fun h => ?_, List.mem_cons_self, [(of "brand", of "blue"), (of "$brand", of "red")], ?_, ?_⟩
  · have hlast := lookup_seedContext_concat [(of "a", of "1px")] (of "$a", of "2px")
    have hlast' := lookup_seedContext_concat [(of "$a", of "2px")] (of "a", of "1px")
    have hname : sigil (of "a") = sigil (of "$a") := by decide
    rw [List.singleton_append] at hlast hlast'
    rw [h, ← hname, hlast'] at hlast
    exact absurd hlast (by simp only [Value.plain, Option.some.injEq, Value.string.injEq]; decide)
  · have hpresets : (unsigiledProject.options (of "main.scss")).presets =
        [(of "$brand", of "red"), (of "brand", of "blue")] := by decide
    rw [hpresets]
    exact .swap _ _ _
  · exact lookup_seedContext_concat [(of "brand", of "blue")] (of "$brand", of "red")

end Stylesheet
