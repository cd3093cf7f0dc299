import Mathlib.Data.List.Sort
import Stylesheet.Proofs.Compile.Definitions
import Stylesheet.Proofs.Text.Words

/-!
# Registered functions

A table is filled by registering functions, one after the other, and copied so that more can be
registered in the copy. What it answers is told here from what has been registered, in the order it
was registered: a call gets the last function registered under its name for just as many arguments,
or else the last one registered under its name for any number.

A table stores a function under one text, put together from its name and its number of arguments,
so these texts have to be told apart whatever the name. The stored functions are in no order that
means anything. They are listed by category, name and number of arguments, and as no two have the
same name and number there is one such list.

## Main definitions

* `Function.IsUnder` — registered under a name for a number of arguments
* `Function.Before` — the order of the list
* `Table.Holds` — what has been registered in a table and in those it was copied from

## Main results

* `Function.keyOf_inj` — a name and a number of arguments can be read off their text
* `Table.Holds.mem_functions_iff` — a table holds the last registration under each text, by
  induction on how it was made
* `registrations_answered` — lookups in a table, and its list
-/

namespace Stylesheet

open Text

/-! ### Numerals -/

namespace Text

theorem isDigit_of_mem_ofNat {m : Nat} {c : UInt8} (hc : c ∈ ofNat m) : isDigit c = true := by
  obtain ⟨d, hd, rfl⟩ := List.mem_map.mp hc
  have hdigit := Nat.isDigit_of_mem_toDigits (by decide) (by decide) hd
  have htoNat := Registry.toNat_ch_of_isDigit hdigit
  have hle := Registry.toNat_le_of_isDigit hdigit
  have hge : 48 ≤ d.toNat := by
    simp only [Char.isDigit, Bool.and_eq_true, decide_eq_true_eq] at hdigit
    exact UInt32.le_iff_toNat_le.mp hdigit.1
  rw [isDigit, Bool.and_eq_true, decide_eq_true_eq, decide_eq_true_eq, UInt8.le_iff_toNat_le,
    UInt8.le_iff_toNat_le, htoNat]
  exact ⟨hge, hle⟩

theorem mem_ofInt {m : Int} {c : UInt8} (hc : c ∈ ofInt m) : c = ch '-' ∨ isDigit c = true := by
  unfold ofInt at hc
  split_ifs at hc
  · exact (List.mem_cons.mp hc).imp_right isDigit_of_mem_ofNat
  · exact .inr (isDigit_of_mem_ofNat hc)

theorem ofNat_ne_minus_cons (m : Nat) (t : Text) : ofNat m ≠ ch '-' :: t := by
  intro heq
  have hdigit : isDigit (ch '-') = true := isDigit_of_mem_ofNat (heq ▸ List.mem_cons_self)
  exact absurd hdigit (by decide)

theorem ofInt_injective {m n : Int} (heq : ofInt m = ofInt n) : m = n := by
  unfold ofInt at heq
  split_ifs at heq with hm hn hn
  · have habs := Registry.ofNat_injective (List.cons.inj heq).2
    omega
  · exact absurd heq.symm (ofNat_ne_minus_cons _ _)
  · exact absurd heq (ofNat_ne_minus_cons _ _)
  · have habs := Registry.ofNat_injective heq
    omega

end Text

namespace Function

variable {f g : Function}

/-! ### Keys -/

/-- A function is registered under a name for a number of arguments. -/
def IsUnder (name : Text) (arity : Int) (f : Function) : Prop := f.name = name ∧ f.arity = arity

instance (name : Text) (arity : Int) (f : Function) : Decidable (f.IsUnder name arity) :=
  inferInstanceAs (Decidable (_ ∧ _))

/-- A number of arguments as it stands in a key. -/
def arityText (arity : Int) : Text := if arity = variadic then of "n" else ofInt arity

theorem colon_notMem_arityText (arity : Int) : ch ':' ∉ arityText arity := by
  unfold arityText
  split_ifs
  · decide
  · intro hcolon
    exact absurd (mem_ofInt hcolon) (by decide)

theorem arityText_injective {m n : Int} (heq : arityText m = arityText n) : m = n := by
  -- The letter for any number is neither a digit nor a sign.
  have hletter (k : Int) : ofInt k ≠ of "n" := by
    intro heq
    have hmem : ch 'n' ∈ ofInt k := heq ▸ (by decide)
    exact absurd (mem_ofInt hmem) (by decide)
  unfold arityText at heq
  split_ifs at heq with hm hn hn
  · exact hm.trans hn.symm
  · exact absurd heq.symm (hletter n)
  · exact absurd heq (hletter m)
  · exact ofInt_injective heq

/-- A key stands for one name and one number of arguments, whatever colons the name has. -/
theorem keyOf_inj {a b : Text} {m n : Int} : keyOf a m = keyOf b n ↔ a = b ∧ m = n := by
  constructor
  · intro heq
    obtain ⟨hname, harity⟩ := Registry.append_colon_inj (colon_notMem_arityText m)
      (colon_notMem_arityText n) heq
    exact ⟨hname, arityText_injective harity⟩
  · rintro ⟨rfl, rfl⟩
    rfl

theorem keyText_eq_iff {name : Text} {arity : Int} :
    f.keyText = keyOf name arity ↔ f.IsUnder name arity := keyOf_inj

/-! ### The order of the list -/

/-- A function stands before another in the list: by category, then by name, then by number of
arguments. -/
def Before (f g : Function) : Prop :=
  lt f.category g.category = true ∨ f.category = g.category ∧
    (lt f.name g.name = true ∨ f.name = g.name ∧ f.arity < g.arity)

end Function

namespace Table

variable {f g h : Function} {fs gs : List Function} {t : Table}

theorem precedes_iff : precedes f g = true ↔ ¬ g.Before f := by
  unfold precedes Function.Before lt
  grind [Text.le_antisymm, Text.le_total]

theorem precedes_total (f g : Function) : precedes f g = true ∨ precedes g f = true := by
  unfold precedes
  grind [Text.le_total]

theorem precedes_trans (hfg : precedes f g = true) (hgh : precedes g h = true) :
    precedes f h = true := by
  unfold precedes at *
  grind [Text.le_trans, Text.le_antisymm]

/-- Functions that stand before each other have one name and one number of arguments. -/
theorem precedes_antisymm (hfg : precedes f g = true) (hgf : precedes g f = true) :
    f.IsUnder g.name g.arity := by
  unfold precedes at *
  unfold Function.IsUnder
  grind [Text.le_antisymm]

theorem sorted_entries (t : Table) : t.entries.Pairwise fun f g => precedes f g = true := by
  apply @List.pairwise_mergeSort Function precedes
  · intro f g h
    exact precedes_trans
  · intro f g
    exact Bool.or_eq_true_iff.mpr (precedes_total f g)

/-! ### What a table holds -/

/-- A table and what has been registered in it, last at the end. A copy is made by registering anew
what a table holds, in whatever order, and so it holds what was registered in that table. -/
inductive Holds : Table → List Function → Prop
  | empty : Holds {} []
  | register {fs : List Function} {t : Table} (h : t.Holds fs) (f : Function) :
    Holds (t.register f) (fs ++ [f])
  | copy {fs gs : List Function} {t : Table} (h : t.Holds fs) (hgs : gs.Perm t.functions) :
    Holds (registerAll {} gs) fs

theorem mem_register_iff : g ∈ (t.register f).functions ↔
    g = f ∨ ¬ f.IsUnder g.name g.arity ∧ g ∈ t.functions := by
  have hkeys : g.keyText ≠ f.keyText ↔ ¬ f.IsUnder g.name g.arity := by
    rw [← Function.keyText_eq_iff, ← Function.keyText, ne_comm]
  rw [register, List.mem_cons, List.mem_filter, decide_eq_true_eq, hkeys, and_comm]

/-- No two functions of a table have one key. -/
def Separate (t : Table) : Prop := (t.functions.map Function.keyText).Nodup

theorem Separate.register (h : t.Separate) (f : Function) : (t.register f).Separate := by
  apply List.nodup_cons.mpr
  constructor
  · intro hf
    obtain ⟨g, hg, hkey⟩ := List.mem_map.mp hf
    simpa [hkey] using (List.mem_filter.mp hg).2
  · exact h.sublist (List.filter_sublist.map _)

/-- Functions with different keys are all kept. -/
theorem functions_registerAll (hgs : (gs.map Function.keyText).Nodup) :
    (registerAll {} gs).functions = gs.reverse := by
  induction gs using List.reverseRecOn with
  | nil => rfl
  | append_singleton gs f ih =>
    rw [List.map_append, List.nodup_append] at hgs
    obtain ⟨hgs, -, hne⟩ := hgs
    have hkept : gs.reverse.filter (fun g => g.keyText ≠ f.keyText) = gs.reverse := by
      apply List.filter_eq_self.mpr
      intro g hg
      have hkey := hne g.keyText (List.mem_map_of_mem (List.mem_reverse.mp hg)) f.keyText (by simp)
      simpa using hkey
    rw [registerAll, List.foldl_concat, ← registerAll, Table.register, ih hgs, hkept,
      List.reverse_concat]

namespace Holds

theorem separate (h : t.Holds fs) : t.Separate := by
  induction h with
  | empty => exact List.nodup_nil
  | register h f ih => exact ih.register f
  | @copy fs gs t h hgs ih =>
    have hkeys : (gs.map Function.keyText).Nodup := (hgs.map _).nodup_iff.mpr ih
    rw [Separate, functions_registerAll hkeys, List.map_reverse, List.nodup_reverse]
    exact hkeys

/-- A table holds the last function registered under each name for each number of arguments. -/
theorem mem_functions_iff (h : t.Holds fs) :
    f ∈ t.functions ↔ IsLatest (Function.IsUnder f.name f.arity) fs f := by
  induction h with
  | empty => exact iff_of_false List.not_mem_nil not_isLatest_nil
  | @register fs t h g ih =>
    rw [mem_register_iff, isLatest_concat_iff, ih]
    refine or_congr_left ⟨?_, fun ⟨_, heq⟩ => heq⟩
    rintro rfl
    exact ⟨⟨rfl, rfl⟩, rfl⟩
  | @copy fs gs t h hgs ih =>
    have hkeys : (gs.map Function.keyText).Nodup := (hgs.map _).nodup_iff.mpr h.separate
    rw [functions_registerAll hkeys, List.mem_reverse, hgs.mem_iff]
    exact ih

/-! ### Lookups -/

variable {name : Text} {arity : Int}

theorem find?_eq_some_iff (h : t.Holds fs) :
    t.find? name arity = some f ↔ IsLatest (Function.IsUnder name arity) fs f := by
  constructor
  · intro hfind
    have hkey : f.keyText = Function.keyOf name arity := by simpa using List.find?_some hfind
    obtain ⟨rfl, rfl⟩ := Function.keyText_eq_iff.mp hkey
    exact h.mem_functions_iff.mp (List.mem_of_find?_eq_some hfind)
  · intro hlatest
    obtain ⟨rfl, rfl⟩ := hlatest.property
    have hf : f ∈ t.functions := h.mem_functions_iff.mpr hlatest
    -- One that is found has the same key, and no other has it.
    cases hfind : t.find? f.name f.arity with
    | none =>
      have hnone := List.find?_eq_none.mp hfind f hf
      exact absurd (decide_eq_true (Function.keyText_eq_iff.mpr ⟨rfl, rfl⟩)) hnone
    | some g =>
      have hkey : g.keyText = Function.keyOf f.name f.arity := by
        simpa using List.find?_some hfind
      have hg : g ∈ t.functions := List.mem_of_find?_eq_some hfind
      rw [List.inj_on_of_nodup_map h.separate hg hf hkey]

theorem find?_eq_none_iff (h : t.Holds fs) :
    t.find? name arity = none ↔ ∀ g ∈ fs, ¬ g.IsUnder name arity := by
  constructor
  · intro hnone g hg hunder
    obtain ⟨f, hlatest⟩ := exists_isLatest ⟨g, hg, hunder⟩
    rw [h.find?_eq_some_iff.mpr hlatest] at hnone
    cases hnone
  · intro hnone
    apply Option.eq_none_iff_forall_ne_some.mpr
    intro f hf
    obtain ⟨before, after, rfl, hunder, -⟩ := h.find?_eq_some_iff.mp hf
    exact hnone f (by simp) hunder

theorem lookup?_eq_some_iff (h : t.Holds fs) : t.lookup? name arity = some f ↔
    IsLatest (Function.IsUnder name arity) fs f ∨
      (∀ g ∈ fs, ¬ g.IsUnder name arity) ∧ IsLatest (Function.IsUnder name variadic) fs f := by
  rw [← h.find?_eq_some_iff, ← h.find?_eq_none_iff, ← h.find?_eq_some_iff, lookup?]
  cases t.find? name arity <;> simp

theorem lookup?_eq_none_iff (h : t.Holds fs) : t.lookup? name arity = none ↔
    ∀ g ∈ fs, ¬ g.IsUnder name arity ∧ ¬ g.IsUnder name variadic := by
  rw [lookup?, Option.orElse_eq_none, h.find?_eq_none_iff, h.find?_eq_none_iff]
  exact forall₂_and.symm

/-! ### The list -/

theorem keys_entries (h : t.Holds fs) : (t.entries.map Function.keyText).Nodup :=
  ((List.mergeSort_perm _ _).map _).nodup_iff.mpr h.separate

theorem pairwise_entries (h : t.Holds fs) : t.entries.Pairwise Function.Before := by
  refine (sorted_entries t).imp₂ ?_ (List.pairwise_map.mp h.keys_entries)
  intro f g hfg hne
  -- Were the first not before the second, the two would stand before each other.
  by_contra hbefore
  have hunder := precedes_antisymm hfg (precedes_iff.mpr hbefore)
  exact hne (Function.keyText_eq_iff.mpr hunder)

/-- However the functions of a table are put in order, it is the same list. -/
theorem eq_entries (h : t.Holds fs) {es : List Function} (hes : es.Perm t.functions)
    (hsorted : es.Pairwise fun f g => ¬ g.Before f) : es = t.entries := by
  have hperm : es.Perm t.entries := hes.trans (List.mergeSort_perm _ _).symm
  have hsorted' : es.Pairwise fun f g => precedes f g = true := hsorted.imp precedes_iff.mpr
  refine List.Perm.eq_of_pairwise ?_ hsorted' (sorted_entries t) hperm
  intro f g hf hg hfg hgf
  have hkey : f.keyText = g.keyText := Function.keyText_eq_iff.mpr (precedes_antisymm hfg hgf)
  exact List.inj_on_of_nodup_map h.separate (hes.mem_iff.mp hf) (List.mem_mergeSort.mp hg) hkey

end Holds

end Table

/-- What a table answers and lists. A lookup gives the last function registered under the name for
just as many arguments, or else the last one registered under the name for any number, or else none.
The list has the last function registered under each name for each number of arguments, and each
name with each number once. It is in strict order, and it is what any way of putting the functions
of the table in order gives. -/
theorem registrations_answered {fs : List Function} {t : Table} (h : t.Holds fs) :
    (∀ name m,
      (∀ f, t.lookup? name m = some f ↔ IsLatest (Function.IsUnder name m) fs f ∨
        (∀ g ∈ fs, ¬ g.IsUnder name m) ∧ IsLatest (Function.IsUnder name variadic) fs f) ∧
      (t.lookup? name m = none ↔
        ∀ g ∈ fs, ¬ g.IsUnder name m ∧ ¬ g.IsUnder name variadic)) ∧
    (∀ f, f ∈ t.entries ↔ IsLatest (Function.IsUnder f.name f.arity) fs f) ∧
    (t.entries.map fun f => (f.name, f.arity)).Nodup ∧
    t.entries.Pairwise Function.Before ∧
    ∀ es : List Function, es.Perm t.functions → (es.Pairwise fun f g => ¬ g.Before f) →
      es = t.entries := by
  refine ⟨?_, ?_, ?_, h.pairwise_entries, ?_⟩
  · intro name m
    exact ⟨fun f => h.lookup?_eq_some_iff, h.lookup?_eq_none_iff⟩
  · intro f
    rw [Table.entries, List.mem_mergeSort]
    exact h.mem_functions_iff
  · -- The names and numbers are different because their keys are.
    apply List.Nodup.of_map fun key => Function.keyOf key.1 key.2
    rw [List.map_map]
    exact h.keys_entries
  · intro es hes hsorted
    exact h.eq_entries hes hsorted

/-- A function that gives one text whatever it is called with. -/
def namedPair (arity : Int) (text : String) : Function where
  name := of "pair"
  arity := arity
  category := of "custom"
  run _ := .ok (.plain (of text))

/-- A copy of a table with two functions of one name, in which the first one is registered anew. -/
def pairTable : Table :=
  let first := Table.registerAll {} [namedPair 2 "old", namedPair variadic "any"]
  (Table.registerAll {} first.functions).register (namedPair 2 "new")

/-- A call with two arguments gets the function registered for two in the copy, a call with five the
one for any number, and a call by another name none. -/
theorem pairTable_answers :
    pairTable.Holds [namedPair 2 "old", namedPair variadic "any", namedPair 2 "new"] ∧
      pairTable.lookup? (of "pair") 2 = some (namedPair 2 "new") ∧
      pairTable.lookup? (of "pair") 5 = some (namedPair variadic "any") ∧
      pairTable.lookup? (of "pairs") 2 = none := by
  have hholds : pairTable.Holds [namedPair 2 "old", namedPair variadic "any", namedPair 2 "new"] :=
    .register (.copy (.register (.register .empty _) _) (List.Perm.refl _)) _
  obtain ⟨hlookup, -⟩ := registrations_answered hholds
  refine ⟨hholds, ((hlookup _ _).1 _).mpr (.inl ?_), ((hlookup _ _).1 _).mpr (.inr ⟨?_, ?_⟩), ?_⟩
  · exact ⟨[namedPair 2 "old", namedPair variadic "any"], [], rfl, by decide, nofun⟩
  · decide
  · exact ⟨[namedPair 2 "old"], [namedPair 2 "new"], rfl, by decide, by decide⟩
  · exact (hlookup _ _).2.mpr (by decide)

end Stylesheet
