import Mathlib.Data.List.Induction
import Mathlib.Tactic.SplitIfs
import Stylesheet.Compile.Registry
import Stylesheet.Proofs.Text

/-!
# Definitions and calls

A mixin or function answers calls with as many arguments as it has parameters, and with fewer as
long as the parameters left out stand at the end and have defaults. Of the definitions that answer
a call the last one made is the one that is called: a later definition takes over the numbers of
arguments that it answers to, and leaves the others to those before it.

The table behind this is filled under one key for each number of arguments. What is looked up is
told here from the definitions alone, in the order they were made. Registries are copied when a
fragment is spawned, and a copy goes its own way: what is defined in one is not seen in another,
and a copy knows what had been defined before it was made.

## Main definitions

* `Callable.Takes` — the numbers of arguments a definition answers to
* `Callable.AnswersTo` — a definition is one for a call
* `IsLatest` — the last member of a list with a property
* `Registry.Step` — a definition in one of several registries, or a copy of one
* `Registry.key` — a name and a number of arguments as one text

## Main results

* `Callable.mem_arities` — what a definition is registered for
* `Registry.callable?_define` — a lookup after one definition
* `Registry.run_eq` — each registry holds what its own line has defined, by induction on the steps
* `latest_definition_answers` — lookups after any number of definitions and copies
-/

namespace Stylesheet

open Text

/-! ### Numbers of arguments -/

namespace Callable

/-- How many parameters at the end have a default. -/
def defaulted (c : Callable) : Nat :=
  (c.params.reverse.takeWhile fun p => (c.defaults.lookup p).isSome).length

/-- The definition answers to this number of arguments: one for each parameter, or fewer if the
parameters left out are at the end and have defaults. -/
def Takes (c : Callable) (m : Nat) : Prop :=
  c.params.length - c.defaulted ≤ m ∧ m ≤ c.params.length

instance (c : Callable) (m : Nat) : Decidable (c.Takes m) :=
  inferInstanceAs (Decidable (_ ∧ _))

theorem mem_aritiesFrom {defaults : List (Text × Text)} {reversed : List Text} {m : Nat} :
    m ∈ aritiesFrom defaults reversed ↔
      reversed.length - (reversed.takeWhile fun p => (defaults.lookup p).isSome).length ≤ m ∧
        m ≤ reversed.length := by
  induction reversed with
  | nil => simp [aritiesFrom]
  | cons p rest ih =>
    -- The number of parameters left out grows as long as they have defaults, and then stops.
    have hle := (List.takeWhile_prefix (l := rest) fun p => (defaults.lookup p).isSome).length_le
    rw [aritiesFrom, List.takeWhile_cons, List.mem_cons, List.length_cons]
    split_ifs with hdefault
    · rw [ih, List.length_cons]
      omega
    · simp only [List.not_mem_nil, or_false, List.length_nil]
      omega

theorem mem_arities {c : Callable} {m : Nat} : m ∈ c.arities ↔ c.Takes m := by
  rw [arities, mem_aritiesFrom, List.length_reverse]
  rfl

/-- The definition is a function or a mixin of this name, and answers to this number of
arguments. -/
structure AnswersTo (c : Callable) (isFunction : Bool) (name : Text) (m : Nat) : Prop where
  kind : c.isFunction = isFunction
  named : c.name = name
  takes : c.Takes m

instance (c : Callable) (isFunction : Bool) (name : Text) (m : Nat) :
    Decidable (c.AnswersTo isFunction name m) :=
  decidable_of_iff (c.isFunction = isFunction ∧ c.name = name ∧ c.Takes m)
    ⟨fun ⟨hkind, hname, htakes⟩ => ⟨hkind, hname, htakes⟩, fun h => ⟨h.kind, h.named, h.takes⟩⟩

end Callable

/-! ### The last of a list -/

/-- The last member of a list that has a property. -/
def IsLatest {α : Type} (P : α → Prop) (as : List α) (a : α) : Prop :=
  ∃ before after, as = before ++ a :: after ∧ P a ∧ ∀ b ∈ after, ¬ P b

theorem isLatest_concat_iff {α : Type} {P : α → Prop} {as : List α} {a b : α} :
    IsLatest P (as ++ [b]) a ↔ P b ∧ a = b ∨ ¬ P b ∧ IsLatest P as a := by
  constructor
  · -- The last member that has the property is the new one, or stands before it.
    rintro ⟨before, after, has, ha, hafter⟩
    rcases List.eq_nil_or_concat after with rfl | ⟨after, c, rfl⟩
    · obtain ⟨rfl, hb⟩ := List.append_inj' has rfl
      obtain rfl := List.head_eq_of_cons_eq hb
      exact .inl ⟨ha, rfl⟩
    · rw [List.concat_eq_append, ← List.cons_append, ← List.append_assoc] at has
      obtain ⟨rfl, hb⟩ := List.append_inj' has rfl
      obtain rfl := List.head_eq_of_cons_eq hb
      refine .inr ⟨hafter _ (by simp), before, after, rfl, ha, ?_⟩
      intro d hd
      exact hafter d (by simp [hd])
  · rintro (⟨hb, rfl⟩ | ⟨hb, before, after, rfl, ha, hafter⟩)
    · exact ⟨as, [], rfl, hb, nofun⟩
    · refine ⟨before, after ++ [b], by simp, ha, ?_⟩
      intro d hd
      rcases List.mem_append.mp hd with hd | hd
      · exact hafter d hd
      · rwa [List.mem_singleton.mp hd]

theorem IsLatest.property {α : Type} {P : α → Prop} {as : List α} {a : α} (h : IsLatest P as a) :
    P a := by
  obtain ⟨_, _, _, ha, _⟩ := h
  exact ha

theorem exists_isLatest {α : Type} {P : α → Prop} {as : List α} (h : ∃ a ∈ as, P a) :
    ∃ a, IsLatest P as a := by
  induction as using List.reverseRecOn with
  | nil => simp at h
  | append_singleton as b ih =>
    by_cases hb : P b
    · exact ⟨b, isLatest_concat_iff.mpr (.inl ⟨hb, rfl⟩)⟩
    · obtain ⟨a, ha, hPa⟩ := h
      rcases List.mem_append.mp ha with ha | ha
      · obtain ⟨a, hlatest⟩ := ih ⟨a, ha, hPa⟩
        exact ⟨a, isLatest_concat_iff.mpr (.inr ⟨hb, hlatest⟩)⟩
      · rw [List.mem_singleton.mp ha] at hPa
        exact absurd hPa hb

theorem not_isLatest_nil {α : Type} {P : α → Prop} {a : α} : ¬ IsLatest P [] a := by
  rintro ⟨before, _, hnil, _⟩
  cases before <;> cases hnil

namespace Registry

/-! ### Lookups -/

/-- The function or the mixin for a name and number of arguments. -/
def callable? (r : Registry) (isFunction : Bool) (name : Text) (m : Nat) : Option Callable :=
  if isFunction then r.function? name m else r.mixin? name m

/-- An entry put in place of those with its key. -/
theorem lookup_replace {κ : Type} [BEq κ] [LawfulBEq κ] [DecidableEq κ] (k : κ) (c : Callable)
    (table : List (κ × Callable)) (a : κ) :
    List.lookup a ((k, c) :: table.filter (·.1 ≠ k)) =
      if a = k then some c else table.lookup a := by
  split_ifs with hak
  · rw [hak, List.lookup_cons_self]
  · rw [List.lookup_cons, beq_eq_false_iff_ne.mpr hak]
    dsimp only
    induction table with
    | nil => rfl
    | cons e table ih =>
      obtain ⟨b, d⟩ := e
      rw [List.lookup_cons]
      by_cases hbk : b = k
      · subst hbk
        rw [List.filter_cons_of_neg (by simp), ih, beq_eq_false_iff_ne.mpr hak]
      · rw [List.filter_cons_of_pos (by simpa using hbk), List.lookup_cons, ih]

theorem lookup_insertAll (c : Callable) (ns : List Nat) (table : List ((Text × Nat) × Callable))
    (name : Text) (m : Nat) :
    (insertAll c ns table).lookup (name, m) =
      if c.name = name ∧ m ∈ ns then some c else table.lookup (name, m) := by
  unfold insertAll
  induction ns generalizing table with
  | nil => simp
  | cons n ns ih =>
    rw [List.foldl_cons, ih, lookup_replace]
    simp only [Prod.mk.injEq, List.mem_cons]
    split_ifs <;> grind

/-- After a definition a call that it answers gets it, and any other what it got before. -/
theorem callable?_define (r : Registry) (c : Callable) (isFunction : Bool) (name : Text) (m : Nat) :
    (r.define c).callable? isFunction name m =
      if c.AnswersTo isFunction name m then some c else r.callable? isFunction name m := by
  have hanswers : c.AnswersTo isFunction name m ↔
      c.isFunction = isFunction ∧ c.name = name ∧ m ∈ c.arities :=
    ⟨fun h => ⟨h.kind, h.named, Callable.mem_arities.mpr h.takes⟩,
      fun ⟨hkind, hname, hm⟩ => ⟨hkind, hname, Callable.mem_arities.mp hm⟩⟩
  simp only [hanswers]
  unfold define callable? function? mixin?
  -- A definition goes into the table of its own kind and leaves the other one as it is.
  cases hkind : c.isFunction <;> cases isFunction <;> simp [lookup_insertAll]

theorem callable?_empty (isFunction : Bool) (name : Text) (m : Nat) :
    callable? {} isFunction name m = none := by
  cases isFunction <;> rfl

/-- What a history of definitions answers to a call. -/
theorem callable?_foldl_define_eq_some_iff {history : List Callable} {isFunction : Bool}
    {name : Text} {m : Nat} {c : Callable} :
    (history.foldl define {}).callable? isFunction name m = some c ↔
      IsLatest (·.AnswersTo isFunction name m) history c := by
  induction history using List.reverseRecOn with
  | nil =>
    rw [List.foldl_nil, callable?_empty]
    exact iff_of_false nofun not_isLatest_nil
  | append_singleton history d ih =>
    rw [List.foldl_concat, callable?_define, isLatest_concat_iff]
    split_ifs with hd
    · simp [hd, eq_comm]
    · simp [hd, ih]

theorem callable?_foldl_define_eq_none_iff {history : List Callable} {isFunction : Bool}
    {name : Text} {m : Nat} :
    (history.foldl define {}).callable? isFunction name m = none ↔
      ∀ c ∈ history, ¬ c.AnswersTo isFunction name m := by
  induction history using List.reverseRecOn with
  | nil =>
    rw [List.foldl_nil, callable?_empty]
    exact iff_of_true rfl nofun
  | append_singleton history d ih =>
    rw [List.foldl_concat, callable?_define]
    split_ifs with hd
    · refine iff_of_false nofun fun h => h d (by simp) hd
    · rw [ih]
      simp [or_imp, forall_and, hd]

/-! ### Copies -/

/-- What can happen to several registries: a definition in one of them, or a copy of one, which
comes after the others. -/
inductive Step where
  | define (i : Nat) (c : Callable)
  | copy (i : Nat)

/-- The registries after a step. -/
def Step.apply : Step → List Registry → List Registry
  | .define i c, rs => rs.modify i (·.define c)
  | .copy i, rs => rs ++ rs[i]?.toList

/-- What had been defined in the line of each registry: before the copy that it came from was made,
and in itself since then. -/
def Step.record : Step → List (List Callable) → List (List Callable)
  | .define i c, hs => hs.modify i (· ++ [c])
  | .copy i, hs => hs ++ hs[i]?.toList

/-- A step keeps each registry in agreement with its history. -/
theorem Step.apply_map (step : Step) (hs : List (List Callable)) :
    step.apply (hs.map (·.foldl Registry.define {})) =
      (step.record hs).map (·.foldl Registry.define {}) := by
  cases step with
  | define i c =>
    refine List.ext_getElem? fun j => ?_
    simp only [apply, record, List.getElem?_modify, List.getElem?_map]
    cases hs[j]? with
    | none => rfl
    | some history =>
      simp only [Option.map_some, Functor.map]
      split_ifs
      · rw [List.foldl_concat]
      · rfl
  | copy i =>
    rw [apply, record, List.map_append, List.getElem?_map]
    cases hs[i]? <;> rfl

/-- Step by step each registry holds what its own line has defined. -/
theorem run_eq (steps : List Step) :
    steps.foldl (fun rs step => step.apply rs) [{}] =
      (steps.foldl (fun hs step => step.record hs) [[]]).map (·.foldl define {}) := by
  -- True of any registries that hold what their lines have defined, and of the empty one at first.
  have hrun (hs : List (List Callable)) :
      steps.foldl (fun rs step => step.apply rs) (hs.map (·.foldl define {})) =
        (steps.foldl (fun hs step => step.record hs) hs).map (·.foldl define {}) := by
    induction steps generalizing hs with
    | nil => rfl
    | cons step steps ih => rw [List.foldl_cons, List.foldl_cons, step.apply_map, ih]
  exact hrun [[]]

/-- A step changes no answer but by a definition made in the registry asked, for this call. -/
theorem Step.callable?_apply {step : Step} {rs : List Registry} {j : Nat} {r : Registry}
    {isFunction : Bool} {name : Text} {m : Nat} (hr : rs[j]? = some r)
    (h : ∀ c, c.AnswersTo isFunction name m → step ≠ .define j c) :
    ∃ r', (step.apply rs)[j]? = some r' ∧
      r'.callable? isFunction name m = r.callable? isFunction name m := by
  cases step with
  | define i c =>
    rw [apply, List.getElem?_modify, hr]
    by_cases hij : i = j
    · have hc : ¬ c.AnswersTo isFunction name m := fun hc => h c hc (by rw [hij])
      refine ⟨r.define c, by simp [hij], ?_⟩
      rw [callable?_define, if_neg hc]
    · exact ⟨r, by simp [hij], rfl⟩
  | copy i =>
    obtain ⟨hj, -⟩ := List.getElem?_eq_some_iff.mp hr
    exact ⟨r, by rw [apply, List.getElem?_append_left hj, hr], rfl⟩

/-! ### Keys -/

/-- The text that stands for a name and a number of arguments. -/
def key (name : Text) (m : Nat) : Text := name ++ ch ':' :: ofNat m

theorem toNat_le_of_isDigit {c : Char} (h : c.isDigit) : c.toNat ≤ 57 := by
  simp only [Char.isDigit, Bool.and_eq_true, decide_eq_true_eq] at h
  exact UInt32.le_iff_toNat_le.mp h.2

theorem toNat_ch_of_isDigit {c : Char} (h : c.isDigit) : (ch c).toNat = c.toNat :=
  Nat.mod_eq_of_lt (Nat.lt_of_le_of_lt (toNat_le_of_isDigit h) (by decide))

theorem ofNat_injective {m n : Nat} (h : ofNat m = ofNat n) : m = n := by
  -- The digits can be read off the bytes, and the number off the digits.
  have hdigits (k : Nat) : (ofNat k).map (fun b => Char.ofNat b.toNat) = Nat.toDigits 10 k := by
    rw [ofNat, List.map_map]
    refine (List.map_congr_left fun c hc => ?_).trans (List.map_id _)
    have hdigit := Nat.isDigit_of_mem_toDigits (by decide) (by decide) hc
    rw [Function.comp_apply, toNat_ch_of_isDigit hdigit, Char.ofNat_toNat, id]
  have hsame : Nat.toDigits 10 m = Nat.toDigits 10 n := by rw [← hdigits m, ← hdigits n, h]
  rw [← Nat.ofDigitChars_toDigits (b := 10) (n := m) (by decide) (by decide), hsame,
    Nat.ofDigitChars_toDigits (by decide) (by decide)]

theorem colon_notMem_ofNat (m : Nat) : ch ':' ∉ ofNat m := by
  intro hmem
  obtain ⟨c, hc, hcolon⟩ := List.mem_map.mp hmem
  have hdigit := Nat.isDigit_of_mem_toDigits (by decide) (by decide) hc
  have htoNat : c.toNat = 58 := by
    rw [← toNat_ch_of_isDigit hdigit, hcolon]
    rfl
  have hle := toNat_le_of_isDigit hdigit
  omega

/-- What stands behind the last colon. -/
theorem append_colon_inj {a b s t : Text} (hs : ch ':' ∉ s) (ht : ch ':' ∉ t)
    (h : a ++ ch ':' :: s = b ++ ch ':' :: t) : a = b ∧ s = t := by
  rcases List.append_eq_append_iff.mp h with ⟨w, rfl, hw⟩ | ⟨w, rfl, hw⟩
  · cases w with
    | nil => exact ⟨(List.append_nil a).symm, (List.cons.inj hw).2⟩
    | cons c w => exact absurd (by simp [(List.cons.inj hw).2]) hs
  · cases w with
    | nil => exact ⟨List.append_nil b, (List.cons.inj hw).2.symm⟩
    | cons c w => exact absurd (by simp [(List.cons.inj hw).2]) ht

/-- A key stands for one name and one number, whatever colons and digits the name has. -/
theorem key_injective {a b : Text} {m n : Nat} (h : key a m = key b n) : a = b ∧ m = n := by
  obtain ⟨hname, hnumber⟩ := append_colon_inj (colon_notMem_ofNat m) (colon_notMem_ofNat n) h
  exact ⟨hname, ofNat_injective hnumber⟩

/-- A definition put into a table by texts, in place of earlier ones. -/
def enter (table : List (Text × Callable)) (c : Callable) : List (Text × Callable) :=
  c.arities.foldl (fun t n => (key c.name n, c) :: t.filter (·.1 ≠ key c.name n)) table

/-- A table by the texts that stand for its keys. -/
def keyed (table : List ((Text × Nat) × Callable)) : List (Text × Callable) :=
  table.map fun e => (key e.1.1 e.1.2, e.2)

theorem key_eq_key_iff {a b : Text} {m n : Nat} : key a m = key b n ↔ (a, m) = (b, n) := by
  constructor
  · intro h
    obtain ⟨rfl, rfl⟩ := key_injective h
    rfl
  · rintro ⟨⟩
    rfl

theorem lookup_keyed (table : List ((Text × Nat) × Callable)) (name : Text) (m : Nat) :
    (keyed table).lookup (key name m) = table.lookup (name, m) := by
  induction table with
  | nil => rfl
  | cons e table ih =>
    obtain ⟨⟨a, n⟩, c⟩ := e
    have hkeys : (key name m == key a n) = ((name, m) == (a, n)) := by
      rw [Bool.eq_iff_iff, beq_iff_eq, beq_iff_eq, key_eq_key_iff]
    rw [keyed, List.map_cons, List.lookup_cons, List.lookup_cons, hkeys]
    cases (name, m) == (a, n) with
    | true => rfl
    | false => exact ih

theorem keyed_insertAll (c : Callable) (table : List ((Text × Nat) × Callable)) :
    keyed (insertAll c c.arities table) = enter (keyed table) c := by
  unfold insertAll enter
  induction c.arities generalizing table with
  | nil => rfl
  | cons n ns ih =>
    rw [List.foldl_cons, List.foldl_cons, ih]
    congr 1
    -- As keys are told apart by their texts, the same entries go out of both tables.
    simp only [keyed, List.map_cons, List.filter_map]
    congr 2
    refine List.filter_congr fun e _ => ?_
    simp only [Function.comp_apply, ne_eq, key_eq_key_iff]

/-- The functions or the mixins of a registry. -/
def table (r : Registry) (isFunction : Bool) : List ((Text × Nat) × Callable) :=
  if isFunction then r.functions else r.mixins

theorem lookup_table (r : Registry) (isFunction : Bool) (name : Text) (m : Nat) :
    (r.table isFunction).lookup (name, m) = r.callable? isFunction name m := by
  cases isFunction <;> rfl

theorem table_define (r : Registry) (c : Callable) (isFunction : Bool) :
    (r.define c).table isFunction =
      if c.isFunction = isFunction then insertAll c c.arities (r.table isFunction)
      else r.table isFunction := by
  unfold define table
  cases c.isFunction <;> cases isFunction <;> rfl

/-- The tables of a history, by the texts that stand for their keys. -/
theorem foldl_enter_eq (history : List Callable) (isFunction : Bool) (r : Registry) :
    (history.filter (·.isFunction = isFunction)).foldl enter (keyed (r.table isFunction)) =
      keyed ((history.foldl define r).table isFunction) := by
  induction history generalizing r with
  | nil => rfl
  | cons c history ih =>
    rw [List.foldl_cons, ← ih, table_define]
    split_ifs with hkind
    · rw [List.filter_cons_of_pos (by simpa using hkind), List.foldl_cons, keyed_insertAll]
    · rw [List.filter_cons_of_neg (by simpa using hkind)]

theorem lookup_foldl_enter (history : List Callable) (isFunction : Bool) (name : Text) (m : Nat) :
    ((history.filter (·.isFunction = isFunction)).foldl enter []).lookup (key name m) =
      (history.foldl define {}).callable? isFunction name m := by
  have hempty : keyed (table {} isFunction) = [] := by cases isFunction <;> rfl
  rw [← hempty, foldl_enter_eq, lookup_keyed, lookup_table]

end Registry

/-- Several registries, each a copy of an earlier one, in which definitions are made: a lookup in
one of them gives the last definition in its own line that answers the call, and nothing if there is
none. No further step changes that but a definition in this registry that answers the call. With
names and numbers run together to one text as keys the tables give the same answers. -/
theorem latest_definition_answers (steps : List Registry.Step) (isFunction : Bool) (name : Text)
    (m : Nat) :
    let rs := steps.foldl (fun rs step => step.apply rs) [{}]
    let hs := steps.foldl (fun hs step => step.record hs) [[]]
    ∀ j r, rs[j]? = some r → ∃ history, hs[j]? = some history ∧
      (∀ c, r.callable? isFunction name m = some c ↔
        IsLatest (·.AnswersTo isFunction name m) history c) ∧
      (r.callable? isFunction name m = none ↔ ∀ c ∈ history, ¬ c.AnswersTo isFunction name m) ∧
      (∀ step : Registry.Step, (∀ c, c.AnswersTo isFunction name m → step ≠ .define j c) →
        ∃ r', (step.apply rs)[j]? = some r' ∧
          r'.callable? isFunction name m = r.callable? isFunction name m) ∧
      ((history.filter (·.isFunction = isFunction)).foldl Registry.enter []).lookup
        (Registry.key name m) = r.callable? isFunction name m := by
  intro rs hs j r hr
  have hrun : rs = hs.map (·.foldl Registry.define {}) := Registry.run_eq steps
  have hline := hr
  rw [hrun, List.getElem?_map, Option.map_eq_some_iff] at hline
  obtain ⟨history, hhistory, rfl⟩ := hline
  exact ⟨history, hhistory, fun c => Registry.callable?_foldl_define_eq_some_iff,
    Registry.callable?_foldl_define_eq_none_iff,
    fun step hstep => Registry.Step.callable?_apply hr hstep,
    Registry.lookup_foldl_enter history isFunction name m⟩

/-- Answers to one argument and to two. -/
def buttonMixin : Callable where
  name := of "button"
  params := [of "$color", of "$size"]
  defaults := [(of "$size", of "2px")]
  body := of "color: $color; size: $size;"

/-- Answers to one argument. -/
def flatButtonMixin : Callable where
  name := of "button"
  params := [of "$color"]
  body := of "color: $color;"

/-- A copy in which the calls with one argument are taken over: those with two are still answered
by the definition made before the copy. -/
theorem flatButtonMixin_answers :
    let steps : List Registry.Step :=
      [.define 0 buttonMixin, .copy 0, .define 1 flatButtonMixin, .define 0 buttonMixin]
    let r : Registry := [buttonMixin, flatButtonMixin].foldl Registry.define {}
    (steps.foldl (fun rs step => step.apply rs) [{}])[1]? = some r ∧
    r.callable? false (of "button") 1 = some flatButtonMixin ∧
    r.callable? false (of "button") 2 = some buttonMixin := by
  intro steps r
  have hr : (steps.foldl (fun rs step => step.apply rs) [{}])[1]? = some r := rfl
  refine ⟨hr, ?_, ?_⟩
  · obtain ⟨history, hhistory, hsome, -⟩ :=
      latest_definition_answers steps false (of "button") 1 1 r hr
    obtain rfl : [buttonMixin, flatButtonMixin] = history := Option.some.inj hhistory
    exact (hsome flatButtonMixin).mpr ⟨[buttonMixin], [], rfl, by decide, nofun⟩
  · obtain ⟨history, hhistory, hsome, -⟩ :=
      latest_definition_answers steps false (of "button") 2 1 r hr
    obtain rfl : [buttonMixin, flatButtonMixin] = history := Option.some.inj hhistory
    exact (hsome buttonMixin).mpr ⟨[], [flatButtonMixin], rfl, by decide, by decide⟩

end Stylesheet
