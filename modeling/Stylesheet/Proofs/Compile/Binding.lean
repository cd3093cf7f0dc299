import Stylesheet.Proofs.Compile.Definitions
import Stylesheet.Proofs.Compile.Presets
import Stylesheet.Proofs.Compile.Returning

/-!
# Arguments and parameters

A call is accepted for the number of its arguments, but its parameters get their values by
position, by name, or from their defaults. The two come to the same thing for a call whose
arguments are all given by position: the parameters left over are at the end and have defaults.
An argument given by name counts as well, but need not be for a parameter that lacks a default, so
a call that is accepted can leave a parameter without a value. Its name then means what it means
outside: a variable of the caller or of the definition, or nothing at all.

## Main definitions

* `Callable.Given` — a call gives a parameter a value, or the parameter has a default
* `Gets` — a parameter gets a value: by name, by position, or from its default
* `Registry.DefinedBy` — a registry holds the definitions made in some order
* `Settles` — what the variables of a body say about the parameters of its call

## Main results

* `Context.lookup_merge` — a variable in two contexts put together
* `Engine.lookup_bindArgs` — the values of parameters
* `given_of_takes` — a call with enough arguments by position
* `accepted_call_binds` — the parameters in the body of a mixin or function
* `namedCall_unbound` — a call that is accepted for an argument that has a default
-/

namespace Stylesheet

open Text

/-! ### Contexts -/

namespace Context

variable {a : Text} {v w : Value} {c d : Context}

/-- The variables come in the order of their names, each once. -/
def Sorted (c : Context) : Prop := c.Pairwise fun e e' => lt e.1 e'.1 = true

theorem mem_set {e : Text × Value} (h : e ∈ c.set a v) : e = (a, v) ∨ e ∈ c := by
  induction c with
  | nil => exact .inl (List.mem_singleton.mp h)
  | cons k c ih =>
    rw [set] at h
    split_ifs at h with hak hlt
    · rcases List.mem_cons.mp h with rfl | hrest
      · exact .inl rfl
      · exact .inr (List.mem_cons_of_mem _ hrest)
    · rcases List.mem_cons.mp h with rfl | hrest
      · exact .inl rfl
      · exact .inr hrest
    · rcases List.mem_cons.mp h with rfl | hrest
      · exact .inr List.mem_cons_self
      · exact (ih hrest).imp_right (List.mem_cons_of_mem _)

theorem Sorted.set (h : c.Sorted) (a : Text) (v : Value) : (c.set a v).Sorted := by
  induction c with
  | nil => exact List.pairwise_singleton _ _
  | cons e c ih =>
    obtain ⟨k, w⟩ := e
    obtain ⟨hfirst, hrest⟩ := List.pairwise_cons.mp h
    rw [Context.set]
    split_ifs with hak hlt
    · subst hak
      exact List.pairwise_cons.mpr ⟨hfirst, hrest⟩
    · refine List.pairwise_cons.mpr ⟨fun e he => ?_, h⟩
      rcases List.mem_cons.mp he with rfl | he
      · exact hlt
      · exact lt_trans hlt (hfirst e he)
    · refine List.pairwise_cons.mpr ⟨fun e he => ?_, ih hrest⟩
      rcases mem_set he with rfl | he
      · exact lt_of_not_lt hak (by simpa using hlt)
      · exact hfirst e he

theorem Sorted.merge (h : c.Sorted) (d : Context) : (c.merge d).Sorted := by
  unfold Context.merge
  induction d generalizing c with
  | nil => exact h
  | cons e d ih => exact ih (h.set e.1 e.2)

/-- A name that is not bound again keeps its value. -/
theorem lookup_merge_of_forall_ne (h : ∀ e ∈ d, e.1 ≠ a) : (c.merge d).lookup a = c.lookup a := by
  unfold merge
  induction d generalizing c with
  | nil => rfl
  | cons e d ih =>
    obtain ⟨he, hd⟩ := List.forall_mem_cons.mp h
    rw [List.foldl_cons, ih hd, lookup_set_of_ne he.symm]

/-- The last binding of a name counts. -/
theorem lookup_merge_of_isLatest (h : IsLatest (fun e : Text × Value => e.1 = a) d (a, v)) :
    (c.merge d).lookup a = some v := by
  obtain ⟨before, after, rfl, -, hafter⟩ := h
  have hsplit : c.merge (before ++ (a, v) :: after) =
      ((c.merge before).set a v).merge after := by
    simp only [merge, List.foldl_append, List.foldl_cons]
  rw [hsplit, lookup_merge_of_forall_ne hafter, lookup_set_self]

/-- A variable in two contexts put together. -/
theorem lookup_merge (hd : d.Sorted) : (c.merge d).lookup a = (d.lookup a).or (c.lookup a) := by
  unfold merge
  induction d generalizing c with
  | nil => rfl
  | cons e d ih =>
    obtain ⟨k, w⟩ := e
    obtain ⟨hfirst, hrest⟩ := List.pairwise_cons.mp hd
    rw [List.foldl_cons, ih hrest, List.lookup_cons]
    by_cases hak : a = k
    · -- No later variable has this name, as the names of those are greater.
      subst hak
      have hnone : d.lookup a = none := by
        rw [List.lookup_eq_none_iff]
        intro e he
        simpa using ne_of_lt (hfirst e he)
      rw [hnone, lookup_set_self, beq_self_eq_true]
      rfl
    · rw [lookup_set_of_ne hak, beq_eq_false_iff_ne.mpr hak]

end Context

/-! ### Where values come from -/

/-- The call gives the parameter a value, by position or by name, or the parameter has a
default. -/
def Callable.Given (c : Callable) (positional : List Value) (keyword : Context) (p : Text) : Prop :=
  p ∈ c.params.take positional.length ∨ (∃ e ∈ keyword, e.1 = p) ∨
    ∃ t, c.defaults.lookup p = some t

/-- The parameter gets the value: that of the last argument with its name, else that of the last
argument at its place, else that of its own default, evaluated with the variables of the definition
and the parameters bound so far. Evaluation starts in the given session. -/
inductive Gets (en : Engine) (c : Callable) (positional : List Value) (keyword : Context)
    (r : Registry) (s : Session) (p : Text) : Value → Prop
  | keyword {v : Value} (h : IsLatest (fun e : Text × Value => e.1 = p) keyword (p, v)) :
      Gets en c positional keyword r s p v
  | positional {v : Value} (hkeyword : ∀ e ∈ keyword, e.1 ≠ p)
      (h : IsLatest (fun e : Text × Value => e.1 = p) (c.params.zip positional) (p, v)) :
      Gets en c positional keyword r s p v
  | default {before after : List Text} {t : Text} {earlier : Context} {v : Value}
      {s₁ s₂ : Session} (hkeyword : ∀ e ∈ keyword, e.1 ≠ p)
      (hpositional : p ∉ c.params.take positional.length)
      (hparams : c.params = before ++ p :: after) (hbefore : p ∉ before)
      (hdefault : c.defaults.lookup p = some t)
      (hearlier : outcome (before.foldlM (en.bindDefault c r)
        (Engine.boundArgs c.params positional keyword)) s = (.ok earlier, s₁))
      (hvalue : outcome (en.calculate ⟨c.context.merge earlier, r, []⟩ t) s₁ = (.ok v, s₂)) :
      Gets en c positional keyword r s p v

theorem map_fst_zip_take (ps : List Text) (vs : List Value) :
    (ps.zip vs).map Prod.fst = ps.take vs.length := by
  induction ps generalizing vs with
  | nil => simp
  | cons p ps ih =>
    cases vs with
    | nil => rfl
    | cons v vs => simp [ih]

namespace Engine

variable {en : Engine} {c : Callable} {r : Registry} {s s' : Session} {b b' : Context} {p a : Text}

theorem lookup_boundArgs_of_positional {ps : List Text} {positional : List Value}
    {keyword : Context} {v : Value} (hkeyword : ∀ e ∈ keyword, e.1 ≠ p)
    (h : IsLatest (fun e : Text × Value => e.1 = p) (ps.zip positional) (p, v)) :
    (boundArgs ps positional keyword).lookup p = some v := by
  rw [boundArgs, Context.lookup_merge_of_forall_ne hkeyword, Context.lookup_merge_of_isLatest h]

theorem lookup_boundArgs_eq_none {ps : List Text} {positional : List Value} {keyword : Context}
    (hkeyword : ∀ e ∈ keyword, e.1 ≠ p) (hpositional : p ∉ ps.take positional.length) :
    (boundArgs ps positional keyword).lookup p = none := by
  have hzip : ∀ e ∈ ps.zip positional, e.1 ≠ p := by
    rintro e he rfl
    refine hpositional ?_
    rw [← map_fst_zip_take]
    exact List.mem_map_of_mem he
  rw [boundArgs, Context.lookup_merge_of_forall_ne hkeyword, Context.lookup_merge_of_forall_ne hzip]
  rfl

/-- A parameter that has a value, or no default, is passed over; any other is bound. -/
theorem outcome_bindDefault (h : outcome (en.bindDefault c r b p) s = (.ok b', s')) :
    (((∃ v, b.lookup p = some v) ∨ c.defaults.lookup p = none) ∧ b' = b ∧ s' = s) ∨
      ∃ t v, b.lookup p = none ∧ c.defaults.lookup p = some t ∧
        outcome (en.calculate ⟨c.context.merge b, r, []⟩ t) s = (.ok v, s') ∧ b' = b.set p v := by
  have hpassed {x : SessionM Context} (hx : x = pure b) (hout : outcome x s = (.ok b', s')) :
      b' = b ∧ s' = s := by
    rw [hx, outcome_pure] at hout
    cases hout
    exact ⟨rfl, rfl⟩
  cases hb : b.lookup p with
  | some v =>
    refine .inl ⟨.inl ⟨v, rfl⟩, hpassed ?_ h⟩
    rw [bindDefault, hb]
  | none =>
    cases hdefault : c.defaults.lookup p with
    | none =>
      refine .inl ⟨.inr rfl, hpassed ?_ h⟩
      rw [bindDefault, hb, hdefault]
    -- Only a parameter that is free and has a default runs anything.
    | some t =>
      rw [bindDefault, hb, hdefault] at h
      dsimp only at h
      obtain ⟨v, s₁, hvalue, hset⟩ := outcome_bind_eq_ok_iff.mp h
      cases hset
      exact .inr ⟨t, v, rfl, rfl, hvalue, rfl⟩

/-- What each parameter keeps, going through them keeps. -/
theorem foldlM_bindDefault_induction {P : Context → Prop} {ps : List Text}
    (hstep : ∀ p ∈ ps, ∀ b b' s s', outcome (en.bindDefault c r b p) s = (.ok b', s') →
      P b → P b')
    (h : outcome (ps.foldlM (en.bindDefault c r) b) s = (.ok b', s')) (hb : P b) : P b' := by
  induction ps generalizing b s with
  | nil =>
    cases h
    exact hb
  | cons p ps ih =>
    -- The session is general: each default starts where the one before it ends.
    rw [List.foldlM_cons] at h
    obtain ⟨b₁, s₁, hfirst, hrest⟩ := outcome_bind_eq_ok_iff.mp h
    refine ih (fun q hq => hstep q (List.mem_cons_of_mem p hq)) hrest ?_
    exact hstep p List.mem_cons_self b b₁ s s₁ hfirst hb

/-- Values that are there are kept. -/
theorem lookup_of_foldlM_bindDefault {ps : List Text} {v : Value}
    (h : outcome (ps.foldlM (en.bindDefault c r) b) s = (.ok b', s'))
    (ha : b.lookup a = some v) : b'.lookup a = some v := by
  refine foldlM_bindDefault_induction (P := fun b => b.lookup a = some v)
    (fun p _ b b' s s' hstep hb => ?_) h ha
  obtain ⟨-, rfl, -⟩ | ⟨t, w, hnone, -, -, rfl⟩ := outcome_bindDefault hstep
  · exact hb
  · have hne : a ≠ p := by
      rintro rfl
      simp [hb] at hnone
    rw [Context.lookup_set_of_ne hne, hb]

/-- None is bound but parameters that have a default. -/
theorem lookup_eq_none_of_foldlM_bindDefault {ps : List Text}
    (h : outcome (ps.foldlM (en.bindDefault c r) b) s = (.ok b', s')) (ha : b.lookup a = none)
    (hps : a ∉ ps ∨ c.defaults.lookup a = none) : b'.lookup a = none := by
  refine foldlM_bindDefault_induction (P := fun b => b.lookup a = none)
    (fun p hp b b' s s' hstep hb => ?_) h ha
  obtain ⟨-, rfl, -⟩ | ⟨t, w, -, hdefault, -, rfl⟩ := outcome_bindDefault hstep
  · exact hb
  · have hne : a ≠ p := by
      rintro rfl
      rcases hps with hnot | hnone
      · exact hnot hp
      · simp [hnone] at hdefault
    rw [Context.lookup_set_of_ne hne, hb]

theorem sorted_of_foldlM_bindDefault {ps : List Text}
    (h : outcome (ps.foldlM (en.bindDefault c r) b) s = (.ok b', s')) (hb : b.Sorted) :
    b'.Sorted := by
  refine foldlM_bindDefault_induction (fun p _ b b' s s' hstep hb => ?_) h hb
  obtain ⟨-, rfl, -⟩ | ⟨t, w, -, -, -, rfl⟩ := outcome_bindDefault hstep
  · exact hb
  · exact hb.set p w

variable {positional : List Value} {keyword : Context} {bound : Context}

/-- A parameter that gets a value has it among the variables of the call. -/
theorem lookup_bindArgs (h : outcome (en.bindArgs c positional keyword r) s = (.ok bound, s'))
    {v : Value} (hp : Gets en c positional keyword r s p v) : bound.lookup p = some v := by
  unfold bindArgs at h
  cases hp with
  | keyword hlatest =>
    exact lookup_of_foldlM_bindDefault h (Context.lookup_merge_of_isLatest hlatest)
  | positional hkeyword hlatest =>
    exact lookup_of_foldlM_bindDefault h (lookup_boundArgs_of_positional hkeyword hlatest)
  | default hkeyword hpositional hparams hbefore hdefault hearlier hvalue =>
    rename_i before after t earlier s₁ s₂
    -- Nothing before the parameter binds it, so its own default does, and that is kept.
    have hnone : earlier.lookup p = none :=
      lookup_eq_none_of_foldlM_bindDefault hearlier (lookup_boundArgs_eq_none hkeyword hpositional)
        (.inl hbefore)
    have hstep : outcome (en.bindDefault c r earlier p) s₁ = (.ok (earlier.set p v), s₂) := by
      rw [bindDefault, hnone, hdefault]
      dsimp only
      rw [outcome_bind, hvalue]
      rfl
    rw [hparams, List.foldlM_append, outcome_bind] at h
    rw [hparams] at hearlier
    rw [hearlier] at h
    dsimp only at h
    rw [List.foldlM_cons, outcome_bind, hstep] at h
    exact lookup_of_foldlM_bindDefault h (Context.lookup_set_self p v earlier)

/-- Going through parameters comes by each of them. -/
theorem exists_outcome_of_foldlM {before after : List Text}
    (h : outcome ((before ++ p :: after).foldlM (en.bindDefault c r) b) s = (.ok b', s')) :
    ∃ b₁ s₁ b₂ s₂, outcome (before.foldlM (en.bindDefault c r) b) s = (.ok b₁, s₁) ∧
      outcome (en.bindDefault c r b₁ p) s₁ = (.ok b₂, s₂) := by
  rw [List.foldlM_append] at h
  obtain ⟨b₁, s₁, hearlier, hrest⟩ := outcome_bind_eq_ok_iff.mp h
  rw [List.foldlM_cons] at hrest
  obtain ⟨b₂, s₂, hstep, -⟩ := outcome_bind_eq_ok_iff.mp hrest
  exact ⟨b₁, s₁, b₂, s₂, hearlier, hstep⟩

/-- A parameter that the call gives a value, or that has a default, gets a value. -/
theorem exists_gets (h : outcome (en.bindArgs c positional keyword r) s = (.ok bound, s'))
    (hp : p ∈ c.params) (hgiven : c.Given positional keyword p) :
    ∃ v, Gets en c positional keyword r s p v := by
  by_cases hkeyword : ∃ e ∈ keyword, e.1 = p
  · obtain ⟨⟨_, v⟩, hlatest⟩ := exists_isLatest hkeyword
    obtain rfl := hlatest.property
    exact ⟨v, .keyword hlatest⟩
  have hnot : ∀ e ∈ keyword, e.1 ≠ p := fun e he hep => hkeyword ⟨e, he, hep⟩
  by_cases hpositional : p ∈ c.params.take positional.length
  · rw [← map_fst_zip_take] at hpositional
    obtain ⟨⟨_, v⟩, hlatest⟩ := exists_isLatest (List.mem_map.mp hpositional)
    obtain rfl := hlatest.property
    exact ⟨v, .positional hnot hlatest⟩
  -- Only its default is left, which is evaluated when the parameters before it are bound.
  obtain ⟨t, hdefault⟩ := (hgiven.resolve_left hpositional).resolve_left hkeyword
  obtain ⟨before, after, hparams, hbefore⟩ := List.eq_append_cons_of_mem hp
  rw [bindArgs, hparams] at h
  obtain ⟨earlier, s₁, b₂, s₂, hearlier, hstep⟩ := exists_outcome_of_foldlM h
  rw [← hparams] at hearlier
  have hnone : earlier.lookup p = none :=
    lookup_eq_none_of_foldlM_bindDefault hearlier (lookup_boundArgs_eq_none hnot hpositional)
      (.inl hbefore)
  obtain ⟨hpassed, -, -⟩ | ⟨_, v, -, hdefault', hvalue, -⟩ := outcome_bindDefault hstep
  · -- It is not passed over: it has no value yet, and has a default.
    simp [hnone, hdefault] at hpassed
  · obtain rfl := Option.some.inj (hdefault.symm.trans hdefault')
    exact ⟨v, .default hnot hpositional hparams hbefore hdefault hearlier hvalue⟩

theorem given_of_gets {v : Value} (h : Gets en c positional keyword r s p v) :
    c.Given positional keyword p := by
  cases h with
  | keyword hlatest =>
    obtain ⟨before, after, rfl, -, -⟩ := hlatest
    exact .inr (.inl ⟨(p, v), by simp, rfl⟩)
  | positional _ hlatest =>
    obtain ⟨before, after, hzip, -, -⟩ := hlatest
    refine .inl ?_
    rw [← map_fst_zip_take, hzip]
    simp
  | default _ _ _ _ hdefault => exact .inr (.inr ⟨_, hdefault⟩)

/-- Any other gets none. -/
theorem lookup_bindArgs_eq_none
    (h : outcome (en.bindArgs c positional keyword r) s = (.ok bound, s'))
    (hp : ¬ c.Given positional keyword p) : bound.lookup p = none := by
  rw [Callable.Given, not_or, not_or, not_exists, not_exists] at hp
  obtain ⟨hpositional, hkeyword, hdefault⟩ := hp
  have hnot : ∀ e ∈ keyword, e.1 ≠ p := fun e he hep => hkeyword e ⟨he, hep⟩
  exact lookup_eq_none_of_foldlM_bindDefault h (lookup_boundArgs_eq_none hnot hpositional)
    (.inr (Option.eq_none_iff_forall_ne_some.mpr hdefault))

theorem sorted_bindArgs (h : outcome (en.bindArgs c positional keyword r) s = (.ok bound, s')) :
    bound.Sorted := by
  refine sorted_of_foldlM_bindDefault h ?_
  have hempty : Context.Sorted [] := List.Pairwise.nil
  exact (hempty.merge _).merge keyword

end Engine

/-! ### Calls that are accepted -/

/-- A call with enough arguments by position gives every parameter a value. -/
theorem given_of_takes {c : Callable} {positional : List Value} (h : c.Takes positional.length)
    (keyword : Context) {p : Text} (hp : p ∈ c.params) : c.Given positional keyword p := by
  rw [← List.take_append_drop positional.length c.params] at hp
  rcases List.mem_append.mp hp with htaken | hleft
  · exact .inl htaken
  · -- Those left over are so few that they all belong to the defaults at the end.
    have hreverse : p ∈ c.params.reverse.take (c.params.length - positional.length) := by
      rw [← List.reverse_drop]
      exact List.mem_reverse.mpr hleft
    have hfew : c.params.length - positional.length ≤ c.defaulted := by
      have hleast := h.1
      omega
    -- The parameters with a default are read from the end, and these are among them.
    have hdefaulted : p ∈ c.params.reverse.takeWhile fun p => (c.defaults.lookup p).isSome := by
      have htakeWhile := List.takeWhile_prefix (l := c.params.reverse)
        fun p => (c.defaults.lookup p).isSome
      rw [List.prefix_iff_eq_take] at htakeWhile
      rw [htakeWhile]
      exact List.take_subset_take_left _ hfew hreverse
    have hsome : (c.defaults.lookup p).isSome :=
      List.mem_takeWhile_imp (p := fun p => (c.defaults.lookup p).isSome) hdefaulted
    exact .inr (.inr (Option.isSome_iff_exists.mp hsome))

/-- The definitions in a registry are those made in this order. -/
structure Registry.DefinedBy (r : Registry) (history : List Callable) : Prop where
  mixins : r.mixins = (history.foldl Registry.define {}).mixins
  functions : r.functions = (history.foldl Registry.define {}).functions

namespace Registry.DefinedBy

variable {r : Registry} {history : List Callable} {c : Callable} {name : Text} {m : Nat}

theorem callable?_eq (h : r.DefinedBy history) (isFunction : Bool) (name : Text) (m : Nat) :
    r.callable? isFunction name m = (history.foldl define {}).callable? isFunction name m := by
  unfold callable? function? mixin?
  rw [h.mixins, h.functions]

/-- Whatever answers a call takes as many arguments. -/
theorem takes_of_callable? (h : r.DefinedBy history) (isFunction : Bool)
    (hc : r.callable? isFunction name m = some c) : c.Takes m := by
  rw [h.callable?_eq] at hc
  exact (callable?_foldl_define_eq_some_iff.mp hc).property.takes

/-- The mixin found for a call without named arguments takes those that it is handed, be they all
joined to one. -/
theorem takes_of_findMixin (h : r.DefinedBy history) {positional args : List Value}
    (hc : Engine.findMixin r name positional [] = some (c, args)) : c.Takes args.length := by
  unfold Engine.findMixin at hc
  split at hc
  · rename_i hfound
    cases hc
    exact h.takes_of_callable? false hfound
  · split at hc
    · rename_i hfound
      cases hfound
    · split at hc
      · obtain ⟨_, hfound, ⟨⟩⟩ := Option.map_eq_some_iff.mp hc
        exact h.takes_of_callable? false hfound
      · cases hc

theorem takes_of_function? (h : r.DefinedBy history) {args : List Entry}
    (hc : r.function? name args.length = some c) (hnamed : byName args = []) :
    c.Takes (byPosition args).length := by
  -- The lookup counts all arguments, and without names all are given by position.
  have hall : args.filter (fun a => a.1.isEmpty) = args := by
    rw [List.filter_eq_self]
    intro a ha
    rw [byName, List.map_eq_nil_iff, List.filter_eq_nil_iff] at hnamed
    simpa using hnamed a ha
  rw [byPosition, List.length_map, hall]
  exact h.takes_of_callable? true hc

end Registry.DefinedBy

/-! ### The variables of a body -/

/-- What the variables of a body say about the parameters of its call, where `outer` is what they
are put over. Those that the call gives a value, or that have a default, have the value that they
get; the others are what they are outside. A call without named arguments leaves none over, nor
does one with as many arguments by position as the callable takes. -/
structure Settles (en : Engine) (c : Callable) (positional : List Value) (keyword : Context)
    (r : Registry) (s : Session) (outer vars : Context) : Prop where
  given : ∀ p ∈ c.params, c.Given positional keyword p →
    ∃ v, Gets en c positional keyword r s p v ∧ vars.lookup p = some v
  unbound : ∀ p ∈ c.params, ¬ c.Given positional keyword p →
    (∀ v, ¬ Gets en c positional keyword r s p v) ∧ vars.lookup p = outer.lookup p
  counted : keyword = [] ∨ c.Takes positional.length →
    ∀ p ∈ c.params, c.Given positional keyword p

theorem settles_of_bindArgs {en : Engine} {c : Callable} {positional : List Value}
    {keyword bound : Context} {r : Registry} {s s' : Session} (outer : Context)
    (h : outcome (en.bindArgs c positional keyword r) s = (.ok bound, s'))
    (htakes : keyword = [] → c.Takes positional.length) :
    Settles en c positional keyword r s outer (outer.merge bound) where
  given p hp hgiven := by
    obtain ⟨v, hv⟩ := Engine.exists_gets h hp hgiven
    refine ⟨v, hv, ?_⟩
    rw [Context.lookup_merge (Engine.sorted_bindArgs h), Engine.lookup_bindArgs h hv]
    rfl
  unbound p _ hgiven := by
    refine ⟨fun v hv => hgiven (Engine.given_of_gets hv), ?_⟩
    rw [Context.lookup_merge (Engine.sorted_bindArgs h), Engine.lookup_bindArgs_eq_none h hgiven]
    rfl
  counted hcounted p hp := given_of_takes (hcounted.elim htakes id) keyword hp

/-- A mixin is expanded with the variables of its call over those of its definition and those in
force, and leaves the latter as they were. -/
theorem outcome_doInclude {en : Engine} {frame : Frame} {header name : Text} {m m₁ m₂ : Moment}
    {positional args : List Value} {keyword bound : Context} {c : Callable} {s : Session}
    (hname : Gives (en.textIn frame (splitCall header).1) m name m₁)
    (hargs : Gives (en.includeArgs frame (argTexts (splitCall header).2)) m₁ (positional, keyword)
      m₂)
    (hc : Engine.findMixin m₂.1.registry (trim name) positional keyword = some (c, args))
    (hbound : outcome (en.bindArgs c args keyword m₂.1.registry) m₂.2 = (.ok bound, s)) :
    outcome ((en.doInclude frame header).run m.1) m.2 =
      outcome ((do
        discard (en.expand { frame with dir := c.dir } c.body)
        modify fun inner => { inner with vars := m₂.1.vars } : ExpandM Unit).run
          { m₂.1 with vars := (m₂.1.vars.merge c.context).merge bound }) s := by
  unfold Engine.doInclude
  dsimp only
  have hlocals : outcome ((get : ExpandM Locals).run m₂.1) m₂.2 = (.ok (m₂.1, m₂.1), m₂.2) := rfl
  rw [outcome_run_bind hname, outcome_run_bind hargs, outcome_run_bind hlocals, hc]
  dsimp only
  rw [outcome_run_bind (outcome_run_lift hbound m₂.1)]
  rfl

theorem outcome_functionResult {en : Engine} {scope : Scope} {args : List Entry}
    {bound : Context} {c : Callable} {s s₁ : Session}
    (hbound : outcome (en.bindArgs c (byPosition args) (byName args) scope.registry) s =
      (.ok bound, s₁)) :
    outcome (en.functionResult c args scope) s =
      outcome (do
        match ← (en.expand { spawns := false, file := scope.file, dir := c.dir } c.body).run
          { vars := c.context.merge bound, registry := scope.registry } with
        | (.returned (some v), _) => return v
        | _ => return .plain []) s₁ := by
  unfold byPosition byName at hbound
  rw [Engine.functionResult, outcome_bind, hbound]
  dsimp only
  refine congrArg (outcome · s₁) (bind_congr fun r => ?_)
  obtain ⟨_ | _ | v, l⟩ := r <;> rfl

/-- A call for which a mixin or a function is found runs its body with the variables of the call
over those outside: a parameter has the value of the last argument with its name, else of that at
its place, else of its default; it has none, and is what it is outside, if and only if the call has
neither argument for it and it has no default. That does not happen to a call whose arguments are
all given by position, also where they are joined to one, nor to one with enough of these. -/
theorem accepted_call_binds (en : Engine) (history : List Callable) :
    (∀ (frame : Frame) (header name : Text) (m m₁ m₂ : Moment) (positional args : List Value)
      (keyword bound : Context) (c : Callable) (s : Session),
      m₂.1.registry.DefinedBy history →
      Gives (en.textIn frame (splitCall header).1) m name m₁ →
      Gives (en.includeArgs frame (argTexts (splitCall header).2)) m₁ (positional, keyword) m₂ →
      Engine.findMixin m₂.1.registry (trim name) positional keyword = some (c, args) →
      outcome (en.bindArgs c args keyword m₂.1.registry) m₂.2 = (.ok bound, s) →
      let outer := m₂.1.vars.merge c.context
      outcome ((en.doInclude frame header).run m.1) m.2 =
          outcome ((do
            discard (en.expand { frame with dir := c.dir } c.body)
            modify fun inner => { inner with vars := m₂.1.vars } : ExpandM Unit).run
              { m₂.1 with vars := outer.merge bound }) s ∧
        Settles en c args keyword m₂.1.registry m₂.2 outer (outer.merge bound)) ∧
    ∀ (scope : Scope) (name : Text) (args : List Entry) (bound : Context) (c : Callable)
      (s s₁ : Session),
      scope.registry.DefinedBy history →
      scope.registry.function? name args.length = some c →
      outcome (en.bindArgs c (byPosition args) (byName args) scope.registry) s = (.ok bound, s₁) →
      outcome (en.functionResult c args scope) s =
          outcome (do
            match ← (en.expand { spawns := false, file := scope.file, dir := c.dir } c.body).run
              { vars := c.context.merge bound, registry := scope.registry } with
            | (.returned (some v), _) => return v
            | _ => return .plain []) s₁ ∧
        Settles en c (byPosition args) (byName args) scope.registry s c.context
          (c.context.merge bound) := by
  constructor
  · intro frame header name m m₁ m₂ positional args keyword bound c s hr hname hargs hc hbound outer
    refine ⟨outcome_doInclude hname hargs hc hbound, settles_of_bindArgs outer hbound ?_⟩
    -- The mixin that is found takes as many arguments as are left to bind by position.
    rintro rfl
    exact hr.takes_of_findMixin hc
  · intro scope name args bound c s s₁ hr hc hbound
    refine ⟨outcome_functionResult hbound, settles_of_bindArgs c.context hbound ?_⟩
    exact hr.takes_of_function? hc

/-- The second parameter has the first for a default. -/
def cardMixin : Callable where
  name := of "card"
  params := [of "$edge", of "$gap", of "$fill"]
  defaults := [(of "$gap", of "$edge"), (of "$fill", of "white")]
  body := of "margin: $edge; gap: $gap; color: $fill;"

/-- The same as a function. -/
def cardFunction : Callable := { cardMixin with isFunction := true }

/-- One argument by position, one by name, and one left to its default. -/
theorem cardMixin_binds :
    let en := engine {} 3
    let r : Registry := [cardMixin, cardFunction].foldl Registry.define {}
    let l : Locals := { registry := r }
    let edge : Value := .plain (of "3px")
    let keyword : Context := [(of "$fill", .plain (of "black"))]
    let bound : Context :=
      [(of "$edge", edge), (of "$fill", .plain (of "black")), (of "$gap", .ofMeasure 3 (of "px"))]
    let args : List Entry := [([], edge), (of "fill", .plain (of "black"))]
    Gives (en.textIn {} (of "card")) (l, {}) (of "card") (l, {}) ∧
    Gives (en.includeArgs {} (argTexts (of "3px, $fill: black"))) (l, {}) ([edge], keyword)
      (l, {}) ∧
    Settles en cardMixin [edge] keyword r {} [] bound ∧
    Settles en cardFunction (byPosition args) (byName args) r {} [] bound := by
  intro en r l edge keyword bound args
  have hname : Gives (en.textIn {} (of "card")) (l, {}) (of "card") (l, {}) := rfl
  have hargs : Gives (en.includeArgs {} (argTexts (of "3px, $fill: black"))) (l, {})
      ([edge], keyword) (l, {}) := rfl
  have hmixin : Engine.findMixin r (of "card") [edge] keyword = some (cardMixin, [edge]) := rfl
  have hbound : outcome (en.bindArgs cardMixin [edge] keyword r) {} = (.ok bound, {}) := rfl
  have hfunction : r.function? (of "card") args.length = some cardFunction := rfl
  have hbound' : outcome (en.bindArgs cardFunction (byPosition args) (byName args) r) {} =
      (.ok bound, {}) := rfl
  obtain ⟨hinclude, hcall⟩ := accepted_call_binds en [cardMixin, cardFunction]
  have hsettled := (hinclude {} (of "card(3px, $fill: black)") (of "card") (l, {}) (l, {}) (l, {})
    [edge] [edge] keyword bound cardMixin {} ⟨rfl, rfl⟩ hname hargs hmixin hbound).2
  have hsettled' := (hcall ⟨[], r, []⟩ (of "card") args bound cardFunction {} {} ⟨rfl, rfl⟩
    hfunction hbound').2
  exact ⟨hname, hargs, hsettled, hsettled'⟩

/-- The second parameter has a default and the first has none. -/
def boxMixin : Callable where
  name := of "box"
  params := [of "$width", of "$height"]
  defaults := [(of "$height", of "1px")]
  body := of "width: $width; height: $height;"

/-- A single argument is accepted, as the second parameter has a default; but it is given for that
parameter by name, and the first one has no value. -/
theorem namedCall_unbound :
    let r : Registry := [boxMixin].foldl Registry.define {}
    let keyword : Context := [(of "$height", .ofMeasure 2 (of "px"))]
    Engine.findMixin r (of "box") [] keyword = some (boxMixin, []) ∧
    outcome ((engine {} 3).bindArgs boxMixin [] keyword r) {} = (.ok keyword, {}) ∧
    of "$width" ∈ boxMixin.params ∧ ¬ boxMixin.Given [] keyword (of "$width") ∧
    ((Context.merge [] boxMixin.context).merge keyword).lookup (of "$width") = none := by
  intro r keyword
  have hgiven : ¬ boxMixin.Given [] keyword (of "$width") := by
    rintro (hposition | ⟨e, he, hwidth⟩ | ⟨t, hdefault⟩)
    · cases hposition
    · rw [List.mem_singleton.mp he] at hwidth
      exact absurd hwidth (by decide)
    · exact absurd hdefault nofun
  exact ⟨rfl, rfl, List.mem_cons_self, hgiven, rfl⟩

end Stylesheet
