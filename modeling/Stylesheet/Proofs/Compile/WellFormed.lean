import Stylesheet.Proofs.Compile.Expansion

/-!
# Well-formed stylesheets compile

The body of a block is well formed on its own, wherever the block was found. So the only
texts whose expansion can end at an imbalance are those that are read as a whole: the
stylesheet and its imports. If these are well formed, so is everything nested in them,
and the compilation gives a result.

The argument couples a compilation with itself: the account that a coupling keeps of
where texts come from says that an imbalance is one of the stylesheet or of an import.

## Main definitions

* `reachedTexts` — the texts that a compilation reads as a whole

## Main results

* `Coupling.lawful_same` — a compilation is coupled with itself
* `compiles_of_reached_wellFormed` — no block, mixin, function, loop or condition ends a
  compilation whose stylesheet and imports are well formed
-/

namespace Stylesheet

open Text

/-- The normalized texts that a compilation reads as a whole: the stylesheet, and the
imports it reaches. -/
def reachedTexts (fuel : Nat) (opts : Options) (source : Text) : List Text :=
  normalize source :: (outcome (expandSource fuel opts source) opts.session).2.imports

namespace Coupling

/-- A compilation beside itself, where the texts of blocks are the well-formed ones. -/
def same (opts : Options) : Coupling where
  left := opts
  right := opts
  caches c c' := c = c'
  base t := (locate t).2 = none

variable {opts : Options} {s t : Session}

@[simp] theorem same_left : (same opts).left = opts := rfl

@[simp] theorem same_right : (same opts).right = opts := rfl

theorem related_same : (same opts).Related s t ↔ t = s := by
  constructor
  · intro h
    rw [h.rest, ← h.caches]
  · rintro rfl
    exact ⟨rfl, rfl⟩

theorem alike_modify_same {u : Session → Session} (hlater : s.Later (u s)) :
    (same opts).Alike s (modify u) (modify u) Any := by
  intro t ht
  obtain rfl := related_same.mp ht
  exact ⟨rfl, related_same.mpr rfl, hlater, fun _ _ => trivial, fun _ he => by cases he⟩

/-- A compilation does the same as itself, and the bodies of blocks are well formed. -/
theorem lawful_same (opts : Options) : (same opts).Lawful where
  right_eq := rfl
  base_body hb hbody := locate_eq_none_iff.mpr (balanced_of_mem_locate hb hbody)
  expression := by
    intro en en' h s scope t hscope
    refine alike_get_bind fun u hu => ?_
    obtain rfl := related_same.mp hu
    simp only [same_left, same_right]
    have hfailed (s' : Session) (e : EvalError) :=
      (Engines.reportFailure (C := same opts) (s := s') scope.file t e).bind fun _ _ _ _ =>
        alike_pure (Q := Any)
          (a := (Value.plain (substitute scope.vars Value.text t), false)) trivial
    by_cases hkeep : Engine.cacheable opts.disableCache u.userFunctions t = true
    · simp only [hkeep, if_true]
      cases u.cache.lookup t with
      | some v => exact alike_pure trivial
      | none =>
        refine ((h.env hscope).evalText t).bind fun r s₁ _ _ => ?_
        cases r with
        | error e => exact hfailed s₁ e
        | ok v =>
          exact (alike_modify_same ⟨fun _ h => h, Nat.le_refl _⟩).bind
            fun _ _ _ _ => alike_pure trivial
    · simp only [hkeep]
      refine ((h.env hscope).evalText t).bind fun r s₁ _ _ => ?_
      cases r with
      | error e => exact hfailed s₁ e
      | ok v => exact alike_pure trivial

end Coupling

/-- A compilation that ends at an imbalance has reached an unbalanced text. -/
theorem exists_reached_of_unbalanced {fuel : Nat} {opts : Options} {source : Text}
    {e : SourceError}
    (he : (outcome (expandSource fuel opts source) opts.session).1 = .error (.unbalanced e)) :
    ∃ t ∈ reachedTexts fuel opts source, (locate t).2 ≠ none := by
  by_cases hsource : (locate (normalize source)).2 = none
  · have hends := (Coupling.lawful_same opts).expandSource hsource fuel opts.session
      (Coupling.related_same.mpr rfl)
    obtain ⟨t, hcode, ht⟩ := hends.halts _ he (by simp)
    rcases hcode with hbase | himported
    · exact absurd hbase ht
    · exact ⟨t, List.mem_cons_of_mem _ himported, ht⟩
  · exact ⟨normalize source, List.mem_cons_self, hsource⟩

/-- Well-formedness is inherited by the bodies of blocks, wherever the scan of the text
around them ends. So nothing nested ends a compilation: if the stylesheet and the imports
it reaches are well formed, it gives a result unless it runs out of fuel. -/
theorem compiles_of_reached_wellFormed :
    (∀ (t : Text), ∀ b ∈ (locate t).1, ∀ body, b.body = some body → (locate body).2 = none) ∧
      ∀ (fuel : Nat) (opts : Options) (source : Text),
        (∀ t ∈ reachedTexts fuel opts source, (locate t).2 = none) →
        (compileWith fuel opts source).result ≠ .error .exhausted →
        ∃ compiled, (compileWith fuel opts source).result = .ok compiled := by
  constructor
  · intro t b hb body hbody
    exact locate_eq_none_iff.mpr (balanced_of_mem_locate hb hbody)
  · intro fuel opts source hreached hfuel
    rw [compileWith_eq] at hfuel ⊢
    rcases hout : outcome (expandSource fuel opts source) opts.session with ⟨r, s⟩
    rw [hout] at hfuel
    cases r with
    | ok fragments => exact ⟨_, rfl⟩
    | error halt =>
      cases halt with
      | exhausted => exact absurd rfl hfuel
      | unbalanced e =>
        -- An unbalanced text was reached, against what is assumed of all of them.
        obtain ⟨t, ht, hne⟩ := exists_reached_of_unbalanced (congrArg Prod.fst hout)
        exact absurd (hreached t ht) hne

/-- A stylesheet with an import, a mixin, a function, a condition and a media block. -/
def nestedSource : Text :=
  of "@import \"x\";@mixin m{.b{c:d}}@function f(){@return 1;}" ++
    of ".a{@include m;@media print{e:f()}@if 1<2{g:h}}"

/-- Options under which every import is found. -/
def importOptions : Options := { magic := some fun _ => some (of ".q{.r{x:y}}") }

set_option maxRecDepth 4000 in
theorem nestedSource_compiles :
    (∀ t ∈ reachedTexts 8 importOptions nestedSource, (locate t).2 = none) ∧
      (reachedTexts 8 importOptions nestedSource).length = 2 ∧
      ∃ compiled, (compileWith 8 importOptions nestedSource).result = .ok compiled := by
  have hreached : ∀ t ∈ reachedTexts 8 importOptions nestedSource, (locate t).2 = none := by
    decide +kernel
  have hfuel : (compileWith 8 importOptions nestedSource).result.isOk = true := by decide +kernel
  refine ⟨hreached, by decide +kernel, ?_⟩
  refine compiles_of_reached_wellFormed.2 8 importOptions nestedSource hreached fun h => ?_
  rw [h] at hfuel
  cases hfuel

end Stylesheet
