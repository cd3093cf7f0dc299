import Stylesheet.Proofs.Compile.Expansion

/-!
# More fuel

The fuel of a compilation bounds how deep expansion nests and how many fragments there are,
and nothing else. This file shows so: a compilation that does not run out of fuel does the
same with more of it.

## Main definitions

* `Persists` — a computation does what another does, unless that one runs out of fuel

## Main results

* `permeating_persists` — this goes through expansion
* `outcome_expandSource_of_le` — fragments are found alike with more fuel
* `compileWith_of_le` — a compilation does the same with more fuel
-/

namespace Stylesheet

open Text

variable {α β : Type}

/-- The right computation does what the left one does, unless the fuel of that is used up. -/
def Persists (x y : SessionM α) : Prop :=
  ∀ s, (outcome x s).1 ≠ .error .exhausted → outcome y s = outcome x s

theorem persists_refl (x : SessionM α) : Persists x x := fun _ _ => rfl

theorem persists_exhausted (y : SessionM α) : Persists (throw .exhausted) y :=
  fun _ hne => absurd rfl hne

namespace Persists

theorem bind {x y : SessionM α} {f g : α → SessionM β} (h : Persists x y)
    (hf : ∀ a, Persists (f a) (g a)) : Persists (x >>= f) (y >>= g) := by
  intro s hne
  have hx := h s
  rw [outcome_bind] at hne ⊢
  rw [outcome_bind]
  generalize outcome x s = o at hx hne ⊢
  obtain ⟨r, s₁⟩ := o
  cases r with
  | error e =>
    rw [hx fun h => hne (by cases h; rfl)]
  | ok a =>
    rw [hx (by simp)]
    exact hf a s₁ hne

theorem tryCatch {x y : SessionM α} {f : Halt → SessionM α} (h : Persists x y)
    (hf : f .exhausted = throw .exhausted) :
    Persists (MonadExcept.tryCatch x f) (MonadExcept.tryCatch y f) := by
  intro s hne
  have hx := h s
  rw [outcome_tryCatch] at hne ⊢
  rw [outcome_tryCatch]
  generalize outcome x s = o at hx hne ⊢
  obtain ⟨r, s₁⟩ := o
  cases r with
  | ok a => rw [hx (by simp)]
  | error e =>
    rw [hx]
    rintro ⟨⟩
    exact hne (by simp only [hf]; rfl)

/-- Running out of fuel is no error of a call. -/
theorem callFunction {en en' : Engine} {fn : Callable} {args : List Entry} {scope : Scope}
    (h : Persists (en.functionResult fn args scope) (en'.functionResult fn args scope)) :
    Persists (en.callFunction fn args scope) (en'.callFunction fn args scope) := by
  intro s hne
  have hresult := h { s with depth := s.depth + 1 }
  rw [outcome_callFunction] at hne ⊢
  rw [outcome_callFunction]
  split_ifs at hne ⊢
  · rfl
  generalize outcome (en.functionResult fn args scope) { s with depth := s.depth + 1 } = o
    at hresult hne ⊢
  rw [hresult]
  intro hexhausted
  obtain ⟨r, s₁⟩ := o
  cases hexhausted
  exact hne rfl

theorem evaluateExpr {en en' : Engine} {opts : Options} {scope : Scope} {t : Text}
    (h : Persists (evalText (en.env opts.functions scope) t)
      (evalText (en'.env opts.functions scope) t)) :
    Persists (en.evaluateExpr opts scope t) (en'.evaluateExpr opts scope t) := by
  refine (persists_refl _).bind fun s => ?_
  dsimp only
  split
  · exact persists_refl _
  · exact h.bind fun r => persists_refl _

theorem expandLoaded {en en' : Engine} {frame : Frame} {src : Loaded}
    (h : ∀ l, Persists
      ((en.expand { frame with file := src.file, dir := src.dir } (src.text.map (·.1))).run l)
      ((en'.expand { frame with file := src.file, dir := src.dir } (src.text.map (·.1))).run l))
    (l : Locals) :
    Persists ((en.expandLoaded frame src).run l) ((en'.expandLoaded frame src).run l) := by
  intro s hne
  have hexpand := h
    { l with registry := { l.registry with imported := src.file :: l.registry.imported } }
    { s with imports := src.text.map (·.1) :: s.imports }
  rw [outcome_expandLoaded] at hne ⊢
  rw [outcome_expandLoaded]
  generalize outcome (StateT.run (en.expand _ _) _) _ = o at hexpand hne ⊢
  rw [hexpand]
  intro hexhausted
  obtain ⟨r, s₁⟩ := o
  cases hexhausted
  exact hne rfl

end Persists

theorem congruent_persists : Congruent Persists := ⟨fun _ => persists_refl _, Persists.bind⟩

/-- Doing the same with more fuel goes through expansion, whatever the text. -/
theorem permeating_persists (opts : Options) :
    Permeating opts (fun _ => True) (fun _ => True) (fun _ _ x y => Persists x y)
      (fun _ _ _ x y => ∀ l, Persists (x.run l) (y.run l)) where
  congruent _ := congruent_persists
  exhausted := persists_exhausted _
  halted _ := persists_exhausted _
  report _ _ _ := persists_refl _
  count := persists_refl _
  call := Persists.callFunction
  expression := Persists.evaluateExpr
  pure _ _ := persists_refl _
  throw _ _ := persists_refl _
  bind hx hf l := (hx l).bind fun r => hf r.1 r.2
  lift hx l := hx.bind fun _ => persists_refl _
  enter _ hx := hx _
  read hlocal hlocal' hf l := by
    have hread := hf False False.elim l.vars l.registry False.elim l
    rw [← hlocal, ← hlocal'] at hread
    exact hread
  modify _ _ := persists_refl _
  spawn _ _ _ _ := persists_refl _
  imported _ hexpand := Persists.expandLoaded (hexpand False False.elim)
  fits _ _ _ :=
    ⟨fun _ _ _ => trivial, fun _ _ _ _ => persists_refl _, fun _ _ _ _ => persists_refl _⟩

theorem persists_expandPending {en en' : Engine}
    (h : ∀ frame code l, Persists ((en.expand frame code).run l) ((en'.expand frame code).run l))
    (order : Nat) (p : Pending) :
    Persists (expandPending en order p) (expandPending en' order p) := by
  unfold expandPending
  dsimp only
  split_ifs
  · exact persists_refl _
  · exact (h _ _ _).bind fun r => persists_refl _

/-- The fragments waiting, by induction on the fuel that bounds how many there are. -/
theorem persists_drain {en en' : Engine}
    (h : ∀ frame code l, Persists ((en.expand frame code).run l) ((en'.expand frame code).run l))
    (fuel more order : Nat) (queue : List Pending) :
    Persists (drain en fuel order queue) (drain en' (fuel + more) order queue) := by
  induction fuel generalizing order queue with
  | zero =>
    cases queue with
    | nil => rw [drain, drain]; exact persists_refl _
    | cons p queue => exact persists_exhausted _
  | succ fuel ih =>
    rw [Nat.succ_add]
    cases queue with
    | nil => exact persists_refl _
    | cons p queue =>
      exact (persists_expandPending h order p).bind fun r =>
        (ih _ _).bind fun _ => persists_refl _

variable {fuel fuel' : Nat} {opts : Options} {source : Text}

/-- The fragments of a stylesheet are found alike with more fuel. -/
theorem outcome_expandSource_of_le (hle : fuel ≤ fuel') {s : Session}
    (hne : (outcome (expandSource fuel opts source) s).1 ≠ .error .exhausted) :
    outcome (expandSource fuel' opts source) s = outcome (expandSource fuel opts source) s := by
  obtain ⟨more, rfl⟩ := Nat.exists_eq_add_of_le hle
  have hcarries := (permeating_persists opts).engine (fun _ => trivial) fuel more
  have hdrain := persists_drain (fun frame _ => hcarries.expand frame fun h : False => h.elim)
    fuel more 0 [rootFragment opts ((normalizeTracked source).map (·.1))]
  unfold expandSource at hne ⊢
  refine hdrain.tryCatch ?_ s hne
  rfl

/-- A compilation that has enough fuel does the same with more of it: the same error or the
same text, and the same diagnostics. -/
theorem compileWith_of_le (hle : fuel ≤ fuel')
    (hne : (compileWith fuel opts source).result ≠ .error .exhausted) :
    compileWith fuel' opts source = compileWith fuel opts source := by
  rw [compileWith_eq] at hne ⊢
  rw [compileWith_eq, outcome_expandSource_of_le hle]
  intro hexhausted
  generalize outcome (expandSource fuel opts source) opts.session = o at hne hexhausted
  obtain ⟨r, s⟩ := o
  cases hexhausted
  exact hne rfl

end Stylesheet
