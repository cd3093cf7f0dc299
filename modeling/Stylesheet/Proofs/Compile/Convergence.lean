import Stylesheet.Proofs.Compile.Fuel
import Stylesheet.Proofs.Output.Tree

/-!
# Enough fuel

A computation that is given more and more fuel converges if from some fuel on it ends alike,
and not for want of fuel. Then it has come to an end that no bound imposed. This file has the
rules for it: sequences converge if their parts do, and evaluation does as long as no function
of the stylesheet is in scope, since what is interpolated in a text is shorter than the text.

## Main definitions

* `Converges` — computations that end alike with enough fuel

## Main results

* `Converges.bind`, `Converges.of_succ` — the rules
* `Converges.evaluate_of_evaluateWith` — evaluation
-/

namespace Stylesheet

open Text

variable {α β : Type}

/-- From some fuel on the computations end alike, and not for want of fuel; a value they end
with satisfies `post`. -/
def Converges (x : Nat → SessionM α) (post : α → Prop) : Prop :=
  ∀ s, ∃ n o, (∀ m ≥ n, outcome (x m) s = o) ∧ o.1 ≠ .error .exhausted ∧
    ∀ a, o.1 = .ok a → post a

variable {P Q : α → Prop}

/-- What takes no fuel converges if it does not claim to lack any. -/
theorem converges_of_forall_outcome {x : Nat → SessionM α}
    (h : ∀ s, ∃ o, (∀ n, outcome (x n) s = o) ∧ o.1 ≠ .error .exhausted ∧
      ∀ a, o.1 = .ok a → P a) : Converges x P := by
  intro s
  obtain ⟨o, ho, hrest⟩ := h s
  exact ⟨0, o, fun m _ => ho m, hrest⟩

theorem converges_pure {a : α} (ha : P a) : Converges (fun _ => pure a) P := by
  refine converges_of_forall_outcome fun s => ⟨(.ok a, s), fun _ => rfl, nofun, fun b hb => ?_⟩
  cases hb
  exact ha

theorem converges_throw (e : SourceError) : Converges (fun _ => throw (.unbalanced e)) P :=
  converges_of_forall_outcome fun s => ⟨(.error (.unbalanced e), s), fun _ => rfl, nofun, nofun⟩

theorem converges_get : Converges (fun _ => (get : SessionM Session)) fun _ => True :=
  converges_of_forall_outcome fun s => ⟨(.ok s, s), fun _ => rfl, nofun, fun _ _ => trivial⟩

theorem converges_modify (u : Session → Session) : Converges (fun _ => modify u) fun _ => True :=
  converges_of_forall_outcome fun s => ⟨(.ok (), u s), fun _ => rfl, nofun, fun _ _ => trivial⟩

theorem converges_report (severity : Severity) (file message : Text) :
    Converges (fun _ => report severity file message) fun _ => True :=
  converges_modify _

namespace Converges

theorem mono {x : Nat → SessionM α} (h : Converges x P) (hPQ : ∀ a, P a → Q a) :
    Converges x Q := by
  intro s
  obtain ⟨n, o, ho, hne, hP⟩ := h s
  exact ⟨n, o, ho, hne, fun a ha => hPQ a (hP a ha)⟩

/-- A sequence converges if its parts do: enough for both is the greater fuel. -/
theorem bind {x : Nat → SessionM α} {f : Nat → α → SessionM β} {Q : β → Prop}
    (h : Converges x P) (hf : ∀ a, P a → Converges (fun n => f n a) Q) :
    Converges (fun n => x n >>= f n) Q := by
  intro s
  obtain ⟨n, ⟨r, s₁⟩, ho, hne, hP⟩ := h s
  cases r with
  | error e =>
    refine ⟨n, (.error e, s₁), fun m hm => ?_, fun he => hne ?_, nofun⟩
    · rw [outcome_bind, ho m hm]
    · cases he
      rfl
  | ok a =>
    obtain ⟨k, o, hk, hrest⟩ := hf a (hP a rfl) s₁
    refine ⟨max n k, o, fun m hm => ?_, hrest⟩
    rw [outcome_bind, ho m (by omega)]
    exact hk m (by omega)

theorem ite {c : Prop} [Decidable c] {x y : Nat → SessionM α} (hx : Converges x P)
    (hy : Converges y P) : Converges (fun n => if c then x n else y n) P := by
  split_ifs
  · exact hx
  · exact hy

/-- The first fuel may be left out. -/
theorem of_succ {x : Nat → SessionM α} (h : Converges (fun n => x (n + 1)) P) :
    Converges x P := by
  intro s
  obtain ⟨n, o, ho, hrest⟩ := h s
  refine ⟨n + 1, o, fun m hm => ?_, hrest⟩
  obtain ⟨k, rfl⟩ : ∃ k, m = k + 1 := ⟨m - 1, by omega⟩
  exact ho k (by omega)

/-- More fuel than the other side has does no harm. -/
theorem add {x : Nat → SessionM α} (h : Converges x P) (k : Nat) :
    Converges (fun n => x (n + k)) P := by
  intro s
  obtain ⟨n, o, ho, hrest⟩ := h s
  exact ⟨n, o, fun m hm => ho (m + k) (by omega), hrest⟩

theorem mapM {f : Nat → α → SessionM β} {items : List α}
    (h : ∀ a ∈ items, Converges (fun n => f n a) fun _ => True) :
    Converges (fun n => items.mapM (f n)) fun _ => True := by
  induction items with
  | nil => exact converges_pure trivial
  | cons a items ih =>
    obtain ⟨ha, hitems⟩ := List.forall_mem_cons.mp h
    simp only [List.mapM_cons]
    exact ha.bind fun _ _ => (ih hitems).bind fun _ _ => converges_pure trivial

end Converges

/-! ### Evaluation -/

section Evaluation

variable {en : Nat → Engine} {opts : Options} {scope : Scope}

/-- Two computations that end alike, and not for want of fuel. -/
def EndsAlike (x y : SessionM α) : Prop :=
  ∀ s, outcome x s = outcome y s ∧ (outcome y s).1 ≠ .error .exhausted

theorem congruent_endsAlike : Congruent EndsAlike where
  pure a s := ⟨rfl, nofun⟩
  bind {α β x y f g} hx hf s := by
    obtain ⟨heq, hne⟩ := hx s
    rw [outcome_bind, outcome_bind, heq]
    generalize outcome y s = o at hne
    obtain ⟨r, s₁⟩ := o
    cases r with
    | error e => exact ⟨rfl, fun he => hne (by cases he; rfl)⟩
    | ok a => exact hf a s₁

/-- Without functions of the stylesheet an expression is evaluated against the table alone. -/
theorem converges_evalText (hnone : scope.registry.functions = []) (functions : Table) (t : Text) :
    Converges (fun n => evalText ((en n).env functions scope) t) fun _ => True := by
  have hends (n : Nat) : EndsAlike (evalText ((en n).env functions scope) t)
      (evalText ((en 0).env functions scope) t) :=
    congruent_endsAlike.evalIn (fun e he => by simp [hnone] at he) functions t
  exact converges_of_forall_outcome fun s =>
    ⟨_, fun n => (hends n s).1, (hends 0 s).2, fun _ _ => trivial⟩

theorem converges_reportFailure (file t : Text) (e : EvalError) :
    Converges (fun _ => Engine.reportFailure file t e) fun _ => True := by
  unfold Engine.reportFailure
  split
  · exact converges_report _ _ _
  · exact converges_get.bind fun s _ => .ite (converges_report _ _ _) (converges_pure trivial)

theorem converges_evaluateExpr (hnone : scope.registry.functions = []) (t : Text) :
    Converges (fun n => (en n).evaluateExpr opts scope t) fun _ => True := by
  refine converges_get.bind fun s _ => ?_
  dsimp only
  split
  · exact converges_pure trivial
  · refine (converges_evalText hnone opts.functions t).bind fun r _ => ?_
    cases r with
    | error e => exact (converges_reportFailure _ t e).bind fun _ _ => converges_pure trivial
    | ok v =>
      exact .ite ((converges_modify _).bind fun _ _ => converges_pure trivial)
        (converges_pure trivial)

theorem Converges.calculate {t : Text}
    (h : Converges (fun n => (en n).evaluate scope t) fun _ => True) :
    Converges (fun n => (en n).calculate scope t) fun _ => True :=
  h.bind fun _ _ => converges_pure trivial

theorem Converges.interpolate {t : Text}
    (h : ∀ e, .expr e ∈ segments t → Converges (fun n => (en n).evaluate scope e) fun _ => True) :
    Converges (fun n => (en n).interpolate scope t) fun _ => True := by
  refine (Converges.mapM fun i hi => ?_).bind fun _ _ => converges_pure trivial
  cases i with
  | text t => exact converges_pure trivial
  | expr e => exact (h e hi).calculate.bind fun _ _ => converges_pure trivial

/-- An expression interpolated in a text is shorter than the text. -/
theorem length_lt_of_mem_segmentsFrom {skip : Nat} {part t e : Text}
    (he : .expr e ∈ segmentsFrom skip part t) : e.length < t.length := by
  fun_induction segmentsFrom skip part t with
  | case1 => simp at he
  | case2 part c r hopen stop hstop ih =>
    simp only [List.mem_cons, reduceCtorEq, false_or, Segment.expr.injEq] at he
    rcases he with rfl | he
    · simp only [slice, List.length_drop, List.length_take, List.length_cons]
      omega
    · exact Nat.lt_succ_of_lt (ih he)
  | case3 => simp at he
  | case4 part c r hopen ih => exact Nat.lt_succ_of_lt (ih he)
  | case5 part k c r ih => exact Nat.lt_succ_of_lt (ih he)

theorem length_lt_of_mem_segments {t e : Text} (he : .expr e ∈ segments t) :
    e.length < t.length :=
  length_lt_of_mem_segmentsFrom he

/-- Engines that evaluate a text with engines that have one fuel less evaluate it in the end,
by induction on the length of the text. -/
theorem converges_evaluate (hstep : ∀ n, (en (n + 1)).evaluate = (en n).evaluateWith opts)
    (hnone : scope.registry.functions = []) (t : Text) :
    Converges (fun n => (en n).evaluate scope t) fun _ => True := by
  induction hlength : t.length using Nat.strong_induction_on generalizing t with
  | _ k ih =>
    refine Converges.of_succ ?_
    simp only [hstep]
    refine (Converges.interpolate fun e he => ?_).bind fun t _ => ?_
    · have hlt := length_lt_of_mem_segments he
      have hle := length_trim_le t
      exact ih _ (by omega) e rfl
    · exact .ite (converges_pure trivial) (converges_evaluateExpr hnone t)

end Evaluation

end Stylesheet
