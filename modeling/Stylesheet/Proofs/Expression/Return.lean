import Stylesheet.Proofs.Expression.Simulation

/-!
# Evaluation returns

Whatever the variables hold, a descent ends with the value of the text or with its error. No index
that it uses is out of range, and the set of the variables being expanded is the same afterwards as
before, whether there is a value or an error.

That it ends rests on two measures. The tokens of one text are used up, and the text of a variable
is evaluated only if the variable is not in the set, so that with each text inside another there is
one variable less to expand.

## Main definitions

* `Env.unresolved` — the variables that are not being expanded
* `Descent.enough` — fuel for a text and the texts of all variables inside each other

## Main results

* `Descent.looksUp_variableValue` — the descent into a variable gives its value
* `Descent.eval_returns` — the descent gives the value of a text, and leaves the set as it was
-/

namespace Stylesheet

open Text

variable {m : Type → Type} {env : Env m} {valueOf : Text → m Value} {s : Finset Text}
  {source : Text} {extra fuel : Nat}

/-- Tokens that are in order are no more than the bytes they span, and the end. -/
theorem Spanned.length_le {pos stop : Nat} {ts : List Token} (h : Spanned source stop pos ts) :
    ts.length + pos ≤ stop + 1 := by
  induction h with
  | done h =>
    rw [List.length_singleton]
    omega
  | token hpos ht _ _ ih =>
    have hlt := ht.start_lt
    rw [List.length_cons]
    omega

/-- The variables that are not being expanded. -/
def Env.unresolved (env : Env m) (s : Finset Text) : Finset Text :=
  (env.vars.map Prod.fst).toFinset \ s

/-- The length of all variables together. -/
def Env.width (env : Env m) : Nat := (env.vars.map fun x => x.2.text.length).sum

theorem Env.mem_of_var? {name : Text} {v : Value} (h : env.var? name = some v) :
    (name, v) ∈ env.vars := by
  obtain ⟨before, after, hvars, -⟩ := List.lookup_eq_some_iff.mp h
  simp [hvars]

theorem Env.length_le_width {name t : Text} (h : env.var? name = some (.plain t)) :
    t.length ≤ env.width :=
  List.le_sum_of_mem (List.mem_map.mpr ⟨_, Env.mem_of_var? h, rfl⟩)

/-- One variable less is left when it is being expanded. -/
theorem Env.card_unresolved_lt {name : Text} {v : Value} (h : env.var? name = some v)
    (hname : name ∉ s) : (env.unresolved (insert name s)).card < (env.unresolved s).card := by
  have hmem : name ∈ env.unresolved s := by
    refine Finset.mem_sdiff.mpr ⟨List.mem_toFinset.mpr ?_, hname⟩
    exact List.mem_map.mpr ⟨_, Env.mem_of_var? h, rfl⟩
  rw [Env.unresolved, Finset.sdiff_insert]
  exact Finset.card_erase_lt_of_mem hmem

theorem Env.card_unresolved_le (env : Env m) (s : Finset Text) :
    (env.unresolved s).card ≤ env.vars.length := by
  calc (env.unresolved s).card
      ≤ (env.vars.map Prod.fst).toFinset.card := Finset.card_le_card Finset.sdiff_subset
    _ ≤ (env.vars.map Prod.fst).length := List.toFinset_card_le _
    _ = env.vars.length := List.length_map _

namespace Descent

/-- Fuel for the tokens of a text of a length. -/
def textFuel (length : Nat) : Nat := Expr.enoughFuel (length + 1) + 1

theorem textFuel_mono {n n' : Nat} (h : n ≤ n') : textFuel n ≤ textFuel n' := by
  unfold textFuel Expr.enoughFuel
  omega

/-- Fuel for a text, with the texts of the variables inside each other, each of them once. -/
def enough (env : Env m) (source : Text) : Nat :=
  (env.vars.length + 1) * textFuel env.width + textFuel source.length

variable [Monad m] [LawfulMonad m]

/-! ### Texts -/

/-- All tokens of a text are read, or the rest of them is malformed. -/
theorem follows_eval (hlooks : LooksUp env valueOf s extra)
    (hfuel : extra + textFuel source.length ≤ fuel) :
    Follows s (eval env fuel source) (ExceptT.mk (evalTextWith env valueOf source)) := by
  obtain ⟨fuel, rfl⟩ : ∃ n, fuel = n + 1 := ⟨fuel - 1, by unfold textFuel at hfuel; omega⟩
  unfold textFuel Expr.enoughFuel at hfuel
  rw [eval, scan_eq (by omega)]
  cases hscan : Token.scan source with
  | error cause =>
    have htext : evalTextWith env valueOf source = pure (.error (.malformed cause)) := by
      rw [evalTextWith, Expr.parse, hscan]
      rfl
    rw [htext, Except.mapError, ofExcept, throw_bind]
    exact follows_throw _
  | ok tokens =>
    have htext : ExceptT.mk (evalTextWith env valueOf source) =
        (Expr.read source tokens).run env valueOf := by
      rw [evalTextWith, Expr.parse, hscan]
      rfl
    have hspanned := spanned_of_scan hscan
    have hlength := hspanned.length_le
    have hc : (⟨source, tokens, 0, 0, false⟩ : Cursor).At tokens :=
      ⟨⟨_, 0, le_rfl, hspanned⟩, [], rfl, rfl⟩
    obtain ⟨more, rfl⟩ : ∃ n, fuel = n + Expr.enoughFuel tokens.length :=
      ⟨fuel - Expr.enoughFuel tokens.length, by unfold Expr.enoughFuel; omega⟩
    have hmore : extra ≤ more := by
      unfold Expr.enoughFuel at hfuel
      omega
    -- the fuel of the descent is that of the readers, and what its variables take
    have hreads := simulates (hlooks.mono hmore) (Expr.enoughFuel tokens.length)
    obtain ⟨literal, htracks⟩ := hreads.members hc (by unfold Expr.enoughFuel; omega)
    rw [htext, Except.mapError, ofExcept, pure_bind, Expr.read]
    have hplace : (⟨source, tokens, 0, 0, false⟩ : Cursor).place = ⟨source, false⟩ := rfl
    rw [hplace] at htracks
    cases hread : Expr.readMembers (Expr.enoughFuel tokens.length) ⟨source, false⟩ tokens with
    | mk items left =>
      rw [hread] at htracks
      cases left with
      | none =>
        dsimp only
        rw [run_ofMembers, map_eq_pure_bind]
        exact (Fails.bind htracks).follows
      | some left =>
        -- what is left must be the end of the text
        have hleft := hc.moved ((Expr.consumes source _).members hc.within hread) literal
        have hlast : (Expr.first left).kind = Expr.firstKind left := rfl
        dsimp only
        split_ifs with hend
        · rw [run_ofMembers, map_eq_pure_bind]
          refine Follows.bind htracks fun vs => ?_
          simp only [hleft.peek_eq, pure_bind, hlast, if_pos hend]
          exact follows_pure _
        · rw [run_thenFail, run_ofMembers, bind_map_left]
          refine Follows.bind htracks fun vs => ?_
          simp only [hleft.peek_eq, pure_bind, hlast, if_neg hend]
          exact follows_throw _

/-! ### Variables -/

/-- The text of a variable is evaluated with the variable in the set. It stands for itself if it has
no value. -/
theorem follows_variable {t name : Text} {valueOf : Text → m Value}
    (hvar : env.var? name = some (.plain t)) (hname : name ∉ s)
    (hlooks : LooksUp env valueOf (insert name s) extra)
    (hfuel : extra + textFuel env.width ≤ fuel) :
    Follows s (do
        modify (insert name)
        let r ← attempt (eval env fuel t)
        modify (·.erase name)
        match r with
        | .ok v => return v
        | .error _ => return .plain t)
      (ExceptT.lift do
        match ← evalTextWith env valueOf t with
        | .ok v => return v
        | .error _ => return .plain t) := by
  have hlength := textFuel_mono (Env.length_le_width hvar)
  have heval := follows_eval hlooks (show extra + textFuel t.length ≤ fuel by omega)
  have hlift : ExceptT.lift (do
      match ← evalTextWith env valueOf t with
      | .ok v => return v
      | .error _ => return .plain t) = (do
      let r ← ExceptT.lift (ExceptT.mk (evalTextWith env valueOf t)).run
      match r with
      | .ok v => return v
      | .error _ => return .plain t : ExceptT EvalError m Value) := by
    refine ExceptT.ext ?_
    simp only [ExceptT.run_bind, ExceptT.run_lift, ExceptT.run_mk, map_eq_pure_bind, bind_assoc,
      pure_bind]
    refine bind_congr fun r => ?_
    cases r <;> simp
  -- the name is being resolved only while its text is evaluated
  rw [hlift]
  refine heval.during hname fun r => ?_
  cases r <;> exact follows_pure _

/-- By induction on the variables that are left: a text inside another has one variable less. -/
theorem looksUp_variableValue {budget : Nat} {resolving : List Text}
    (h : (env.unresolved resolving.toFinset).card < budget) :
    LooksUp env (variableValue env budget resolving) resolving.toFinset
      (budget * textFuel env.width) := by
  induction budget generalizing resolving with
  | zero => exact absurd h (Nat.not_lt_zero _)
  | succ budget ih =>
    intro fuel hfuel name
    unfold lookup variableValue
    cases hvar : env.var? name with
    | none => exact follows_lift_pure _
    | some v =>
      cases v with
      | string t quote =>
        cases quote with
        | none =>
          refine Follows.get ?_
          dsimp only
          by_cases hname : name ∈ resolving
          · rw [if_pos (List.mem_toFinset.mpr hname), if_pos (by simpa using hname)]
            exact follows_lift_pure _
          · have hnot : name ∉ resolving.toFinset := by simpa using hname
            rw [if_neg hnot, if_neg (by simpa using hname)]
            -- a variable inside of its own text is not looked up, so with each level fewer are left
            have hlt := Env.card_unresolved_lt hvar hnot
            rw [← List.toFinset_cons] at hlt
            have hlooks := ih (hlt.trans_le (Nat.le_of_lt_succ h))
            rw [List.toFinset_cons] at hlooks
            exact follows_variable hvar hnot hlooks (by rwa [Nat.succ_mul] at hfuel)
        | some q => exact follows_lift_pure _
      | _ => exact follows_lift_pure _

/-- With enough fuel the descent ends with the value or the error of the text, and the set is what
it was. If nothing is being expanded at first, that is what `evalText` gives. -/
theorem eval_returns (env : Env m) (resolving : List Text) (source : Text) (fuel : Nat)
    (hfuel : enough env source ≤ fuel) :
    (eval env fuel source).run.run resolving.toFinset =
      (fun r => (r.mapError Halted.failed, resolving.toFinset)) <$>
        evalTextWith env (variableValue env (env.vars.length + 1) resolving) source := by
  have hcard := Nat.lt_succ_of_le (env.card_unresolved_le resolving.toFinset)
  exact follows_eval (looksUp_variableValue hcard) hfuel

/-- Variables that need each other or themselves, one of them malformed. -/
def tangledEnv : Env Id where
  vars := [(of "$a", .plain (of "$b x")), (of "$b", .plain (of "f($a)")),
    (of "$c", .plain (of "$c +"))]
  call _ _ := pure (.ok none)

theorem tangled_returns : enough tangledEnv (of "$a $c") ≤ 1077 ∧
    (eval tangledEnv 1077 (of "$a $c")).run.run ∅ =
      (.ok (.list [] [([], .list [] [([], .plain (of "f($b x)")), ([], .plain (of "x"))]),
        ([], .plain (of "$c +"))]), ∅) := by
  have hfuel : enough tangledEnv (of "$a $c") ≤ 1077 := by decide
  exact ⟨hfuel, eval_returns tangledEnv [] (of "$a $c") 1077 hfuel⟩

end Descent

end Stylesheet
