import Stylesheet.Proofs.Expression.Consumption
import Stylesheet.Proofs.Expression.Descent

/-!
# Following a tree

A descent follows the evaluation of a tree if it ends in the same way and leaves the set of the
variables being expanded as it found it. Where reading ends early the tree fails for certain, and
the descent fails with it.

## Main definitions

* `Follows` — a descent that ends like an evaluation
* `Fails` — a descent that fails like an evaluation that fails for certain
* `Tracks` — either, according to what is left of the tokens

## Main results

* `run_ofItems`, `run_ofMembers` — the evaluation of each tree
* `Follows.bind`, `Tracks.bind` — one after the other
* `Follows.attempt` — a failure that is recovered from
-/

namespace Stylesheet

open Text

variable {m : Type → Type} [Monad m] {α β γ δ : Type}

/-! ### Evaluation of a tree -/

/-- The evaluation of a tree. -/
def Expr.run (env : Env m) (valueOf : Text → m Value) (e : Expr) : ExceptT EvalError m Value :=
  ExceptT.mk (e.eval env valueOf)

/-- The evaluation of members. -/
def runEntries (env : Env m) (valueOf : Text → m Value) (items : List (Text × Expr)) :
    ExceptT EvalError m (List Entry) :=
  ExceptT.mk (evalEntries env valueOf items)

section

variable {env : Env m} {valueOf : Text → m Value}

theorem run_constant (v : Value) : (Expr.constant v).run env valueOf = pure v := rfl

theorem run_numeral (n : Number) : (Expr.numeral n).run env valueOf = pure (.number n) := rfl

theorem run_negate (e : Expr) : (Expr.negate e).run env valueOf = (do
    let v ← e.run env valueOf
    ExceptT.mk (pure (v.negate.mapError .arith))) := by
  refine ExceptT.ext (bind_congr fun r => ?_)
  cases r <;> rfl

theorem run_not (e : Expr) : (Expr.not e).run env valueOf = (do
    let v ← e.run env valueOf
    return .bool !v.truthy) := by
  refine ExceptT.ext (bind_congr fun r => ?_)
  cases r <;> rfl

/-- The value of a value after an exclamation mark. -/
def denied : Value → Value
  | .bool b => .bool !b
  | v => .plain (ch '!' :: v.text)

theorem run_bang (e : Expr) : (Expr.bang e).run env valueOf = (do
    let v ← e.run env valueOf
    return denied v) := by
  refine ExceptT.ext (bind_congr fun r => ?_)
  cases r with
  | error x => rfl
  | ok v => cases v <;> rfl

theorem run_binary (op : BinaryOp) (left right : Expr) :
    (Expr.binary op left right).run env valueOf = (do
      let a ← left.run env valueOf
      let b ← right.run env valueOf
      ExceptT.mk (pure (op.apply a b))) := by
  refine ExceptT.ext (bind_congr fun r => ?_)
  cases r with
  | error x => rfl
  | ok a =>
    refine bind_congr fun r => ?_
    cases r <;> rfl

theorem run_ratio (left right : Expr) : (Expr.ratio left right).run env valueOf = (do
    let a ← left.run env valueOf
    let b ← right.run env valueOf
    return .plain (a.text ++ ch '/' :: b.text)) := by
  refine ExceptT.ext (bind_congr fun r => ?_)
  cases r with
  | error x => rfl
  | ok a =>
    refine bind_congr fun r => ?_
    cases r <;> rfl

theorem run_list (sep : Text) (items : List (Text × Expr)) :
    (Expr.list sep items).run env valueOf = (do
      let vs ← runEntries env valueOf items
      return .list sep vs) := by
  refine ExceptT.ext (bind_congr fun r => ?_)
  cases r <;> rfl

theorem run_thenFail (e : Expr) (cause : Malformed) :
    (Expr.thenFail e cause).run env valueOf = (do
      let _ ← e.run env valueOf
      throw (.malformed cause)) := by
  refine ExceptT.ext (bind_congr fun r => ?_)
  cases r <;> rfl

/-- A token that is no variable is a value or malformed. -/
theorem run_ofToken (env : Env m) (valueOf : Text → m Value) {t : Token} (hvar : t.kind ≠ .var) :
    (∃ v, Descent.tokenValue t = .ok v ∧ (Expr.ofToken t).run env valueOf = pure v ∧
      (Expr.ofToken t).isFailure = false ∧
      (Expr.ofToken t).isNumeral = decide (t.kind = .number)) ∨
    ∃ cause, Descent.tokenValue t = .error (.malformed cause) ∧ Expr.ofToken t = .fail cause := by
  obtain ⟨kind, text, start, stop, quote, unit⟩ := t
  cases kind with
  | number =>
    simp only [Descent.tokenValue, Expr.ofToken]
    cases Double.read? text with
    | none => exact .inr ⟨_, rfl, rfl⟩
    | some f => exact .inl ⟨_, rfl, run_numeral _, rfl, rfl⟩
  | color =>
    simp only [Descent.tokenValue, Expr.ofToken]
    cases Color.parseHex? text with
    | none => exact .inl ⟨_, rfl, run_constant _, rfl, rfl⟩
    | some c => exact .inl ⟨_, rfl, run_constant _, rfl, rfl⟩
  | string | bool | ident => exact .inl ⟨_, rfl, run_constant _, rfl, rfl⟩
  | var => exact absurd rfl hvar
  | _ => exact .inr ⟨_, rfl, rfl⟩

theorem runEntries_nil : runEntries env valueOf [] = pure [] := rfl

theorem runEntries_cons (key : Text) (e : Expr) (rest : List (Text × Expr)) :
    runEntries env valueOf ((key, e) :: rest) = (do
      let v ← e.run env valueOf
      let vs ← runEntries env valueOf rest
      return (key, v) :: vs) := by
  refine ExceptT.ext (bind_congr fun r => ?_)
  cases r with
  | error x => rfl
  | ok a =>
    refine bind_congr fun r => ?_
    cases r <;> rfl

variable [LawfulMonad m]

theorem run_var (name : Text) : (Expr.var name).run env valueOf = ExceptT.lift (valueOf name) := by
  refine ExceptT.ext ?_
  simp [Expr.run, Expr.eval]

/-- The result of a call, if its arguments are known and a function takes it. -/
def invoked (env : Env m) (name : Text) : Option (List Entry) → ExceptT EvalError m (Option Value)
  | none => return none
  | some args => ExceptT.mk do return (← env.call name args).mapError (.call name)

theorem run_call (name : Text) (args : List (Text × Expr)) (complete : Bool)
    (source : List Piece) : (Expr.call name args complete source).run env valueOf = (do
      let args ← Descent.settled <$>
        ExceptT.lift ((·, complete) <$> runEntries env valueOf args).run
      let result ← invoked env name args
      return result.getD (passThrough env name source)) := by
  have hcall (r : Except EvalError (List Entry)) : callValue env name r complete source =
      (do let result ← invoked env name (Descent.settled (r.map (·, complete)))
          return result.getD (passThrough env name source)).run := by
    cases r with
    | error e => simp [Descent.settled, invoked, callValue, Except.map]
    | ok args =>
      cases complete with
      | false => simp [Descent.settled, invoked, callValue, Except.map]
      | true =>
        simp only [Descent.settled, invoked, callValue, Except.map, ExceptT.run_bind,
          ExceptT.run_mk, bind_assoc, pure_bind]
        refine bind_congr fun r => ?_
        rcases r with e | _ | v <;> rfl
  rw [bind_map_left]
  refine ExceptT.ext ?_
  simp only [ExceptT.run_bind, ExceptT.run_lift, ExceptT.run_map]
  simp only [Expr.run, Expr.eval, runEntries, hcall, ExceptT.run_bind, ExceptT.run_mk,
    map_eq_pure_bind, bind_assoc, pure_bind]

/-- A single expression is evaluated as itself. -/
theorem run_ofItems (es : List Expr) : (Expr.ofItems es).run env valueOf =
    Descent.spaced <$> runEntries env valueOf (es.map ([], ·)) := by
  match es with
  | [] =>
    rw [Expr.ofItems, run_list, List.map_nil, runEntries_nil]
    · simp [Descent.spaced]
    · simp
  | [e] => simp [Expr.ofItems, runEntries_cons, runEntries_nil, Descent.spaced]
  | e :: e' :: es =>
    rw [Expr.ofItems, run_list]
    · simp [runEntries_cons, Descent.spaced]
    · simp

/-- A single member without a key is evaluated as itself. -/
theorem run_ofMembers (items : List (Text × Expr)) : (Expr.ofMembers items).run env valueOf =
    Descent.joined <$> runEntries env valueOf items := by
  match items with
  | [] =>
    rw [Expr.ofMembers, run_list, runEntries_nil]
    · simp [Descent.joined]
    · simp
  | [(k, e)] =>
    by_cases hk : k.isEmpty = true
    · simp [Expr.ofMembers, runEntries_cons, runEntries_nil, Descent.joined, hk]
    · simp [Expr.ofMembers, run_list, runEntries_cons, runEntries_nil, Descent.joined, hk]
  | (k, e) :: (k', e') :: items =>
    rw [Expr.ofMembers, run_list]
    · simp [runEntries_cons, Descent.joined]
    · simp

end

/-! ### Following -/

/-- The descent ends like the evaluation and leaves the set as it was. -/
def Follows (s : Finset Text) (x : DescentM m α) (c : ExceptT EvalError m α) : Prop :=
  x.run.run s = (fun r => (r.mapError Halted.failed, s)) <$> c.run

/-- An evaluation that fails for certain. -/
def failing (d : m EvalError) : ExceptT EvalError m α := ExceptT.lift d >>= throw

/-- The evaluation fails for certain, and the descent fails with it. -/
def Fails (s : Finset Text) (x : DescentM m α) (c : ExceptT EvalError m β) : Prop :=
  ∃ d : m EvalError, c = failing d ∧ Follows s x (failing d)

theorem Fails.follows {s : Finset Text} {x : DescentM m α} {c : ExceptT EvalError m α}
    (h : Fails s x c) : Follows s x c := by
  obtain ⟨d, rfl, h⟩ := h
  exact h

/-- The descent goes on from a cursor with the value of the evaluation, or fails with it. -/
def Tracks (s : Finset Text) (x : DescentM m (α × Cursor)) (c : ExceptT EvalError m α) :
    Option Cursor → Prop
  | some cursor => Follows s x ((·, cursor) <$> c)
  | none => Fails s x c

section

variable [LawfulMonad m] {s : Finset Text} {x : DescentM m α} {c : ExceptT EvalError m α}

theorem follows_pure (a : α) : Follows s (pure a : DescentM m α) (pure a) := by
  simp [Follows, Except.mapError]

theorem follows_throw (e : EvalError) :
    Follows s (throw (.failed e) : DescentM m α) (throw e) := by
  simp [Follows, Except.mapError]

theorem follows_ofExcept (r : Except EvalError α) :
    Follows s (Descent.ofExcept r : DescentM m α) (ExceptT.mk (pure r)) := by
  cases r with
  | error e => exact follows_throw e
  | ok a => exact follows_pure a

theorem follows_lift (y : m α) : Follows s (liftM y : DescentM m α) (ExceptT.lift y) := by
  simp [Follows, Except.mapError]

theorem follows_lift_pure (a : α) :
    Follows s (pure a : DescentM m α) (ExceptT.lift (pure a)) := by
  simp [Follows, Except.mapError]

namespace Follows

/-- The second part has to follow only where the first may have led. -/
theorem bind {c : ExceptT EvalError m γ} {g : γ → α} {k : α → DescentM m β}
    {f : γ → ExceptT EvalError m β} (h : Follows s x (g <$> c))
    (hk : ∀ a, Follows s (k (g a)) (f a)) : Follows s (x >>= k) (c >>= f) := by
  unfold Follows at *
  simp only [ExceptT.run_bind, StateT.run_bind, h, map_eq_pure_bind, bind_assoc, pure_bind]
  refine bind_congr fun r => ?_
  cases r with
  | error e => simp [Except.mapError]
  | ok a =>
    simp only [ExceptT.run_pure, pure_bind]
    exact (hk a).trans (map_eq_pure_bind _ _)

theorem map {f : α → β} (h : Follows s x c) : Follows s (f <$> x) (f <$> c) := by
  rw [map_eq_pure_bind, map_eq_pure_bind]
  exact bind (g := id) (by rwa [id_map]) fun a => follows_pure (f a)

/-- What is attempted ends with a result in any case. -/
theorem attempt (h : Follows s x c) : Follows s (Descent.attempt x) (ExceptT.lift c.run) := by
  unfold Follows Descent.attempt at *
  simp only [ExceptT.run_tryCatch, ExceptT.run_bind, StateT.run_bind, h, map_eq_pure_bind,
    bind_assoc, pure_bind, ExceptT.run_lift]
  refine bind_congr fun r => ?_
  cases r with
  | error e => simp [Except.mapError]
  | ok a => simp [Except.mapError]

/-- A failure for certain in the second part is one of the whole. -/
theorem bind_failing (c : ExceptT EvalError m γ) (d : γ → m EvalError) :
    (c >>= fun a => failing (d a) : ExceptT EvalError m δ) =
      failing (do
        match ← c.run with
        | .ok a => d a
        | .error e => return e) := by
  refine ExceptT.ext ?_
  simp only [failing, ExceptT.run_bind, ExceptT.run_lift, map_eq_pure_bind, bind_assoc, pure_bind]
  refine bind_congr fun r => ?_
  cases r with
  | error e => simp
  | ok a => simp

/-- What comes after certain failure does not matter. -/
theorem bind_fails {c : ExceptT EvalError m γ} {g : γ → α} {k : α → DescentM m β}
    {f : γ → ExceptT EvalError m δ} (h : Follows s x (g <$> c))
    (hk : ∀ a, Fails s (k (g a)) (f a)) : Fails s (x >>= k) (c >>= f) := by
  choose d hd hfollows using hk
  exact ⟨_, (bind_congr hd).trans (bind_failing c d), bind_failing c d ▸ h.bind hfollows⟩

end Follows

theorem failing_bind (d : m EvalError) (f : α → ExceptT EvalError m β) :
    failing d >>= f = failing d := by
  simp only [failing, bind_assoc, throw_bind]

theorem Fails.bind {k : α → DescentM m γ} {c : ExceptT EvalError m β}
    {f : β → ExceptT EvalError m δ} (h : Fails s x c) : Fails s (x >>= k) (c >>= f) := by
  obtain ⟨d, rfl, h⟩ := h
  refine ⟨d, failing_bind d f, ?_⟩
  unfold Follows failing at *
  simp only [ExceptT.run_bind, StateT.run_bind, h, map_eq_pure_bind, bind_assoc, pure_bind,
    ExceptT.run_lift]
  refine bind_congr fun e => ?_
  simp [Except.mapError]

namespace Tracks

variable {x : DescentM m (α × Cursor)} {cursor : Cursor} {left : Option Cursor}

theorem bind {k : α × Cursor → DescentM m (β × Cursor)} {f : α → ExceptT EvalError m β}
    (h : Tracks s x c (some cursor)) (hk : ∀ a, Tracks s (k (a, cursor)) (f a) left) :
    Tracks s (x >>= k) (c >>= f) left := by
  cases left with
  | none => exact Follows.bind_fails h hk
  | some cursor' =>
    rw [Tracks, map_bind]
    exact Follows.bind h hk

theorem stop {k : α × Cursor → DescentM m (β × Cursor)} {f : α → ExceptT EvalError m β}
    (h : Tracks s x c none) : Tracks s (x >>= k) (c >>= f) none :=
  Fails.bind h

/-- A step that leaves the cursor where it is. -/
theorem step {k : α × Cursor → DescentM m (β × Cursor)} {f : α → ExceptT EvalError m β}
    (h : Tracks s x c left) (hk : ∀ a cursor, Tracks s (k (a, cursor)) (f a) (some cursor)) :
    Tracks s (x >>= k) (c >>= f) left := by
  cases left with
  | none => exact h.stop
  | some cursor => exact h.bind fun a => hk a cursor

end Tracks

/-- A step that has no cursor comes first. -/
theorem Follows.bind_tracks {left : Option Cursor} {k : α → DescentM m (β × Cursor)}
    {f : α → ExceptT EvalError m β} (h : Follows s x c) (hk : ∀ a, Tracks s (k a) (f a) left) :
    Tracks s (x >>= k) (c >>= f) left := by
  have h' : Follows s x (id <$> c) := by rwa [id_map]
  cases left with
  | none => exact h'.bind_fails hk
  | some cursor =>
    rw [Tracks, map_bind]
    exact h'.bind hk

/-- The value of a step, at a cursor. -/
theorem Follows.tracks (h : Follows s x c) (cursor : Cursor) :
    Tracks s (x >>= fun a => pure (a, cursor)) c (some cursor) := by
  rw [Tracks, ← map_eq_pure_bind]
  exact h.map

theorem tracks_pure (a : α) (cursor : Cursor) :
    Tracks s (pure (a, cursor) : DescentM m (α × Cursor)) (pure a) (some cursor) := by
  rw [Tracks, map_pure]
  exact follows_pure (a, cursor)

theorem tracks_throw (e : EvalError) :
    Tracks s (throw (.failed e) : DescentM m (α × Cursor)) (throw e : ExceptT EvalError m α)
      none := by
  have hthrow {β : Type} : (throw e : ExceptT EvalError m β) = failing (pure e) := by
    refine ExceptT.ext ?_
    simp [failing]
  exact ⟨pure e, hthrow, hthrow ▸ follows_throw e⟩

/-! ### The set of variables -/

theorem run_get : (get : DescentM m (Finset Text)).run.run s = pure (.ok s, s) := by
  change (ExceptT.lift (get : StateT (Finset Text) m _)).run.run s = _
  simp

theorem run_modify (f : Finset Text → Finset Text) :
    (modify f : DescentM m Unit).run.run s = pure (.ok (), f s) := by
  change (ExceptT.lift (modify f : StateT (Finset Text) m _)).run.run s = _
  simp

namespace Follows

theorem get {k : Finset Text → DescentM m α} (h : Follows s (k s) c) :
    Follows s (MonadState.get >>= k) c := by
  unfold Follows at *
  rw [← h, ExceptT.run_bind, StateT.run_bind, run_get, pure_bind]

/-- A variable is in the set while something is attempted, and not any more afterwards. -/
theorem during {name : Text} {k : Except EvalError α → DescentM m β}
    {f : Except EvalError α → ExceptT EvalError m β} (hname : name ∉ s)
    (h : Follows (insert name s) x c) (hk : ∀ r, Follows s (k r) (f r)) :
    Follows s (do
      modify (insert name)
      let r ← Descent.attempt x
      modify (·.erase name)
      k r) (ExceptT.lift c.run >>= f) := by
  have hattempt := h.attempt
  unfold Follows at *
  simp only [ExceptT.run_bind, StateT.run_bind, run_modify, pure_bind, hattempt, ExceptT.run_lift,
    map_eq_pure_bind, bind_assoc, Except.mapError, Finset.erase_insert hname, hk]

end Follows

end

end Stylesheet
