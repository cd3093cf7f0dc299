import Stylesheet.Proofs.Expression.Follow
import Stylesheet.Proofs.Expression.Grammar
import Stylesheet.Proofs.Expression.Indices

/-!
# The descent simulates the tree

With the same fuel to begin with, a descent goes through the tokens as the reader of trees does, and
it ends as the evaluation of the tree ends: at the same value with the same tokens left, or with the
same failure.

What the fuel has to suffice for is counted in tokens. Each token is reached through every level
once, and on each level a reader takes a token before it starts again.

## Main definitions

* `Simulates` — each reader is simulated with a certain fuel

## Main results

* `simulates` — with any fuel
-/

namespace Stylesheet

open Text

variable {m : Type → Type} [Monad m] {env : Env m} {valueOf : Text → m Value} {s : Finset Text}

/-- Evaluating the text of a variable has the effect of its value, from this fuel on. -/
def LooksUp (env : Env m) (valueOf : Text → m Value) (s : Finset Text) (extra : Nat) : Prop :=
  ∀ fuel, extra ≤ fuel → ∀ name,
    Follows s (Descent.lookup env (Descent.eval env fuel) name) (ExceptT.lift (valueOf name))

theorem LooksUp.mono {extra extra' : Nat} (h : LooksUp env valueOf s extra)
    (hle : extra ≤ extra') : LooksUp env valueOf s extra' :=
  fun fuel hfuel => h fuel (hle.trans hfuel)

/-- With this fuel for the readers, and some more, the descent does what the trees do. -/
structure Simulates (env : Env m) (valueOf : Text → m Value) (s : Finset Text)
    (extra fuel : Nat) : Prop where
  level : ∀ {c ts} (l : Level), Cursor.At c ts → 10 * ts.length + 8 ≤ fuel + l.rank →
    ∃ literal, (l = .unary → literal = (Expr.readLevel fuel c.place l ts).1.isNumeral) ∧
      Tracks s (Descent.level env (extra + fuel) l c)
        ((Expr.readLevel fuel c.place l ts).1.run env valueOf)
        ((Expr.readLevel fuel c.place l ts).2.map (c.moved · literal))
  more : ∀ {c ts} (l : Level) (before : Bool) (e : Expr), Cursor.At c ts →
    10 * ts.length + 8 ≤ fuel → (l = .product → before = e.isNumeral) →
    ∃ literal f, (Expr.readMore fuel c.place l e ts).1.run env valueOf =
        e.run env valueOf >>= f ∧
      ∀ v, Tracks s (Descent.more env (extra + fuel) l before v c) (f v)
        ((Expr.readMore fuel c.place l e ts).2.map (c.moved · literal))
  primary : ∀ {c ts}, Cursor.At c ts → 10 * ts.length + 1 ≤ fuel →
    Tracks s (Descent.primary env (extra + fuel) c)
      ((Expr.readPrimary fuel c.place ts).1.run env valueOf)
      ((Expr.readPrimary fuel c.place ts).2.map
        (c.moved · (Expr.readPrimary fuel c.place ts).1.isNumeral))
  items : ∀ {c ts} (before : List Expr), Cursor.At c ts → 10 * ts.length + 9 ≤ fuel →
    ∃ literal es, (Expr.readItems fuel c.place before ts).1 = Expr.ofItems (before.reverse ++ es) ∧
      Tracks s (Descent.items env (extra + fuel) c) (runEntries env valueOf (es.map ([], ·)))
        ((Expr.readItems fuel c.place before ts).2.map (c.moved · literal))
  members : ∀ {c ts}, Cursor.At c ts → 10 * ts.length + 10 ≤ fuel →
    ∃ literal, Tracks s (Descent.entries env (extra + fuel) c)
      (runEntries env valueOf (Expr.readMembers fuel c.place ts).1)
      ((Expr.readMembers fuel c.place ts).2.map (c.moved · literal))

section

variable {fuel : Nat} {place : Place} {ts : List Token}

/-- Only products divide. -/
theorem Level.eq_product_of_div (l : Level) {k : TokenKind}
    (h : l.operator? k = some (.arith .div)) : l = .product := by
  cases l <;> cases k <;> first | rfl | simp [Level.operator?] at h

theorem Expr.readLevel_unary_of_ne (hsign : firstKind ts ≠ .sign) (hplus : firstKind ts ≠ .plus) :
    readLevel (fuel + 1) place .unary ts = readPrimary fuel place ts := by
  rw [readLevel]
  split <;> first | contradiction | rfl

theorem Expr.readLevel_not_of_ne (hnot : firstKind ts ≠ .not) (hbang : firstKind ts ≠ .bang) :
    readLevel (fuel + 1) place .not ts = readLevel fuel place .compare ts := by
  rw [readLevel]
  split <;> first | contradiction | rfl

end

namespace Simulates

variable {extra fuel : Nat} {c : Cursor} {ts : List Token}

/-! ### Levels -/

/-- After a sign or a word the operand is on the same level. -/
theorem operand (h : Simulates env valueOf s extra fuel) (hc : c.At ts) (l : Level)
    (hkind : Expr.firstKind ts ≠ .eof) (hfuel : 10 * ts.length + 8 ≤ fuel + 1 + l.rank) :
    ∃ literal, (l = .unary →
        literal = (Expr.readLevel fuel c.place l (Expr.rest ts)).1.isNumeral) ∧
      Tracks s (Descent.level env (extra + fuel) l (c.moved (Expr.rest ts) c.literal))
        ((Expr.readLevel fuel c.place l (Expr.rest ts)).1.run env valueOf)
        ((Expr.readLevel fuel c.place l (Expr.rest ts)).2.map (c.moved · literal)) := by
  have hrest := hc.within.rest hkind
  have hlength := hrest.shorter
  exact h.level l (hc.moved hrest c.literal) (by omega)

variable [LawfulMonad m]

theorem level_unary (h : Simulates env valueOf s extra fuel) (hc : c.At ts)
    (hfuel : 10 * ts.length + 8 ≤ fuel + 1 + Level.unary.rank) :
    Tracks s (Descent.level env (extra + (fuel + 1)) .unary c)
      ((Expr.readLevel (fuel + 1) c.place .unary ts).1.run env valueOf)
      ((Expr.readLevel (fuel + 1) c.place .unary ts).2.map
        (c.moved · (Expr.readLevel (fuel + 1) c.place .unary ts).1.isNumeral)) := by
  have hpeek : (Expr.first ts).kind = Expr.firstKind ts := rfl
  rw [← Nat.add_assoc, Descent.level, hc.peek_eq, pure_bind, hpeek]
  by_cases hsign : Expr.firstKind ts = .sign
  · obtain ⟨literal, hliteral, htracks⟩ := h.operand hc .unary (by simp [hsign]) hfuel
    rw [Expr.readLevel]
    simp only [hsign]
    rw [hc.next_eq, pure_bind, run_negate, Expr.isNumeral, ← hliteral rfl]
    exact htracks.step fun v cursor => (follows_ofExcept _).tracks cursor
  by_cases hplus : Expr.firstKind ts = .plus
  · obtain ⟨literal, hliteral, htracks⟩ := h.operand hc .unary (by simp [hplus]) hfuel
    rw [Expr.readLevel]
    simp only [hplus]
    rw [hc.next_eq, pure_bind, ← hliteral rfl]
    exact htracks
  rw [Expr.readLevel_unary_of_ne hsign hplus]
  split
  · contradiction
  · contradiction
  · exact h.primary hc (by simp only [Level.rank] at hfuel; omega)

theorem level_not (h : Simulates env valueOf s extra fuel) (hc : c.At ts)
    (hfuel : 10 * ts.length + 8 ≤ fuel + 1 + Level.not.rank) :
    ∃ literal, Tracks s (Descent.level env (extra + (fuel + 1)) .not c)
      ((Expr.readLevel (fuel + 1) c.place .not ts).1.run env valueOf)
      ((Expr.readLevel (fuel + 1) c.place .not ts).2.map (c.moved · literal)) := by
  have hpeek : (Expr.first ts).kind = Expr.firstKind ts := rfl
  rw [← Nat.add_assoc, Descent.level, hc.peek_eq, pure_bind, hpeek]
  by_cases hnot : Expr.firstKind ts = .not
  · obtain ⟨literal, -, htracks⟩ := h.operand hc .not (by simp [hnot]) hfuel
    rw [Expr.readLevel]
    simp only [hnot]
    rw [hc.next_eq, pure_bind, run_not]
    exact ⟨literal, htracks.step fun v cursor => tracks_pure _ cursor⟩
  by_cases hbang : Expr.firstKind ts = .bang
  · obtain ⟨literal, -, htracks⟩ := h.operand hc .not (by simp [hbang]) hfuel
    rw [Expr.readLevel]
    simp only [hbang]
    rw [hc.next_eq, pure_bind, run_bang]
    refine ⟨literal, htracks.step fun v cursor => ?_⟩
    cases v <;> exact tracks_pure _ cursor
  rw [Expr.readLevel_not_of_ne hnot hbang]
  split
  · contradiction
  · contradiction
  · obtain ⟨literal, -, htracks⟩ :=
      h.level .compare hc (by simp only [Level.rank] at hfuel ⊢; omega)
    exact ⟨literal, htracks⟩

omit [LawfulMonad m] in
theorem descent_level_chain {fuel : Nat} {c : Cursor} {l : Level} (hchains : l.chains = true) :
    Descent.level env (fuel + 1) l c = (do
      let (v, c) ← Descent.level env fuel l.next c
      Descent.more env fuel l c.literal v c) := by
  cases l <;> first | rfl | cases hchains

/-- The first operand, and what comes after it. -/
theorem level_chain (h : Simulates env valueOf s extra fuel) (hc : c.At ts) {l : Level}
    (hchains : l.chains = true) (hfuel : 10 * ts.length + 8 ≤ fuel + 1 + l.rank) :
    ∃ literal, Tracks s (Descent.level env (extra + (fuel + 1)) l c)
      ((Expr.readLevel (fuel + 1) c.place l ts).1.run env valueOf)
      ((Expr.readLevel (fuel + 1) c.place l ts).2.map (c.moved · literal)) := by
  have hrank : l.next.rank = l.rank + 1 := by cases l <;> first | rfl | cases hchains
  obtain ⟨literal, hliteral, htracks⟩ := h.level l.next hc (by omega)
  rw [← Nat.add_assoc, descent_level_chain hchains, Expr.readLevel_chain hchains]
  cases hread : Expr.readLevel fuel c.place l.next ts with
  | mk e left =>
    rw [hread] at hliteral htracks
    cases left with
    | none => exact ⟨false, by simpa using htracks.stop (f := pure)⟩
    | some left =>
      have hleft := (Expr.consumes c.source fuel).level hc.within hread
      have hshorter := hleft.shorter
      have hle := l.rank_le
      obtain ⟨literal', f, hrun, hmore⟩ := h.more l literal e (hc.moved hleft literal) (by omega)
        (by rintro rfl; exact hliteral rfl)
      refine ⟨literal', ?_⟩
      change Tracks s _
        ((Expr.readMore fuel (c.moved left literal).place l e left).1.run env valueOf) _
      rw [hrun]
      exact htracks.bind hmore

theorem level_succ (h : Simulates env valueOf s extra fuel) (hc : c.At ts) (l : Level)
    (hfuel : 10 * ts.length + 8 ≤ fuel + 1 + l.rank) :
    ∃ literal, (l = .unary →
        literal = (Expr.readLevel (fuel + 1) c.place l ts).1.isNumeral) ∧
      Tracks s (Descent.level env (extra + (fuel + 1)) l c)
        ((Expr.readLevel (fuel + 1) c.place l ts).1.run env valueOf)
        ((Expr.readLevel (fuel + 1) c.place l ts).2.map (c.moved · literal)) := by
  by_cases hunary : l = .unary
  · subst hunary
    exact ⟨_, fun _ => rfl, h.level_unary hc hfuel⟩
  by_cases hnot : l = .not
  · subst hnot
    obtain ⟨literal, htracks⟩ := h.level_not hc hfuel
    exact ⟨literal, nofun, htracks⟩
  · have hchains : l.chains = true := by cases l <;> first | rfl | contradiction
    obtain ⟨literal, htracks⟩ := h.level_chain hc hchains hfuel
    exact ⟨literal, fun hl => absurd hl hunary, htracks⟩

/-! ### Operators -/

/-- The tree of an operator is evaluated as its operands and then the operator. -/
theorem exists_operate (env : Env m) (valueOf : Text → m Value) (s : Finset Text)
    {op : BinaryOp} {before : Bool} {left right : Expr}
    (hdiv : op = .arith .div → before = left.isNumeral ∧ c.literal = right.isNumeral) :
    ∃ f : Value → Value → ExceptT EvalError m Value,
      (Expr.combine c.place op left right).run env valueOf = (do
        let a ← left.run env valueOf
        let b ← right.run env valueOf
        f a b) ∧
      ∀ a b, Follows s (Descent.operate c before op a b) (f a b) := by
  have hratio : (op = .arith .div && c.depth = 0 && before && c.literal) =
      (op = .arith .div && !c.place.nested && left.isNumeral && right.isNumeral) := by
    by_cases hop : op = .arith .div
    · obtain ⟨hbefore, hafter⟩ := hdiv hop
      simp [hbefore, hafter, Cursor.place, Nat.pos_iff_ne_zero]
    · simp [hop]
  unfold Descent.operate Expr.combine
  rw [hratio]
  split_ifs
  · exact ⟨_, run_ratio left right, fun a b => follows_pure _⟩
  · exact ⟨_, run_binary op left right, fun a b => follows_ofExcept _⟩

theorem descent_more {fuel : Nat} {l : Level} {before : Bool} (hc : c.At ts) (v : Value) :
    Descent.more env (fuel + 1) l before v c =
      (match l.operator? (Expr.firstKind ts) with
      | none => pure (v, c)
      | some op => do
        let (w, c) ← Descent.level env fuel l.next (c.moved (Expr.rest ts) c.literal)
        let v ← Descent.operate c before op v w
        Descent.more env fuel l false v c) := by
  rw [Descent.more, hc.peek_eq, pure_bind, hc.next_eq]
  simp only [pure_bind]
  rfl

theorem more_succ (h : Simulates env valueOf s extra fuel) (hc : c.At ts) (l : Level)
    {before : Bool} {e : Expr} (hfuel : 10 * ts.length + 8 ≤ fuel + 1)
    (hbefore : l = .product → before = e.isNumeral) :
    ∃ literal f, (Expr.readMore (fuel + 1) c.place l e ts).1.run env valueOf =
        e.run env valueOf >>= f ∧
      ∀ v, Tracks s (Descent.more env (extra + (fuel + 1)) l before v c) (f v)
        ((Expr.readMore (fuel + 1) c.place l e ts).2.map (c.moved · literal)) := by
  simp only [← Nat.add_assoc, descent_more hc]
  rw [Expr.readMore]
  cases hop : l.operator? (Expr.firstKind ts) with
  | none =>
    refine ⟨c.literal, pure, (bind_pure _).symm, fun v => ?_⟩
    dsimp only [Option.map_some]
    rw [hc.moved_self]
    exact tracks_pure v c
  | some op =>
    -- an operator is a token
    have hkind : Expr.firstKind ts ≠ .eof := by
      intro hend
      rw [hend] at hop
      cases l <;> cases hop
    have hrest := hc.within.rest hkind
    have hshorter := hrest.shorter
    obtain ⟨literal, hliteral, htracks⟩ :=
      h.level l.next (hc.moved hrest c.literal) (by omega)
    dsimp only
    cases hread : Expr.readLevel fuel c.place l.next (Expr.rest ts) with
    | mk right left =>
      rw [Cursor.moved_place, hread] at hliteral htracks
      cases left with
      | none =>
        refine ⟨false, _, run_binary op e right, fun v => ?_⟩
        exact htracks.stop
      | some left =>
        have hleft := (Expr.consumes c.source fuel).level hrest.within hread
        have hshorter' := hleft.shorter
        -- The flags matter for a division only, whose operands are on the innermost level.
        have hdiv : op = .arith .div → before = e.isNumeral ∧ literal = right.isNumeral := by
          intro hop'
          obtain rfl : l = .product := l.eq_product_of_div (hop.trans (congrArg some hop'))
          exact ⟨hbefore rfl, hliteral rfl⟩
        obtain ⟨f, hf, hoperate⟩ := exists_operate (c := c.moved left literal) env
          valueOf s hdiv
        have hcombine : (Expr.combine c.place op e right).isNumeral = false := by
          unfold Expr.combine
          split_ifs <;> rfl
        obtain ⟨literal', g, hg, hmore⟩ := h.more l false (Expr.combine c.place op e right)
          (hc.moved (hrest.trans hleft) literal) (by omega) fun _ => hcombine.symm
        refine ⟨literal', fun v => right.run env valueOf >>= fun w => f v w >>= g, ?_, fun v => ?_⟩
        · rw [Cursor.moved_place] at hg hf
          simp only [hg, hf, bind_assoc]
        · exact htracks.bind fun w => (hoperate v w).bind_tracks hmore

/-! ### Parentheses -/

/-- A list in parentheses. -/
theorem descent_paren {fuel : Nat} (hc : c.At ts) (hkind : (Expr.first ts).kind = .lparen)
    (hrest : Left c.source ts (Expr.rest ts)) : Descent.primary env (fuel + 1) c =
      (if Expr.firstKind (Expr.rest ts) = .rparen then do
        let (_, c) ← (c.moved (Expr.rest ts) false).next
        return (.list [] [], c)
      else do
        let (vs, inner) ← Descent.entries env fuel
          { c.moved (Expr.rest ts) false with depth := c.depth + 1 }
        let (t, inner) ← inner.next
        if t.kind = .rparen then
          return (Descent.joined vs, { inner with depth := c.depth, literal := false })
        else Descent.failAt t) := by
  have hpeek : ({ c.moved (Expr.rest ts) c.literal with literal := false } : Cursor).peek =
      (pure (Expr.first (Expr.rest ts)) : DescentM m Token) := (hc.moved hrest false).peek_eq
  rw [Descent.primary, hc.next_eq, pure_bind]
  simp only [hkind]
  rw [hpeek, pure_bind]
  rfl

theorem primary_paren (h : Simulates env valueOf s extra fuel) (hc : c.At ts)
    (hfuel : 10 * ts.length + 1 ≤ fuel + 1) (hkind : (Expr.first ts).kind = .lparen) :
    Tracks s (Descent.primary env (extra + (fuel + 1)) c)
      ((Expr.readPrimary (fuel + 1) c.place ts).1.run env valueOf)
      ((Expr.readPrimary (fuel + 1) c.place ts).2.map
        (c.moved · (Expr.readPrimary (fuel + 1) c.place ts).1.isNumeral)) := by
  have hrest : Left c.source ts (Expr.rest ts) :=
    hc.within.rest (by rw [Expr.firstKind, hkind]; decide)
  have hshorter := hrest.shorter
  rw [← Nat.add_assoc, descent_paren hc hkind hrest, Expr.readPrimary]
  simp only [hkind]
  by_cases hempty : Expr.firstKind (Expr.rest ts) = .rparen
  · rw [if_pos hempty, if_pos hempty, (hc.moved hrest false).next_eq, pure_bind]
    exact tracks_pure _ _
  rw [if_neg hempty, if_neg hempty]
  have hinner : ({ c.moved (Expr.rest ts) false with depth := c.depth + 1 } : Cursor).At
      (Expr.rest ts) := ⟨hrest.within, (hc.moved hrest false).tokens_eq⟩
  obtain ⟨literal, htracks⟩ := h.members hinner (by omega)
  change Tracks s _ (runEntries env valueOf
    (Expr.readMembers fuel { c.place with nested := true } (Expr.rest ts)).1)
    ((Expr.readMembers fuel { c.place with nested := true } (Expr.rest ts)).2.map _) at htracks
  cases hread : Expr.readMembers fuel { c.place with nested := true } (Expr.rest ts) with
  | mk items left =>
    rw [hread] at htracks
    cases left with
    | none =>
      dsimp only
      rw [run_ofMembers, map_eq_pure_bind]
      exact htracks.stop
    | some left =>
      have hleft := hinner.moved ((Expr.consumes c.source fuel).members hrest.within hread) literal
      have hlast : (Expr.first left).kind = Expr.firstKind left := rfl
      dsimp only
      split_ifs with hclose
      · change Tracks s _ ((Expr.ofMembers items).run env valueOf) _
        rw [run_ofMembers, map_eq_pure_bind]
        refine htracks.bind fun vs => ?_
        simp only [hleft.next_eq, pure_bind, hlast, if_pos hclose]
        exact tracks_pure _ _
      · rw [run_thenFail, run_ofMembers, bind_map_left]
        refine htracks.bind fun vs => ?_
        simp only [hleft.next_eq, pure_bind, hlast, if_neg hclose]
        exact tracks_throw _

/-! ### Calls -/

theorem follows_invoke (name : Text) (args : Option (List Entry)) :
    Follows s (Descent.invoke env name args) (invoked env name args) := by
  cases args with
  | none => exact follows_pure none
  | some args =>
    have hinvoked : invoked env name (some args) = (do
        let r ← ExceptT.lift (env.call name args)
        ExceptT.mk (pure (r.mapError (.call name)))) := by
      refine ExceptT.ext ?_
      simp [invoked]
    have hcall : Follows s (liftM (env.call name args) : DescentM m _)
        (id <$> ExceptT.lift (env.call name args)) := by
      rw [id_map]
      exact follows_lift _
    rw [hinvoked]
    refine hcall.bind fun r => ?_
    cases r with
    | ok result => exact follows_pure result
    | error e => exact follows_throw _

variable {opening close : Token} {inside after : List Token}

/-- The arguments are read from the tokens inside the parentheses. -/
theorem follows_members (h : Simulates env valueOf s extra fuel) (hc : c.At (opening :: ts))
    (hopening : opening.kind ≠ .eof) (hclosing : Expr.closing? 0 ts = some (inside, close, after))
    (hfuel : 10 * (inside.length + 1) + 10 ≤ fuel) {items left}
    (hread : Expr.readMembers fuel { c.place with nested := true }
      (inside ++ [Token.endAt close.start]) = (items, left)) :
    Follows s (do
        let (args, inner) ← Descent.entries env (extra + fuel)
          ⟨c.source, inside ++ [Token.endAt close.start], 0, 1, false⟩
        return (args, decide ((← inner.peek).kind = .eof)))
      ((·, left.any (Expr.firstKind · = .eof)) <$> runEntries env valueOf items) := by
  have hwithin := ((hc.within.cons hopening).2.1.within.closing hclosing).1
  have hinner : (⟨c.source, inside ++ [Token.endAt close.start], 0, 1, false⟩ : Cursor).At
      (inside ++ [Token.endAt close.start]) := ⟨hwithin, [], rfl, rfl⟩
  obtain ⟨literal, htracks⟩ := h.members hinner (by simpa using hfuel)
  change Tracks s _ (runEntries env valueOf
    (Expr.readMembers fuel { c.place with nested := true } _).1)
    ((Expr.readMembers fuel { c.place with nested := true } _).2.map _) at htracks
  rw [hread] at htracks
  rw [map_eq_pure_bind]
  cases left with
  | none => exact (Fails.bind htracks).follows
  | some left =>
    have hleft := hinner.moved ((Expr.consumes c.source fuel).members hwithin hread) literal
    refine Follows.bind htracks fun vs => ?_
    simp only [hleft.peek_eq, pure_bind]
    exact follows_pure _

theorem follows_arguments (h : Simulates env valueOf s extra fuel) (hc : c.At (opening :: ts))
    (hopening : opening.kind ≠ .eof) (hclosing : Expr.closing? 0 ts = some (inside, close, after))
    (hinside : inside ≠ []) (hfuel : 10 * (inside.length + 1) + 10 ≤ fuel) {items left}
    (hread : Expr.readMembers fuel { c.place with nested := true }
      (inside ++ [Token.endAt close.start]) = (items, left)) :
    Follows s
      (Descent.arguments (Descent.entries env (extra + fuel)) c c.index
        (c.index + 1 + inside.length))
      (Descent.settled <$> ExceptT.lift
        ((·, left.any (Expr.firstKind · = .eof)) <$> runEntries env valueOf items).run) := by
  have hmembers := h.follows_members hc hopening hclosing hfuel hread
  have hlength := List.length_pos_iff.mpr hinside
  rw [Descent.arguments, if_pos (by omega), Descent.cutTokens_inside hc hclosing, pure_bind,
    Descent.tokenAt_close hc hclosing, pure_bind, ← map_eq_pure_bind]
  exact hmembers.attempt.map

/-- A call whose arguments are known has its result; one that no function takes is put together
again. -/
theorem tracks_call {name : Text} {items : List (Text × Expr)} {complete : Bool}
    {source : List Piece} {arguments : DescentM m (Option (List Entry))} {i j : Nat}
    (harguments : Follows s arguments (Descent.settled <$> ExceptT.lift
      ((·, complete) <$> runEntries env valueOf items).run))
    (hsource : Descent.substitute env c i j = pure (source.flatMap (Piece.expand env))) :
    Tracks s (do
        let args ← arguments
        match ← Descent.invoke env name args with
        | some v => return (v, c)
        | none =>
          let source ← Descent.substitute env c i j
          return (.plain (name ++ ch '(' :: source ++ [ch ')']), c))
      ((Expr.call name items complete source).run env valueOf) (some c) := by
  rw [run_call]
  refine harguments.bind_tracks fun args => (follows_invoke name args).bind_tracks fun result => ?_
  cases result with
  | some v => exact tracks_pure v c
  | none =>
    simp only [hsource, pure_bind]
    exact tracks_pure _ c

/-- The cursor after a call. -/
theorem moved_after (hc : c.At (opening :: ts))
    (hclosing : Expr.closing? 0 ts = some (inside, close, after)) :
    { c.moved ts c.literal with index := c.index + 1 + inside.length + 1 } =
      c.moved after c.literal := by
  have hlength := congrArg List.length (Descent.drop_eq_of_closing? hc hclosing)
  simp only [List.length_drop, List.length_append, List.length_cons] at hlength
  have hindex : c.index + 1 + inside.length + 1 = c.tokens.length - after.length := by omega
  rw [hindex]
  rfl

/-- A call goes on after the parenthesis that closes it. -/
theorem call_eq (hc : c.At (opening :: ts)) (hopening : opening.kind = .lparen)
    (entries : Cursor → DescentM m (List Entry × Cursor)) (name : Token) :
    Descent.call env entries name c =
      match Expr.closing? 0 ts with
      | none => throw (.failed (.malformed (.unclosedCall name.text)))
      | some (inside, _, after) => do
        let args ← Descent.arguments entries c c.index (c.index + 1 + inside.length)
        match ← Descent.invoke env name.text args with
        | some v => return (v, c.moved after c.literal)
        | none =>
          let source ← Descent.substitute env (c.moved after c.literal) (c.index + 1)
            (c.index + 1 + inside.length)
          return (.plain (name.text ++ ch '(' :: source ++ [ch ')']), c.moved after c.literal) := by
  have hrest : Expr.rest (opening :: ts) = ts := Expr.rest_cons (by simp [hopening])
  rw [Descent.call, hc.next_eq, pure_bind, hrest]
  simp only [Cursor.moved_tokens, Descent.matching_eq hc hopening, pure_bind]
  cases hclosing : Expr.closing? 0 ts with
  | none => rfl
  | some found =>
    obtain ⟨inside, close, after⟩ := found
    simp only [Option.map_some, ← moved_after hc hclosing]
    rfl

theorem primary_call (h : Simulates env valueOf s extra fuel) (hc : c.At ts)
    (hfuel : 10 * ts.length + 1 ≤ fuel + 1) (hkind : (Expr.first ts).kind = .function) :
    Tracks s (Descent.primary env (extra + (fuel + 1)) c)
      ((Expr.readPrimary (fuel + 1) c.place ts).1.run env valueOf)
      ((Expr.readPrimary (fuel + 1) c.place ts).2.map
        (c.moved · (Expr.readPrimary (fuel + 1) c.place ts).1.isNumeral)) := by
  obtain ⟨name, opening, ts, rfl, hkind, hopening⟩ := Expr.exists_cons_of_function hc.within hkind
  have hfirst (t : Token) (ts : List Token) : Expr.first (t :: ts) = t := rfl
  have hname : Expr.rest (name :: opening :: ts) = opening :: ts :=
    Expr.rest_cons (by simp [hkind])
  have hparen : (c.moved (opening :: ts) false).At (opening :: ts) :=
    hc.moved (hc.within.cons (by simp [hkind])).2.1 false
  have hprimary : Descent.primary env (extra + (fuel + 1)) c =
      Descent.call env (Descent.entries env (extra + fuel)) name
        (c.moved (opening :: ts) false) := by
    rw [← Nat.add_assoc, Descent.primary, hc.next_eq, pure_bind, hfirst, hname]
    simp only [hkind]
    rfl
  rw [hprimary, call_eq hparen hopening, Expr.readPrimary, hfirst, hname,
    Expr.rest_cons (by simp [hopening]), hfirst]
  simp only [hkind]
  cases hclosing : Expr.closing? 0 ts with
  | none => exact tracks_throw _
  | some found =>
    obtain ⟨inside, close, after⟩ := found
    dsimp only
    split_ifs with hempty
    · obtain rfl := List.isEmpty_iff.mp hempty
      refine tracks_call ?_ ?_
      · rw [Descent.arguments, if_neg (by simp), runEntries_nil]
        simpa [Descent.settled] using follows_pure (m := m) (s := s) (some ([] : List Entry))
      · rw [Descent.substitute, if_pos (by simp)]
        rfl
    · have hinside : inside ≠ [] := by simpa using hempty
      have hsource := Descent.substitute_eq env hparen (by simp [hopening]) hclosing hinside
      have hlength : inside.length < ts.length := by
        rw [(closing?_eq hclosing).1]
        simp
      simp only [List.length_cons] at hfuel
      cases hread : Expr.readMembers fuel { c.place with nested := true }
          (inside ++ [Token.endAt close.start]) with
      | mk items left =>
        have harguments := h.follows_arguments hparen (by simp [hopening]) hclosing hinside
          (by omega) hread
        cases left with
        | none => exact tracks_call harguments hsource
        | some left => exact tracks_call harguments hsource

/-! ### Tokens -/

theorem primary_token (hlooks : LooksUp env valueOf s extra) (hc : c.At ts)
    (hopening : (Expr.first ts).kind ≠ .lparen) (hcall : (Expr.first ts).kind ≠ .function) :
    Tracks s (Descent.primary env (extra + (fuel + 1)) c)
      ((Expr.readPrimary (fuel + 1) c.place ts).1.run env valueOf)
      ((Expr.readPrimary (fuel + 1) c.place ts).2.map
        (c.moved · (Expr.readPrimary (fuel + 1) c.place ts).1.isNumeral)) := by
  have hread : Expr.readPrimary (fuel + 1) c.place ts = (Expr.ofToken (Expr.first ts),
      if (Expr.ofToken (Expr.first ts)).isFailure then none else some (Expr.rest ts)) := by
    rw [Expr.readPrimary]
    dsimp only
    split
    · exact absurd ‹_› hopening
    · exact absurd ‹_› hcall
    · rfl
  rw [hread, ← Nat.add_assoc, Descent.primary, hc.next_eq, pure_bind]
  dsimp only
  by_cases hvar : (Expr.first ts).kind = .var
  · have htree : Expr.ofToken (Expr.first ts) = .var (Expr.first ts).text := by
      simp only [Expr.ofToken, hvar]
    simp only [hvar, htree]
    rw [run_var]
    exact (hlooks _ (Nat.le_add_right _ _) _).tracks _
  split
  · contradiction
  · contradiction
  · contradiction
  obtain ⟨v, hvalue, hrun, hfailure, hnumeral⟩ | ⟨cause, hvalue, htree⟩ :=
    run_ofToken env valueOf hvar
  · rw [hvalue, hrun, hfailure, hnumeral, Descent.ofExcept, pure_bind]
    exact tracks_pure v _
  · rw [hvalue, htree, Descent.ofExcept, throw_bind]
    exact tracks_throw _

theorem primary_succ (h : Simulates env valueOf s extra fuel) (hlooks : LooksUp env valueOf s extra)
    (hc : c.At ts) (hfuel : 10 * ts.length + 1 ≤ fuel + 1) :
    Tracks s (Descent.primary env (extra + (fuel + 1)) c)
      ((Expr.readPrimary (fuel + 1) c.place ts).1.run env valueOf)
      ((Expr.readPrimary (fuel + 1) c.place ts).2.map
        (c.moved · (Expr.readPrimary (fuel + 1) c.place ts).1.isNumeral)) := by
  by_cases hopening : (Expr.first ts).kind = .lparen
  · exact h.primary_paren hc hfuel hopening
  by_cases hcall : (Expr.first ts).kind = .function
  · exact h.primary_call hc hfuel hcall
  · exact primary_token hlooks hc hopening hcall

/-! ### Lists -/

/-- The trees read before stay where they are, and one is added for each value. -/
theorem items_succ (h : Simulates env valueOf s extra fuel) (hc : c.At ts) (before : List Expr)
    (hfuel : 10 * ts.length + 9 ≤ fuel + 1) :
    ∃ literal es, (Expr.readItems (fuel + 1) c.place before ts).1 =
        Expr.ofItems (before.reverse ++ es) ∧
      Tracks s (Descent.items env (extra + (fuel + 1)) c) (runEntries env valueOf (es.map ([], ·)))
        ((Expr.readItems (fuel + 1) c.place before ts).2.map (c.moved · literal)) := by
  obtain ⟨literal, -, htracks⟩ := h.level .or hc (by simp only [Level.rank]; omega)
  rw [Expr.readItems, ← Nat.add_assoc, Descent.items]
  cases hread : Expr.readLevel fuel c.place .or ts with
  | mk e left =>
    rw [hread] at htracks
    cases left with
    | none =>
      refine ⟨false, [e], by simp, ?_⟩
      rw [List.map_singleton, runEntries_cons]
      exact htracks.stop
    | some left =>
      have hleft := (Expr.consumes c.source fuel).level hc.within hread
      have hshorter := hleft.shorter
      have hmoved := hc.moved hleft literal
      have hnext : (Expr.first left).kind = Expr.firstKind left := rfl
      dsimp only
      split_ifs with hend
      · refine ⟨literal, [e], by simp, ?_⟩
        rw [List.map_singleton, runEntries_cons]
        refine htracks.bind fun v => ?_
        simp only [hmoved.peek_eq, pure_bind, hnext, if_pos hend, runEntries_nil]
        exact tracks_pure _ _
      · obtain ⟨literal', es, htree, hitems⟩ := h.items (e :: before) hmoved (by omega)
        refine ⟨literal', e :: es, by simpa using htree, ?_⟩
        rw [List.map_cons, runEntries_cons]
        refine htracks.bind fun v => ?_
        simp only [hmoved.peek_eq, pure_bind, hnext, if_neg hend]
        exact hitems.step fun vs cursor => tracks_pure _ cursor

/-- The key of a member, if there is one, is passed. -/
theorem exists_key (hc : c.At ts) : ∃ key ts', (if Expr.startsKey c.place ts then
      ((Expr.first ts).text, Expr.rest (Expr.rest ts)) else ([], ts)) = (key, ts') ∧
    ts'.length ≤ ts.length ∧ (c.moved ts' c.literal).At ts' ∧
    (c.key : DescentM m (Text × Cursor)) = pure (key, c.moved ts' c.literal) := by
  have hkey := hc.key_eq (m := m)
  split_ifs with hstarts
  · have hleft := Expr.left_of_startsKey hc.within hstarts
    rw [if_pos hstarts] at hkey
    exact ⟨_, _, rfl, hleft.shorter.le, hc.moved hleft c.literal, hkey⟩
  · rw [if_neg hstarts] at hkey
    exact ⟨_, _, rfl, le_rfl, by rwa [hc.moved_self], by rwa [hc.moved_self]⟩

/-- The value of a member is that of the expressions next to each other. -/
theorem runEntries_member (key : Text) (es : List Expr) (rest : List (Text × Expr)) :
    runEntries env valueOf ((key, Expr.ofItems es) :: rest) = (do
      let vs ← runEntries env valueOf (es.map ([], ·))
      let rest ← runEntries env valueOf rest
      return (key, Descent.spaced vs) :: rest) := by
  rw [runEntries_cons, run_ofItems, bind_map_left]

theorem members_succ (h : Simulates env valueOf s extra fuel) (hc : c.At ts)
    (hfuel : 10 * ts.length + 10 ≤ fuel + 1) :
    ∃ literal, Tracks s (Descent.entries env (extra + (fuel + 1)) c)
      (runEntries env valueOf (Expr.readMembers (fuel + 1) c.place ts).1)
      ((Expr.readMembers (fuel + 1) c.place ts).2.map (c.moved · literal)) := by
  obtain ⟨key, ts', hkeyed, hle, hc', hkey⟩ := exists_key (m := m) hc
  obtain ⟨literal, es, htree, htracks⟩ := h.items [] hc' (by omega)
  rw [Expr.readMembers, hkeyed, ← Nat.add_assoc, Descent.entries, hkey, pure_bind]
  dsimp only
  cases hread : Expr.readItems fuel c.place [] ts' with
  | mk e left =>
    rw [Cursor.moved_place, hread] at htree htracks
    obtain rfl : e = Expr.ofItems es := htree
    cases left with
    | none =>
      refine ⟨false, ?_⟩
      rw [runEntries_member]
      exact htracks.stop
    | some left =>
      have hleft := (Expr.consumes c.source fuel).items hc'.within hread
      have hshorter := hleft.shorter
      have hmoved := hc'.moved hleft literal
      have hnext : (Expr.first left).kind = Expr.firstKind left := rfl
      dsimp only
      split_ifs with hcomma hend
      · -- a comma at the end starts no member
        have hrest := hleft.within.rest (by simp [hcomma])
        have hmoved' := hmoved.moved hrest literal
        have hnext' : (Expr.first (Expr.rest left)).kind = Expr.firstKind (Expr.rest left) := rfl
        refine ⟨literal, ?_⟩
        rw [runEntries_member]
        refine htracks.bind fun vs => ?_
        simp only [hmoved.peek_eq, hmoved.next_eq, pure_bind, hnext, if_pos hcomma,
          Cursor.moved_literal, hmoved'.peek_eq, hnext', if_pos hend, runEntries_nil]
        exact tracks_pure _ _
      · have hrest := hleft.within.rest (by simp [hcomma])
        have hmoved' := hmoved.moved hrest literal
        have hnext' : (Expr.first (Expr.rest left)).kind = Expr.firstKind (Expr.rest left) := rfl
        -- after another comma the members go on
        have hshorter' := hrest.shorter
        obtain ⟨literal', hmembers⟩ := h.members hmoved' (by omega)
        refine ⟨literal', ?_⟩
        rw [runEntries_member]
        refine htracks.bind fun vs => ?_
        simp only [hmoved.peek_eq, hmoved.next_eq, pure_bind, hnext, if_pos hcomma,
          Cursor.moved_literal, hmoved'.peek_eq, hnext', if_neg hend]
        exact hmembers.step fun rest cursor => tracks_pure _ cursor
      · refine ⟨literal, ?_⟩
        rw [runEntries_member]
        refine htracks.bind fun vs => ?_
        simp only [hmoved.peek_eq, pure_bind, hnext, if_neg hcomma, runEntries_nil]
        exact tracks_pure _ _

end Simulates

/-- By induction on the fuel of the readers: each step of a reader takes one unit of it, and so does
each step of the descent. -/
theorem simulates [LawfulMonad m] {extra : Nat} (hlooks : LooksUp env valueOf s extra)
    (fuel : Nat) : Simulates env valueOf s extra fuel := by
  induction fuel with
  | zero =>
    refine ⟨?_, ?_, ?_, ?_, ?_⟩
    · intro c ts l hc hfuel
      have := l.rank_le
      omega
    all_goals
      intros
      omega
  | succ fuel ih =>
    exact ⟨fun l hc => ih.level_succ hc l, fun l _ _ hc => ih.more_succ hc l,
      fun hc => ih.primary_succ hlooks hc, fun before hc => ih.items_succ hc before,
      fun hc => ih.members_succ hc⟩

end Stylesheet
