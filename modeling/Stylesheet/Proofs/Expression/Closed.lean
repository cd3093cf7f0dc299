import Mathlib.Tactic.SplitIfs
import Stylesheet.Expression.Eval

/-!
# Closed expressions

An expression is closed if no variable occurs in it. Its value depends on nothing but
how functions answer, and if there are no calls in it either it depends on nothing at
all. A text without the sigil of variables reads as a closed expression, and one without
a parenthesis as one without calls.

## Main definitions

* `Expr.Closed` — expressions without variables, and without calls unless these are allowed
* `Token.Plain` — the tokens that closed expressions are read from

## Main results

* `Expr.Closed.eval_eq` — the value of a closed expression
* `Expr.closed_of_parse` — texts that read as closed expressions
* `evalText_eq_of_plain` — the value of a text without variables
-/

namespace Stylesheet

open Text

/-- No variable occurs, neither in the tree nor in the source of a call; calls occur only
if they are allowed. -/
inductive Expr.Closed (calls : Prop) : Expr → Prop
  | constant (v : Value) : Closed calls (.constant v)
  | numeral (n : Number) : Closed calls (.numeral n)
  | call {name : Text} {args : List (Text × Expr)} {complete : Bool} {source : List Piece}
      (hcalls : calls) (hargs : ∀ a ∈ args, Closed calls a.2)
      (hsource : ∀ p ∈ source, ∃ t, p = .text t) : Closed calls (.call name args complete source)
  | group {e : Expr} (h : Closed calls e) : Closed calls (.group e)
  | negate {e : Expr} (h : Closed calls e) : Closed calls (.negate e)
  | not {e : Expr} (h : Closed calls e) : Closed calls (.not e)
  | bang {e : Expr} (h : Closed calls e) : Closed calls (.bang e)
  | binary {op : BinaryOp} {left right : Expr} (hleft : Closed calls left)
      (hright : Closed calls right) : Closed calls (.binary op left right)
  | ratio {left right : Expr} (hleft : Closed calls left) (hright : Closed calls right) :
      Closed calls (.ratio left right)
  | list {sep : Text} {items : List (Text × Expr)} (h : ∀ a ∈ items, Closed calls a.2) :
      Closed calls (.list sep items)
  | thenFail {e : Expr} {cause : Malformed} (h : Closed calls e) : Closed calls (.thenFail e cause)
  | fail (cause : Malformed) : Closed calls (.fail cause)

/-! ### Values -/

section Values

variable {m : Type → Type} {env : Env m} {valueOf : Text → m Value} {calls : Prop}
  {answer : Text → List Entry → Except CallError (Option Value)}

/-- An environment without variables, whose functions answer at once. -/
def Env.answering (answer : Text → List Entry → Except CallError (Option Value)) : Env Id where
  vars := []
  call name args := answer name args

/-- The value of a tree in an environment without variables. -/
def Expr.valueAnswering (answer : Text → List Entry → Except CallError (Option Value)) (e : Expr) :
    Except EvalError Value :=
  Id.run (e.eval (Env.answering answer) fun name => .plain name)

/-- The values of members in an environment without variables. -/
def entriesAnswering (answer : Text → List Entry → Except CallError (Option Value))
    (items : List (Text × Expr)) : Except EvalError (List Entry) :=
  Id.run (evalEntries (Env.answering answer) (fun name => .plain name) items)

theorem passThrough_eq_of_text {m' : Type → Type} (env' : Env m') {name : Text}
    {source : List Piece} (hsource : ∀ p ∈ source, ∃ t, p = .text t) :
    passThrough env name source = passThrough env' name source := by
  have hpieces : source.flatMap (Piece.expand env) = source.flatMap (Piece.expand env') := by
    rw [List.flatMap_def, List.flatMap_def]
    refine congrArg List.flatten (List.map_congr_left fun p hp => ?_)
    obtain ⟨t, rfl⟩ := hsource p hp
    rfl
  simp only [passThrough, hpieces]

variable [Monad m] [LawfulMonad m]

/-- Members whose values are known in turn. -/
theorem evalEntries_eq {items : List (Text × Expr)}
    (h : ∀ a ∈ items, a.2.eval env valueOf = pure (a.2.valueAnswering answer)) :
    evalEntries env valueOf items = pure (entriesAnswering answer items) := by
  induction items with
  | nil => rfl
  | cons a items ih =>
    obtain ⟨k, e⟩ := a
    have htail := ih fun b hb => h b (List.mem_cons_of_mem _ hb)
    have hcons : entriesAnswering answer ((k, e) :: items) = (do
        let v ← e.valueAnswering answer
        let vs ← entriesAnswering answer items
        pure ((k, v) :: vs)) := by
      simp only [entriesAnswering, evalEntries, Expr.valueAnswering]
      rcases e.eval (Env.answering answer) fun name => .plain name with x | v
      · rfl
      · rcases evalEntries (Env.answering answer) (fun name => .plain name) items with x | vs
        · rfl
        · rfl
    rw [evalEntries, h (k, e) List.mem_cons_self, pure_bind, hcons]
    cases e.valueAnswering answer with
    | error x => rfl
    | ok v =>
      dsimp only
      rw [htail, pure_bind]
      cases entriesAnswering answer items <;> rfl

/-- A call whose arguments are known is answered, or stands for its source. -/
theorem callValue_eq {name : Text} {args : Except EvalError (List Entry)} {complete : Bool}
    {source : List Piece} (hcall : ∀ name args, env.call name args = pure (answer name args))
    (hsource : ∀ p ∈ source, ∃ t, p = .text t) :
    callValue env name args complete source =
      pure (Id.run (callValue (Env.answering answer) name args complete source)) := by
  unfold callValue
  rw [passThrough_eq_of_text (Env.answering answer) hsource]
  rcases args with x | args
  · rfl
  cases complete with
  | false => rfl
  | true =>
    simp only [hcall, pure_bind, Env.answering]
    rcases answer name args with e | (_ | v) <;> rfl

/-- The value of a closed expression depends on how functions are called, if calls are
allowed, and on nothing else. -/
theorem Expr.Closed.eval_eq {e : Expr}
    (hcall : calls → ∀ name args, env.call name args = pure (answer name args))
    (h : e.Closed calls) : e.eval env valueOf = pure (e.valueAnswering answer) := by
  induction h with
  | constant v => rfl
  | numeral n => rfl
  | fail cause => rfl
  | group _ ih => exact ih
  | call hcalls _ hsource ih =>
    rw [Expr.eval, evalEntries_eq ih, pure_bind, callValue_eq (hcall hcalls) hsource]
    rfl
  | @negate e _ ih =>
    rw [Expr.eval, ih, pure_bind]
    simp only [Expr.valueAnswering, Expr.eval]
    rcases e.eval (Env.answering answer) fun name => .plain name with x | v <;> rfl
  | @not e _ ih =>
    rw [Expr.eval, ih, pure_bind]
    simp only [Expr.valueAnswering, Expr.eval]
    rcases e.eval (Env.answering answer) fun name => .plain name with x | v <;> rfl
  | @bang e _ ih =>
    rw [Expr.eval, ih, pure_bind]
    simp only [Expr.valueAnswering, Expr.eval]
    rcases e.eval (Env.answering answer) fun name => .plain name with x | v
    · rfl
    · cases v <;> rfl
  | @binary op left right _ _ ihleft ihright =>
    rw [Expr.eval, ihleft, pure_bind, Expr.valueAnswering, Expr.valueAnswering, Expr.eval]
    -- where the left side fails, the right one is not evaluated
    rcases left.eval (Env.answering answer) fun name => .plain name with x | a
    · rfl
    · dsimp only [Id.run]
      rw [ihright, pure_bind, Expr.valueAnswering]
      rcases right.eval (Env.answering answer) fun name => .plain name with x | b <;> rfl
  | @ratio left right _ _ ihleft ihright =>
    rw [Expr.eval, ihleft, pure_bind, Expr.valueAnswering, Expr.valueAnswering, Expr.eval]
    rcases left.eval (Env.answering answer) fun name => .plain name with x | a
    · rfl
    · dsimp only [Id.run]
      rw [ihright, pure_bind, Expr.valueAnswering]
      rcases right.eval (Env.answering answer) fun name => .plain name with x | b <;> rfl
  | @list sep items _ ih =>
    rw [Expr.eval, evalEntries_eq ih, pure_bind]
    simp only [Expr.valueAnswering, Expr.eval, entriesAnswering]
    -- the items are the members of a list, without their keys
    rcases evalEntries (Env.answering answer) (fun name => .plain name) items with x | vs <;> rfl
  | @thenFail e cause _ ih =>
    rw [Expr.eval, ih, pure_bind]
    simp only [Expr.valueAnswering, Expr.eval]
    rcases e.eval (Env.answering answer) fun name => .plain name with x | v <;> rfl

end Values

/-! ### Reading -/

/-- A token of closed expressions: no variable, and no call unless calls are allowed. -/
structure Token.Plain (calls : Prop) (t : Token) : Prop where
  not_var : t.kind ≠ .var
  calls_of_function : t.kind = .function → calls

namespace Expr

variable {calls : Prop} {ts : List Token}

/-- What was read satisfies `P`, and the tokens left are plain. -/
structure Reads {α : Type} (calls : Prop) (P : α → Prop) (r : Parsed α) : Prop where
  read : P r.1
  left : ∀ ts, r.2 = some ts → ∀ t ∈ ts, t.Plain calls

theorem plain_endAt (offset : Nat) : (Token.endAt offset).Plain calls := ⟨nofun, nofun⟩

theorem plain_first (h : ∀ t ∈ ts, t.Plain calls) : (first ts).Plain calls := by
  cases ts with
  | nil => exact plain_endAt 0
  | cons t ts => exact h t List.mem_cons_self

theorem plain_rest (h : ∀ t ∈ ts, t.Plain calls) : ∀ t ∈ rest ts, t.Plain calls := by
  intro t ht
  cases ts with
  | nil => exact absurd ht List.not_mem_nil
  | cons u ts =>
    rw [rest] at ht
    split_ifs at ht
    · exact h t ht
    · exact h t (List.mem_cons_of_mem u ht)

theorem closed_combine {place : Place} {op : BinaryOp} {left right : Expr}
    (hleft : left.Closed calls) (hright : right.Closed calls) :
    (combine place op left right).Closed calls := by
  unfold combine
  split_ifs
  · exact .ratio hleft hright
  · exact .binary hleft hright

theorem closed_ofMembers {items : List (Text × Expr)} (h : ∀ a ∈ items, a.2.Closed calls) :
    (ofMembers items).Closed calls := by
  unfold ofMembers
  split
  · split_ifs
    · exact h _ List.mem_cons_self
    · exact .list h
  · exact .list h

theorem closed_ofItems {items : List Expr} (h : ∀ e ∈ items, e.Closed calls) :
    (ofItems items).Closed calls := by
  unfold ofItems
  split
  · exact h _ List.mem_cons_self
  · refine .list fun a ha => ?_
    obtain ⟨e, he, rfl⟩ := List.mem_map.mp ha
    exact h e he

theorem closed_ofToken {t : Token} (h : t.Plain calls) : (ofToken t).Closed calls := by
  unfold ofToken
  split
  · split
    · exact .numeral _
    · exact .fail _
  · exact .constant _
  · exact .constant _
  · split
    · exact .constant _
    · exact .constant _
  · exact absurd ‹t.kind = .var› h.not_var
  · exact .constant _
  · exact .fail _

/-- What stands inside a parenthesis and after it stood in the text. -/
theorem mem_of_closing? {depth : Nat} {inside after : List Token} {close : Token}
    (h : closing? depth ts = some (inside, close, after)) :
    (∀ t ∈ inside, t ∈ ts) ∧ ∀ t ∈ after, t ∈ ts := by
  induction ts generalizing depth inside after close with
  | nil => simp [closing?] at h
  | cons u ts ih =>
    have hdeeper {depth : Nat}
        (hsome : ((closing? depth ts).map fun found => (u :: found.1, found.2)) =
          some (inside, close, after)) :
        (∀ t ∈ inside, t ∈ u :: ts) ∧ ∀ t ∈ after, t ∈ u :: ts := by
      obtain ⟨⟨inside', c, after'⟩, hfound, heq⟩ := Option.map_eq_some_iff.mp hsome
      cases heq
      obtain ⟨hinside, hafter⟩ := ih hfound
      refine ⟨fun t ht => ?_, fun t ht => List.mem_cons_of_mem u (hafter t ht)⟩
      rcases List.mem_cons.mp ht with rfl | ht
      · exact List.mem_cons_self
      · exact List.mem_cons_of_mem u (hinside t ht)
    unfold closing? at h
    split at h
    · cases h
      exact ⟨by simp, fun t ht => List.mem_cons_of_mem u ht⟩
    · exact hdeeper h
    · exact hdeeper h
    · exact hdeeper h

theorem text_of_mem_pieces {source : Text} {start stop : Nat} (h : ∀ t ∈ ts, t.Plain calls) :
    ∀ p ∈ pieces source start stop ts, ∃ t, p = .text t := by
  induction ts generalizing start with
  | nil => simp [pieces]
  | cons t ts ih =>
    have hkind : t.kind ≠ .var := (h t List.mem_cons_self).not_var
    rw [pieces, if_neg hkind]
    exact ih fun u hu => h u (List.mem_cons_of_mem t hu)

/-- With this fuel every reader reads closed expressions from plain tokens. -/
structure ReadsClosed (calls : Prop) (fuel : Nat) : Prop where
  level : ∀ place level {ts}, (∀ t ∈ ts, t.Plain calls) →
    Reads calls (Closed calls) (readLevel fuel place level ts)
  more : ∀ {place level left ts}, left.Closed calls → (∀ t ∈ ts, t.Plain calls) →
    Reads calls (Closed calls) (readMore fuel place level left ts)
  primary : ∀ {place ts}, (∀ t ∈ ts, t.Plain calls) →
    Reads calls (Closed calls) (readPrimary fuel place ts)
  items : ∀ place {items ts}, (∀ e ∈ items, e.Closed calls) → (∀ t ∈ ts, t.Plain calls) →
    Reads calls (Closed calls) (readItems fuel place items ts)
  members : ∀ place {ts}, (∀ t ∈ ts, t.Plain calls) →
    Reads calls (fun items => ∀ a ∈ items, a.2.Closed calls) (readMembers fuel place ts)

variable {fuel : Nat}

theorem Reads.map {α β : Type} {P : α → Prop} {Q : β → Prop} {r : Parsed α} {f : α → β}
    (h : Reads calls P r) (hf : ∀ a, P a → Q (f a)) : Reads calls Q (f r.1, r.2) :=
  ⟨hf r.1 h.read, h.left⟩

theorem reads_stop {α : Type} {P : α → Prop} {a : α} (h : P a) : Reads calls P (a, none) :=
  ⟨h, nofun⟩

theorem reads_some {α : Type} {P : α → Prop} {a : α} (h : P a) (hts : ∀ t ∈ ts, t.Plain calls) :
    Reads calls P (a, some ts) := by
  refine ⟨h, fun ts' heq => ?_⟩
  cases heq
  exact hts

namespace ReadsClosed

/-- An operand and the operators after it. -/
theorem readLevel_binary (h : ReadsClosed calls fuel) (hts : ∀ t ∈ ts, t.Plain calls)
    {place : Place} {level : Level} :
    Reads calls (Closed calls)
      (match readLevel fuel place level.next ts with
        | (e, some ts) => readMore fuel place level e ts
        | (e, none) => (e, none)) := by
  have hnext := h.level place level.next hts
  generalize readLevel fuel place level.next ts = r at hnext
  rcases r with ⟨e, _ | left⟩
  · exact reads_stop hnext.read
  · exact h.more hnext.read (hnext.left left rfl)

theorem readLevel_succ (h : ReadsClosed calls fuel) (hts : ∀ t ∈ ts, t.Plain calls)
    {place : Place} {level : Level} :
    Reads calls (Closed calls) (readLevel (fuel + 1) place level ts) := by
  cases level with
  | unary =>
    rw [readLevel]
    split
    · exact (h.level _ _ (plain_rest hts)).map fun _ => .negate
    · exact h.level _ _ (plain_rest hts)
    · exact h.primary hts
  | not =>
    rw [readLevel]
    split
    · exact (h.level _ _ (plain_rest hts)).map fun _ => .not
    · exact (h.level _ _ (plain_rest hts)).map fun _ => .bang
    · exact h.level _ _ hts
  | or => exact h.readLevel_binary hts
  | and => exact h.readLevel_binary hts
  | compare => exact h.readLevel_binary hts
  | sum => exact h.readLevel_binary hts
  | product => exact h.readLevel_binary hts

theorem readMore_succ (h : ReadsClosed calls fuel) {left : Expr} (hleft : left.Closed calls)
    (hts : ∀ t ∈ ts, t.Plain calls) {place : Place} {level : Level} :
    Reads calls (Closed calls) (readMore (fuel + 1) place level left ts) := by
  rw [readMore]
  split
  · exact reads_some hleft hts
  · have hright := h.level place level.next (plain_rest hts)
    generalize readLevel fuel place level.next (rest ts) = r at hright
    rcases r with ⟨right, _ | ts'⟩
    · exact reads_stop (.binary hleft hright.read)
    · exact h.more (closed_combine hleft hright.read) (hright.left ts' rfl)

/-- A call, whose arguments are read from the tokens inside its parentheses. -/
theorem readPrimary_call (h : ReadsClosed calls fuel) (hcalls : calls)
    (hts : ∀ t ∈ ts, t.Plain calls) {place : Place} {name : Text} :
    Reads calls (Closed calls)
      (match closing? 0 (rest ts) with
        | none => (.fail (.unclosedCall name), none)
        | some (inside, close, after) =>
          if inside.isEmpty then (.call name [] true [], some after)
          else
            let place' := { place with nested := true }
            let source := pieces place.source (first ts).stop close.start inside
            match readMembers fuel place' (inside ++ [Token.endAt close.start]) with
            | (items, some left) => (.call name items (firstKind left = .eof) source, some after)
            | (items, none) => (.call name items false source, some after)) := by
  cases hclose : closing? 0 (rest ts) with
  | none => exact reads_stop (.fail _)
  | some found =>
    obtain ⟨inside, close, after⟩ := found
    obtain ⟨hinside, hafter⟩ := mem_of_closing? hclose
    have hinside (t : Token) (ht : t ∈ inside) := plain_rest hts t (hinside t ht)
    have hafter (t : Token) (ht : t ∈ after) := plain_rest hts t (hafter t ht)
    -- the arguments are read up to an end that is put there
    have hend : ∀ t ∈ inside ++ [Token.endAt close.start], t.Plain calls := by
      intro t ht
      rcases List.mem_append.mp ht with ht | ht
      · exact hinside t ht
      · obtain rfl := List.mem_singleton.mp ht
        exact plain_endAt _
    dsimp only
    split_ifs
    · exact reads_some (.call hcalls (by simp) (by simp)) hafter
    · have hmembers := h.members { place with nested := true } hend
      generalize readMembers fuel { place with nested := true } _ = r at hmembers
      rcases r with ⟨items, _ | left⟩
      · exact reads_some (.call hcalls hmembers.read (text_of_mem_pieces hinside)) hafter
      · exact reads_some (.call hcalls hmembers.read (text_of_mem_pieces hinside)) hafter

theorem readPrimary_succ (h : ReadsClosed calls fuel) (hts : ∀ t ∈ ts, t.Plain calls)
    {place : Place} : Reads calls (Closed calls) (readPrimary (fuel + 1) place ts) := by
  have hfirst := plain_first hts
  rw [readPrimary]
  dsimp only
  split
  · split_ifs
    · exact reads_some (.constant _) (plain_rest (plain_rest hts))
    · have hmembers := h.members { place with nested := true } (plain_rest hts)
      generalize readMembers fuel { place with nested := true } _ = r at hmembers
      rcases r with ⟨items, _ | left⟩
      · exact reads_stop (closed_ofMembers hmembers.read)
      · dsimp only
        split_ifs
        · exact reads_some (.group (closed_ofMembers hmembers.read))
            (plain_rest (hmembers.left left rfl))
        · exact reads_stop (.thenFail (closed_ofMembers hmembers.read))
  · exact h.readPrimary_call (hfirst.calls_of_function ‹_›) (plain_rest hts)
  · split_ifs
    · exact reads_stop (closed_ofToken hfirst)
    · exact reads_some (closed_ofToken hfirst) (plain_rest hts)

theorem readItems_succ (h : ReadsClosed calls fuel) {items : List Expr}
    (hitems : ∀ e ∈ items, e.Closed calls) (hts : ∀ t ∈ ts, t.Plain calls) {place : Place} :
    Reads calls (Closed calls) (readItems (fuel + 1) place items ts) := by
  rw [readItems]
  have hnext := h.level place .or hts
  generalize readLevel fuel place .or ts = r at hnext
  obtain ⟨e, left⟩ := r
  have hcons : ∀ e' ∈ e :: items, e'.Closed calls := List.forall_mem_cons.mpr ⟨hnext.read, hitems⟩
  have hreverse : (ofItems (e :: items).reverse).Closed calls :=
    closed_ofItems fun e' he' => hcons e' (List.mem_reverse.mp he')
  cases left with
  | none => exact reads_stop hreverse
  | some left =>
    dsimp only
    split_ifs
    · exact reads_some hreverse (hnext.left left rfl)
    · exact h.items _ hcons (hnext.left left rfl)

theorem readMembers_succ (h : ReadsClosed calls fuel) (hts : ∀ t ∈ ts, t.Plain calls)
    {place : Place} : Reads calls (fun items => ∀ a ∈ items, a.2.Closed calls)
      (readMembers (fuel + 1) place ts) := by
  have hone {key : Text} {e : Expr} (he : e.Closed calls) (a : Text × Expr) (ha : a ∈ [(key, e)]) :
      a.2.Closed calls := by
    obtain rfl := List.mem_singleton.mp ha
    exact he
  -- a key takes two tokens, and is no part of the expression
  obtain ⟨key, left, hkey, hleft⟩ : ∃ key left,
      (if startsKey place ts then ((first ts).text, rest (rest ts)) else ([], ts)) = (key, left) ∧
        ∀ t ∈ left, t.Plain calls := by
    split_ifs
    · exact ⟨_, _, rfl, plain_rest (plain_rest hts)⟩
    · exact ⟨_, _, rfl, hts⟩
  rw [readMembers, hkey]
  dsimp only
  have hnext := h.items place (List.forall_mem_nil _) hleft
  generalize readItems fuel place [] left = r at hnext
  obtain ⟨e, _ | left⟩ := r
  · exact reads_stop (hone hnext.read)
  · have hleft := hnext.left left rfl
    dsimp only
    split_ifs
    · exact reads_some (hone hnext.read) (plain_rest hleft)
    · exact (h.members _ (plain_rest hleft)).map fun items hitems =>
        List.forall_mem_cons.mpr ⟨hnext.read, hitems⟩
    · exact reads_some (hone hnext.read) hleft

end ReadsClosed

theorem readsClosed (calls : Prop) (fuel : Nat) : ReadsClosed calls fuel := by
  induction fuel with
  | zero =>
    refine ⟨fun _ _ _ _ => reads_stop (.fail _), fun hleft _ => reads_stop (.thenFail hleft),
      fun _ => reads_stop (.fail _),
      fun _ _ _ hitems _ => reads_stop (closed_ofItems fun e he => ?_),
      fun _ _ _ => reads_stop fun a ha => ?_⟩
    · rcases List.mem_cons.mp (List.mem_reverse.mp he) with rfl | he
      · exact .fail _
      · exact hitems e he
    · obtain rfl := List.mem_singleton.mp ha
      exact .fail _
  | succ fuel ih =>
    exact ⟨fun _ _ _ hts => ih.readLevel_succ hts, fun hleft hts => ih.readMore_succ hleft hts,
      fun hts => ih.readPrimary_succ hts, fun _ _ _ hitems hts => ih.readItems_succ hitems hts,
      fun _ _ hts => ih.readMembers_succ hts⟩

theorem closed_read {source : Text} (hts : ∀ t ∈ ts, t.Plain calls) :
    (read source ts).Closed calls := by
  have hmembers := (readsClosed calls (enoughFuel ts.length)).members ⟨source, false⟩ hts
  unfold read
  generalize readMembers (enoughFuel ts.length) ⟨source, false⟩ ts = r at hmembers
  obtain ⟨items, _ | left⟩ := r
  · exact closed_ofMembers hmembers.read
  · dsimp only
    split_ifs
    · exact closed_ofMembers hmembers.read
    · exact .thenFail (closed_ofMembers hmembers.read)

end Expr

/-! ### Tokens of a text -/

namespace Token

variable {c : UInt8} {r : Text}

theorem mem_of_head0_eq {t : Text} {k : UInt8} (hk : k ≠ 0) (h : head0 t = k) : k ∈ t := by
  cases t with
  | nil => exact absurd h.symm hk
  | cons a t =>
    cases h
    exact List.mem_cons_self

theorem wordKind_ne_var (word rest : Text) : wordKind word rest ≠ .var := by
  unfold wordKind
  dsimp only
  split_ifs <;> decide

theorem mem_of_wordKind_function {word rest : Text} (h : wordKind word rest = .function) :
    ch '(' ∈ rest := by
  unfold wordKind at h
  dsimp only at h
  split_ifs at h with hparen
  exact mem_of_head0_eq (by decide) hparen

theorem forall_some_ite {α : Type} {P : α → Prop} {p : Prop} [Decidable p] {x y : Option α}
    (hx : p → ∀ a, x = some a → P a) (hy : ∀ a, y = some a → P a) :
    ∀ a, (if p then x else y) = some a → P a := by
  split
  · exact hx ‹p›
  · exact hy

/-- Punctuation is one byte, or two of which the second is an equals sign. -/
theorem punctuation?_spec {d : UInt8} : ∀ a, punctuation? c d = some a →
    a.1 ∉ [.eof, .string, .number, .var, .function] ∧ (a.2 = 1 ∨ a.2 = 2 ∧ d = ch '=') := by
  have hone {k : TokenKind} (hk : k ∉ [.eof, .string, .number, .var, .function]) :
      ∀ a, some (k, 1) = some a →
        a.1 ∉ [.eof, .string, .number, .var, .function] ∧ (a.2 = 1 ∨ a.2 = 2 ∧ d = ch '=') := by
    rintro a ⟨⟩
    exact ⟨hk, .inl rfl⟩
  have htwo {k : TokenKind} (hk : k ∉ [.eof, .string, .number, .var, .function])
      (hd : d = ch '=') : ∀ a, some (k, 2) = some a →
        a.1 ∉ [.eof, .string, .number, .var, .function] ∧ (a.2 = 1 ∨ a.2 = 2 ∧ d = ch '=') := by
    rintro a ⟨⟩
    exact ⟨hk, .inr ⟨rfl, hd⟩⟩
  unfold punctuation?
  -- Splitting all the conditions at once is slow, so they are passed one by one.
  iterate 7 refine forall_some_ite (fun _ => hone (by decide)) ?_
  refine forall_some_ite (fun _ => forall_some_ite (htwo (by decide)) (hone (by decide))) ?_
  refine forall_some_ite (fun h => htwo (by decide) (by simp_all)) ?_
  iterate 2
    refine forall_some_ite (fun _ => forall_some_ite (htwo (by decide)) (hone (by decide))) ?_
  exact nofun

theorem wordOrSign_plain (hsigil : ch '$' ∉ c :: r) {calls : Prop}
    (hcalls : ch '(' ∈ c :: r → calls) :
    (wordOrSign c r).1 ≠ .var ∧ ((wordOrSign c r).1 = .function → calls) := by
  have hdrop {n : Nat} {t : Text} (ht : t.drop n <:+ c :: r) {word : Text}
      (hk : wordKind word (t.drop n) = .function) : calls :=
    hcalls (ht.subset (mem_of_wordKind_function hk))
  unfold wordOrSign
  dsimp only
  split_ifs with hminus hname hspace hvar hcolor hstart
  · refine ⟨wordKind_ne_var _ _, hdrop ?_⟩
    exact (List.drop_suffix _ r).trans (List.suffix_cons c r)
  · exact ⟨nofun, nofun⟩
  · exact ⟨nofun, nofun⟩
  · simp only [Bool.and_eq_true, decide_eq_true_eq] at hvar
    exact absurd (hvar.1 ▸ List.mem_cons_self) hsigil
  · exact ⟨nofun, nofun⟩
  · exact ⟨wordKind_ne_var _ _, hdrop (List.drop_suffix _ _)⟩
  · exact ⟨nofun, nofun⟩

theorem plain_of_lex (hsigil : ch '$' ∉ c :: r) {calls : Prop} (hcalls : ch '(' ∈ c :: r → calls)
    {offset : Nat} {t : Token} (h : lex offset c r = .ok t) : t.Plain calls := by
  unfold lex at h
  dsimp only at h
  split at h
  · rename_i k n hk
    cases h
    have hkind : k ∉ [.eof, .string, .number, .var, .function] := (punctuation?_spec _ hk).1
    refine ⟨?_, fun hfunction : k = .function => absurd (hfunction ▸ hkind) (by decide)⟩
    rintro rfl
    exact absurd hkind (by decide)
  split_ifs at h
  · split at h
    · cases h
      exact ⟨nofun, nofun⟩
    · cases h
  · cases h
    exact ⟨nofun, nofun⟩
  · cases h
    obtain ⟨hvar, hfunction⟩ := wordOrSign_plain hsigil hcalls
    exact ⟨hvar, hfunction⟩

/-- The tokens of a text without sigils, by induction on the text. -/
theorem plain_of_scanFrom {calls : Prop} {text : Text} (hsigil : ch '$' ∉ text)
    (hcalls : ch '(' ∈ text → calls) {skip offset : Nat} {ts : List Token}
    (h : scanFrom skip offset text = .ok ts) : ∀ t ∈ ts, t.Plain calls := by
  induction text generalizing skip offset ts with
  | nil =>
    intro t ht
    cases skip <;>
    · cases h
      obtain rfl := List.mem_singleton.mp ht
      exact Expr.plain_endAt offset
  | cons c r ih =>
    have hrest := @ih (fun hr => hsigil (List.mem_cons_of_mem c hr))
      (fun hr => hcalls (List.mem_cons_of_mem c hr))
    cases skip with
    | succ k => exact hrest h
    | zero =>
      rw [scanFrom] at h
      split_ifs at h
      · exact hrest h
      · cases hlex : lex offset c r with
        | error cause =>
          rw [hlex] at h
          cases h
        | ok t =>
          cases hscan : scanFrom (t.stop - offset - 1) (offset + 1) r with
          | error cause =>
            simp only [hlex, hscan, bind, Except.bind] at h
            cases h
          | ok ts' =>
            simp only [hlex, hscan, bind, Except.bind] at h
            cases h
            -- the token is as plain as the text it is cut from, and those after it are read from
            -- the rest
            exact List.forall_mem_cons.mpr ⟨plain_of_lex hsigil hcalls hlex, hrest hscan⟩

end Token

/-- A text without sigils reads as a closed expression, without calls if there is no
parenthesis in it. -/
theorem Expr.closed_of_parse {calls : Prop} {t : Text} (hsigil : ch '$' ∉ t)
    (hcalls : ch '(' ∈ t → calls) {e : Expr} (h : Expr.parse t = .ok e) : e.Closed calls := by
  unfold Expr.parse at h
  cases hscan : Token.scan t with
  | error cause =>
    rw [hscan] at h
    cases h
  | ok ts =>
    rw [hscan] at h
    cases h
    exact Expr.closed_read (Token.plain_of_scanFrom hsigil hcalls hscan)

/-- The value of a text without variables: only calls, if there are any, depend on the
environment. -/
theorem evalText_eq_of_plain {m : Type → Type} [Monad m] [LawfulMonad m] {env : Env m}
    {answer : Text → List Entry → Except CallError (Option Value)} {t : Text}
    (hsigil : ch '$' ∉ t)
    (hcall : ch '(' ∈ t → ∀ name args, env.call name args = pure (answer name args)) :
    evalText env t = pure (Id.run (evalText (Env.answering answer) t)) := by
  unfold evalText evalTextWith
  cases hparse : Expr.parse t with
  | error cause => rfl
  | ok e =>
    have hclosed := Expr.closed_of_parse hsigil hcall hparse
    dsimp only
    have hanswering (name : Text) (args : List Entry) :
        (Env.answering answer).call name args = pure (answer name args) := rfl
    rw [hclosed.eval_eq id, hclosed.eval_eq fun _ => hanswering]
    rfl

end Stylesheet
