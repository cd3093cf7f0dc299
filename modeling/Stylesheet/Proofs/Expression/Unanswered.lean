import Stylesheet.Proofs.Expression.Grammar
import Stylesheet.Proofs.Expression.Spans

/-!
# Calls that nobody answers

A text may be a call and nothing else. When no function answers to the call, or its arguments are
not understood or have no value, the call stands for its own text: every byte of it stays, calls
among the arguments included, only that a variable with a value is replaced by it.

There is one exception. Where there is no argument the text in between is not looked at, so white
space between the two parentheses is lost.

## Main definitions

* `IsCall` — texts that are a call and nothing else
* `Unanswered` — calls without a result
* `replaced` — a text with the variables replaced
* `standsFor` — what such a call stands for

## Main results

* `parse_call` — a call is read as one
* `replaced_eq_self` — without variables nothing is replaced
* `unanswered_call` — the value of a call that nobody answers
* `spaced_call_narrowed` — a call that does not stand for its text
-/

namespace Stylesheet

open Text

/-! ### Calls -/

/-- The text is a name, directly followed by a parenthesis, and ends with the parenthesis closing
it. -/
structure IsCall (source : Text) (fn opening : Token) (inside : List Token) (close final : Token) :
    Prop where
  scan : Token.scan source = .ok (fn :: opening :: (inside ++ [close, final]))
  function : fn.kind = .function
  start : fn.start = 0
  closing : Expr.closing? 0 (inside ++ [close, final]) = some (inside, close, [final])
  stop : close.stop = source.length
  text : close.text = [ch ')']

section

variable {m : Type → Type}

/-- The call has no result: its arguments are not understood to the end, or they have no value, or
no function answers to it. -/
def Unanswered [Monad m] (env : Env m) (name : Text) (args : List (Text × Expr)) (complete : Bool) :
    Prop :=
  complete = false ∨
  (∃ failure : m EvalError, evalEntries env (variableValue env (env.vars.length + 1) []) args =
    (do return .error (← failure))) ∨
  ∀ values, ∃ search : m Unit, env.call name values = (do search; return .ok none)

/-- The text from a position on, where the variables among the tokens that have a value are replaced
by it. -/
def replaced (env : Env m) (source : Text) : (pos : Nat) → List Token → Text
  | pos, [] => source.drop pos
  | pos, t :: ts =>
    let spelled := slice source t.start t.stop
    let text := if t.kind = .var then ((env.var? t.text).map Value.text).getD spelled else spelled
    slice source pos t.start ++ text ++ replaced env source t.stop ts

/-- What a call without a result stands for. -/
def standsFor (env : Env m) (source : Text) (fn : Token) (inside : List Token) : Text :=
  if inside = [] then fn.text ++ of "()" else replaced env source 0 inside

end

/-! ### Reading -/

namespace Expr

variable {place : Place} {ts after : List Token} {e : Expr} {fuel : Nat}

/-- An expression without operators is one of any level if it starts with no sign and no operator
follows. -/
theorem readLevel_of_primary (hkind : firstKind ts ∉ [.not, .bang, .sign, .plus])
    (hends : Ends 0 after) (hfuel : 0 < fuel) (h : readPrimary fuel place ts = (e, some after)) :
    ∀ (k : Nat) (level : Level), level.rank + k = Level.unary.rank →
      readLevel (fuel + k + 1) place level ts = (e, some after) := by
  -- from the tightest level outwards, each of which has nothing to add
  intro k
  induction k with
  | zero =>
    intro level hlevel
    obtain rfl : level = .unary := Level.rank_injective hlevel
    rw [Nat.add_zero, readLevel]
    split
    · simp_all
    · simp_all
    · exact h
  | succ k ih =>
    intro level hlevel
    have hunary : level.rank < Level.unary.rank := by omega
    have hnext : readLevel (fuel + k + 1) place level.next ts = (e, some after) := by
      refine ih level.next ?_
      rw [Level.rank_next hunary]
      omega
    by_cases hchains : level.chains = true
    · rw [← Nat.add_assoc, readLevel_chain hchains, hnext]
      exact readMore_ends (hends.mono (Nat.zero_le _)) (by omega)
    · obtain rfl : level = .not := by
        cases level <;> first | rfl | exact absurd rfl hchains | exact absurd hunary (by decide)
      rw [← Nat.add_assoc, readLevel]
      split
      · simp_all
      · simp_all
      · exact hnext

end Expr

namespace IsCall

variable {source : Text} {fn opening close final : Token} {inside : List Token}

theorem spanned (h : IsCall source fn opening inside close final) :
    Spanned source source.length 0 (fn :: opening :: (inside ++ [close, final])) :=
  spanned_of_scan h.scan

/-- The parenthesis stands directly after the name. -/
theorem opening_eq (h : IsCall source fn opening inside close final) :
    opening = ⟨.lparen, [ch '('], fn.stop, fn.stop + 1, none, []⟩ := by
  obtain ⟨-, -, hcall, -⟩ := h.spanned.cons (by simp [h.function])
  exact Option.some.inj (hcall h.function)

/-- The tokens inside are in order between the two parentheses. -/
theorem inside_spanned (h : IsCall source fn opening inside close final) :
    Spanned source close.start opening.stop (inside ++ [Token.endAt close.start]) ∧
      close.Stands source ∧ final.kind = .eof := by
  obtain ⟨-, -, -, hparen⟩ := h.spanned.cons (by simp [h.function])
  obtain ⟨-, -, -, hrest⟩ := hparen.cons (by simp [h.opening_eq])
  obtain ⟨hinside, hstands, hfinal⟩ := hrest.inside (closing?_eq h.closing).2
  refine ⟨hinside, hstands, ?_⟩
  by_contra hkind
  obtain ⟨-, -, -, hnil⟩ := hfinal.cons hkind
  cases hnil

/-- The text is the name, the parentheses and what is between them. -/
theorem source_eq (h : IsCall source fn opening inside close final) :
    source.take opening.stop = fn.text ++ [ch '('] ∧ source.drop close.start = [ch ')'] ∧
      opening.stop ≤ close.start := by
  obtain ⟨hinside, hclose, -⟩ := h.inside_spanned
  obtain ⟨-, hfn, -, hparen⟩ := h.spanned.cons (by simp [h.function])
  obtain ⟨-, hopening, -, -⟩ := hparen.cons (by simp [h.opening_eq])
  have hname : fn.text = source.take fn.stop := by
    rw [hfn.text_eq (by simp [h.function]) (by simp [h.function]), h.start, slice, List.drop_zero]
  have hsign : [ch '('] = slice source fn.stop opening.stop := by
    have htext := hopening.text_eq (by simp [h.opening_eq]) (by simp [h.opening_eq])
    rwa [h.opening_eq] at htext ⊢
  have hend : close.text = slice source close.start close.stop := by
    have hkind : close.kind = .rparen := (closing?_eq h.closing).2
    exact hclose.text_eq (by simp [hkind]) (by simp [hkind])
  refine ⟨?_, ?_, hinside.le_stop⟩
  · rw [hname, hsign, take_append_slice (by simp [h.opening_eq])]
  · rw [← h.text, hend, h.stop, slice, List.take_length]

theorem rest_fn (h : IsCall source fn opening inside close final) :
    Expr.rest (fn :: opening :: (inside ++ [close, final])) =
      opening :: (inside ++ [close, final]) := by
  simp [Expr.rest, h.function]

/-- However the arguments are read, what is read of the text is a call to its end. -/
theorem exists_readPrimary (h : IsCall source fn opening inside close final) (fuel : Nat) :
    ∃ args complete,
      Expr.readPrimary (fuel + 1) ⟨source, false⟩ (fn :: opening :: (inside ++ [close, final])) =
        (.call fn.text args complete
          (if inside = [] then [] else Expr.pieces source opening.stop close.start inside),
          some [final]) := by
  have hinner : Expr.rest (opening :: (inside ++ [close, final])) = inside ++ [close, final] := by
    simp [Expr.rest, h.opening_eq]
  rw [Expr.readPrimary]
  simp only [h.rest_fn, hinner, h.closing, Expr.first, List.headD_cons, h.function,
    List.isEmpty_iff]
  split_ifs with hnil
  · exact ⟨[], true, rfl⟩
  · generalize Expr.readMembers fuel _ _ = r
    obtain ⟨items, _ | left⟩ := r
    · exact ⟨items, false, rfl⟩
    · exact ⟨items, _, rfl⟩

/-- A call is read as one. -/
theorem parse_call (h : IsCall source fn opening inside close final) : ∃ args complete,
    Expr.parse source = .ok (.call fn.text args complete
      (if inside = [] then [] else Expr.pieces source opening.stop close.start inside)) := by
  obtain ⟨-, -, hfinal⟩ := h.inside_spanned
  have hends : Ends 0 [final] := ends_closing (.inr hfinal) [] 0
  have hkind : Expr.firstKind [final] = .eof := hfinal
  obtain ⟨fuel, hfuel⟩ : ∃ fuel,
      Expr.enoughFuel (fn :: opening :: (inside ++ [close, final])).length =
        fuel + 1 + 6 + 1 + 1 + 1 := by
    have hlength : (fn :: opening :: (inside ++ [close, final])).length = inside.length + 4 := by
      simp
    rw [Expr.enoughFuel, hlength]
    exact ⟨16 * inside.length + 70, by omega⟩
  -- at each level up to the members of a list, the call is all there is
  obtain ⟨args, complete, hread⟩ := h.exists_readPrimary fuel
  generalize hcall : Expr.call fn.text args complete
    (if inside = [] then [] else Expr.pieces source opening.stop close.start inside) = call at hread
  refine ⟨args, complete, ?_⟩
  rw [hcall]
  have hlevel := Expr.readLevel_of_primary (by simp [Expr.firstKind, Expr.first, h.function]) hends
    (Nat.succ_pos _) hread 6 .or rfl
  have hitems : Expr.readItems (fuel + 1 + 6 + 1 + 1) ⟨source, false⟩ []
      (fn :: opening :: (inside ++ [close, final])) = (call, some [final]) := by
    rw [Expr.readItems, hlevel]
    simp only [hkind, Expr.endsItem, if_true]
    rfl
  have hkey :
      Expr.startsKey ⟨source, false⟩ (fn :: opening :: (inside ++ [close, final])) = false := by
    simp [Expr.startsKey, h.opening_eq]
  have hmembers : Expr.readMembers (Expr.enoughFuel
      (fn :: opening :: (inside ++ [close, final])).length) ⟨source, false⟩
        (fn :: opening :: (inside ++ [close, final])) = ([([], call)], some [final]) := by
    rw [hfuel, Expr.readMembers, hkey]
    simp only [Bool.false_eq_true, if_false, hitems, hkind, reduceCtorEq]
  rw [Expr.parse, h.scan, Except.map, Expr.read, hmembers]
  simp only [hkind, if_true]
  rfl

end IsCall

/-! ### Replacing variables -/

section

variable {m : Type → Type} {env : Env m} {source : Text} {pos stop : Nat} {inside : List Token}

/-- Replacing from further ahead. -/
theorem slice_append_replaced (env : Env m) {start : Nat}
    (h : Spanned source stop pos (inside ++ [Token.endAt stop])) (hstop : stop ≤ source.length)
    (hstart : start ≤ pos) :
    slice source start pos ++ replaced env source pos inside =
      replaced env source start inside := by
  cases inside with
  | nil => exact slice_append_drop hstart (h.le_stop.trans hstop)
  | cons t inside =>
    have hkind : t.kind ≠ .eof := fun hend => by simpa using (h.end_eq hend).2
    obtain ⟨hpos, -, -, -⟩ := h.cons hkind
    simp only [replaced, ← List.append_assoc, slice_append_slice hstart hpos]

/-- The pieces of the source of a call, put together with the variables replaced. The cursor may be
behind: it moves on at variables only. -/
theorem flatMap_pieces (env : Env m) {start : Nat}
    (h : Spanned source stop pos (inside ++ [Token.endAt stop])) (hstop : stop ≤ source.length)
    (hstart : start ≤ pos) :
    (Expr.pieces source start stop inside).flatMap (Piece.expand env) ++ source.drop stop =
      slice source start pos ++ replaced env source pos inside := by
  -- token by token: what is replaced are the variables, and all between them is copied
  induction inside generalizing start pos with
  | nil =>
    have hle := h.le_stop
    rw [Expr.pieces, replaced, slice_append_drop hstart (hle.trans hstop), List.flatMap_singleton,
      Piece.expand, slice_append_drop (hstart.trans hle) hstop]
  | cons t inside ih =>
    have hkind : t.kind ≠ .eof := fun hend => by simpa using (h.end_eq hend).2
    obtain ⟨hpos, ht, -, hrest⟩ := h.cons hkind
    have hlt := ht.start_lt.le
    rw [Expr.pieces, replaced]
    by_cases hvar : t.kind = .var
    · have htext : t.text = slice source t.start t.stop :=
        ht.text_eq (by simp [hvar]) (by simp [hvar])
      have hrest := ih hrest le_rfl
      rw [slice_self, List.nil_append] at hrest
      rw [if_pos hvar, if_pos hvar, List.flatMap_cons, List.flatMap_cons, List.append_assoc,
        List.append_assoc, hrest, Piece.expand, Piece.expand, htext,
        ← slice_append_slice hstart hpos]
      simp only [List.append_assoc]
    · rw [if_neg hvar, if_neg hvar, ih hrest (hstart.trans (hpos.trans hlt)), ← List.append_assoc,
        ← List.append_assoc, slice_append_slice hstart hpos,
        slice_append_slice (hstart.trans hpos) hlt]

/-- Where no variable has a value nothing is replaced. -/
theorem replaced_eq_drop (h : Spanned source stop pos (inside ++ [Token.endAt stop]))
    (hvars : ∀ t ∈ inside, t.kind = .var → env.var? t.text = none) :
    replaced env source pos inside = source.drop pos := by
  induction inside generalizing pos with
  | nil => rfl
  | cons t inside ih =>
    have hkind : t.kind ≠ .eof := fun hend => by simpa using (h.end_eq hend).2
    obtain ⟨hpos, ht, -, hrest⟩ := h.cons hkind
    have hlt := ht.start_lt.le
    have hspelled : (if t.kind = .var then
        ((env.var? t.text).map Value.text).getD (slice source t.start t.stop)
        else slice source t.start t.stop) = slice source t.start t.stop := by
      split_ifs with hvar
      · rw [hvars t List.mem_cons_self hvar]
        rfl
      · rfl
    rw [replaced, hspelled, ih hrest fun u hu => hvars u (List.mem_cons_of_mem t hu),
      slice_append_slice hpos hlt, slice_append_drop (hpos.trans hlt) ht.stop_le]

end

/-! ### Values -/

section

variable {m : Type → Type} {env : Env m} {source : Text} {fn opening close final : Token}
  {inside : List Token}

/-- The source of a call with its variables replaced, unless there is nothing inside. -/
theorem passThrough_eq (h : IsCall source fn opening inside close final) :
    passThrough env fn.text
        (if inside = [] then [] else Expr.pieces source opening.stop close.start inside) =
      .plain (standsFor env source fn inside) := by
  unfold passThrough standsFor
  split_ifs with hnil
  · exact congrArg Value.plain (List.append_assoc _ _ _)
  · obtain ⟨hopening, hclose, hle⟩ := h.source_eq
    obtain ⟨hinside, hstands, -⟩ := h.inside_spanned
    have hstop : close.start ≤ source.length := hstands.start_lt.le.trans hstands.stop_le
    have hpieces := flatMap_pieces env hinside hstop le_rfl
    rw [slice_self, List.nil_append, hclose] at hpieces
    have hall := slice_append_replaced env hinside hstop (Nat.zero_le _)
    rw [slice, List.drop_zero, hopening, ← hpieces] at hall
    rw [← hall]
    simp

theorem replaced_eq_self (h : IsCall source fn opening inside close final)
    (hvars : ∀ t ∈ inside, t.kind = .var → env.var? t.text = none) :
    replaced env source 0 inside = source := by
  obtain ⟨hinside, -, -⟩ := h.inside_spanned
  exact replaced_eq_drop (hinside.mono (Nat.zero_le _)) hvars

/-- A call stands for its text with the variables replaced, unless it has no arguments and there is
white space in place of them. -/
theorem standsFor_eq_iff (h : IsCall source fn opening inside close final) :
    standsFor env source fn inside = replaced env source 0 inside ↔
      inside ≠ [] ∨ opening.stop = close.start := by
  unfold standsFor
  split_ifs with hnil
  · obtain ⟨hopening, hclose, hle⟩ := h.source_eq
    obtain ⟨-, hstands, -⟩ := h.inside_spanned
    have hsource :
        fn.text ++ [ch '('] ++ (slice source opening.stop close.start ++ [ch ')']) = source := by
      rw [← hopening, ← hclose, ← List.append_assoc, take_append_slice hle, List.take_append_drop]
    have hbetween :
        (slice source opening.stop close.start).length = close.start - opening.stop := by
      have hstop : close.start ≤ source.length := hstands.start_lt.le.trans hstands.stop_le
      rw [slice, List.length_drop, List.length_take_of_le hstop]
    subst hnil
    rw [replaced, List.drop_zero]
    -- without arguments it is the name with `()`, so nothing may stand in the parentheses
    constructor
    · intro heq
      have hlength := congrArg List.length (heq.trans hsource.symm)
      have hempty : (of "()").length = 2 := rfl
      simp only [List.length_append, List.length_singleton, hbetween, hempty] at hlength
      exact .inr (by omega)
    · rintro (hne | heq)
      · exact absurd rfl hne
      · rw [heq, slice_self] at hsource
        rw [← hsource, List.nil_append, List.append_assoc]
        rfl
  · simp [hnil]

variable [Monad m] [LawfulMonad m]

/-- A call that nobody answers stands for its source. -/
theorem callValue_of_unanswered {args : List (Text × Expr)} {complete : Bool} {pieces : List Piece}
    (h : Unanswered env fn.text args complete) : ∃ act : m Unit,
      (do callValue env fn.text
            (← evalEntries env (variableValue env (env.vars.length + 1) []) args) complete pieces) =
        (do act; return .ok (passThrough env fn.text pieces)) := by
  obtain rfl | ⟨failure, hfails⟩ | hcall := h
  · refine ⟨(fun _ => ()) <$> evalEntries env (variableValue env (env.vars.length + 1) []) args, ?_⟩
    simp [callValue]
  · refine ⟨(fun _ => ()) <$> failure, ?_⟩
    rw [hfails]
    simp [callValue]
  · choose search hsearch using hcall
    refine ⟨do
      let values ← evalEntries env (variableValue env (env.vars.length + 1) []) args
      values.toOption.elim (pure ()) fun values => if complete then search values else pure (), ?_⟩
    rw [bind_assoc]
    refine bind_congr fun r => ?_
    cases r with
    | error x => simp [callValue, Except.toOption]
    | ok values =>
      cases complete with
      | false => simp [callValue, Except.toOption]
      | true => simp [callValue, Except.toOption, hsearch]

end

/-- A call that nobody answers is read as a call and stands for its text, where the variables that
have a value are replaced by it, if there is something between its parentheses that is not white
space, or nothing at all. White space alone is lost. -/
theorem unanswered_call {source : Text} {fn opening close final : Token} {inside : List Token}
    (h : IsCall source fn opening inside close final) : ∃ args complete pieces,
    Expr.parse source = .ok (.call fn.text args complete pieces) ∧
    ∀ {m : Type → Type} [Monad m] [LawfulMonad m] (env : Env m),
      (Unanswered env fn.text args complete → ∃ act : m Unit, evalText env source =
        (do act; return .ok (.plain (standsFor env source fn inside)))) ∧
      (standsFor env source fn inside = replaced env source 0 inside ↔
        inside ≠ [] ∨ opening.stop = close.start) ∧
      ((∀ t ∈ inside, t.kind = .var → env.var? t.text = none) →
        replaced env source 0 inside = source) := by
  obtain ⟨args, complete, hparse⟩ := h.parse_call
  refine ⟨args, complete, _, hparse, fun env => ⟨fun hcall => ?_, standsFor_eq_iff h,
    replaced_eq_self h⟩⟩
  rw [evalText, evalTextWith, hparse, ← passThrough_eq h]
  exact callValue_of_unanswered hcall

/-- An environment with a variable, and without functions. -/
def gapEnv : Env Id := ⟨[(of "$g", .plain (of "1px"))], fun _ _ => .ok none⟩

/-- The tokens inside `foo( $g  bar([a  b] $h) )`. -/
def gapTokens : List Token :=
  [⟨.var, of "$g", 5, 7, none, []⟩, ⟨.function, of "bar", 9, 12, none, []⟩,
    ⟨.lparen, of "(", 12, 13, none, []⟩, ⟨.lparen, of "[", 13, 14, none, []⟩,
    ⟨.ident, of "a", 14, 15, none, []⟩, ⟨.ident, of "b", 17, 18, none, []⟩,
    ⟨.rparen, of "]", 18, 19, none, []⟩, ⟨.var, of "$h", 20, 22, none, []⟩,
    ⟨.rparen, of ")", 22, 23, none, []⟩]

theorem gap_call_unanswered :
    IsCall (of "foo( $g  bar([a  b] $h) )") ⟨.function, of "foo", 0, 3, none, []⟩
      ⟨.lparen, of "(", 3, 4, none, []⟩ gapTokens ⟨.rparen, of ")", 24, 25, none, []⟩
      (Token.endAt 25) ∧
    replaced gapEnv (of "foo( $g  bar([a  b] $h) )") 0 gapTokens = of "foo( 1px  bar([a  b] $h) )" ∧
    evalText gapEnv (of "foo( $g  bar([a  b] $h) )") =
      .ok (.plain (of "foo( 1px  bar([a  b] $h) )")) := by
  have hcall : IsCall (of "foo( $g  bar([a  b] $h) )") ⟨.function, of "foo", 0, 3, none, []⟩
      ⟨.lparen, of "(", 3, 4, none, []⟩ gapTokens ⟨.rparen, of ")", 24, 25, none, []⟩
      (Token.endAt 25) := ⟨by decide, rfl, rfl, by decide, rfl, rfl⟩
  have hreplaced : replaced gapEnv (of "foo( $g  bar([a  b] $h) )") 0 gapTokens =
      of "foo( 1px  bar([a  b] $h) )" := by decide
  obtain ⟨args, complete, pieces, -, hvalue⟩ := unanswered_call hcall
  obtain ⟨hanswer, hstands, -⟩ := hvalue gapEnv
  obtain ⟨act, heval⟩ := hanswer (.inr (.inr fun _ => ⟨(), rfl⟩))
  have hvalue : evalText gapEnv (of "foo( $g  bar([a  b] $h) )") =
      .ok (.plain (standsFor gapEnv (of "foo( $g  bar([a  b] $h) )")
        ⟨.function, of "foo", 0, 3, none, []⟩ gapTokens)) := heval
  rw [hstands.mpr (.inl (by decide)), hreplaced] at hvalue
  exact ⟨hcall, hreplaced, hvalue⟩

/-- A call that does not stand for its text: the space in it is lost. -/
theorem spaced_call_narrowed :
    IsCall (of "foo( )") ⟨.function, of "foo", 0, 3, none, []⟩ ⟨.lparen, of "(", 3, 4, none, []⟩ []
      ⟨.rparen, of ")", 5, 6, none, []⟩ (Token.endAt 6) ∧
    (∀ values, gapEnv.call (of "foo") values = .ok none) ∧
    replaced gapEnv (of "foo( )") 0 [] = of "foo( )" ∧
    evalText gapEnv (of "foo( )") = .ok (.plain (of "foo()")) :=
  ⟨⟨by decide, rfl, rfl, by decide, rfl, rfl⟩, fun _ => rfl, by decide, rfl⟩

end Stylesheet
