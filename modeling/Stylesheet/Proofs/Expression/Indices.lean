import Stylesheet.Proofs.Expression.Consumption
import Stylesheet.Proofs.Expression.Descent

/-!
# Indices in range

Where a cursor stands before tokens that are in order, no index that a descent uses is out of range:
not the place of the cursor, not the place of the parenthesis that closes a call, and not the
offsets at which the source is cut when the call is put together again.

## Main definitions

* `Cursor.At` — a cursor before some tokens
* `Cursor.moved` — the cursor before those that are left

## Main results

* `Cursor.At.peek_eq`, `Cursor.At.next_eq`, `Cursor.At.isKey_eq` — the tokens ahead
* `Descent.scan_eq` — the tokens of a text
* `Descent.matching_eq` — the end of a call
* `Descent.substitute_eq` — the source of a call
-/

namespace Stylesheet

open Text

variable {m : Type → Type} [Monad m]

/-! ### Cursors -/

namespace Cursor

/-- The cursor before the tokens that are left. -/
def moved (c : Cursor) (left : List Token) (literal : Bool) : Cursor :=
  { c with index := c.tokens.length - left.length, literal }

/-- Where a tree would be read from here. -/
def place (c : Cursor) : Place := ⟨c.source, c.depth > 0⟩

@[simp] theorem moved_source (c : Cursor) (left : List Token) (literal : Bool) :
    (c.moved left literal).source = c.source := rfl

@[simp] theorem moved_tokens (c : Cursor) (left : List Token) (literal : Bool) :
    (c.moved left literal).tokens = c.tokens := rfl

@[simp] theorem moved_depth (c : Cursor) (left : List Token) (literal : Bool) :
    (c.moved left literal).depth = c.depth := rfl

@[simp] theorem moved_literal (c : Cursor) (left : List Token) (literal : Bool) :
    (c.moved left literal).literal = literal := rfl

@[simp] theorem moved_place (c : Cursor) (left : List Token) (literal : Bool) :
    (c.moved left literal).place = c.place := rfl

@[simp] theorem moved_moved (c : Cursor) (left left' : List Token) (literal literal' : Bool) :
    (c.moved left literal).moved left' literal' = c.moved left' literal' := rfl

/-- The cursor is before these tokens, which are in order. -/
structure At (c : Cursor) (ts : List Token) : Prop where
  within : Spanned.Within c.source ts
  tokens_eq : ∃ front, c.tokens = front ++ ts ∧ c.index = front.length

variable {c : Cursor} {ts left : List Token}

namespace At

theorem moved (h : c.At ts) (hleft : Left c.source ts left) (literal : Bool) :
    (c.moved left literal).At left := by
  obtain ⟨front, htokens, -⟩ := h.tokens_eq
  obtain ⟨mid, rfl⟩ := hleft.suffix
  refine ⟨hleft.within, front ++ mid, ?_, ?_⟩
  · rw [List.append_assoc]
    exact htokens
  · simp only [Cursor.moved, htokens, List.length_append]
    omega

theorem drop_eq (h : c.At ts) : c.tokens.drop c.index = ts := by
  obtain ⟨front, htokens, hindex⟩ := h.tokens_eq
  rw [htokens, hindex, List.drop_left]

/-- Standing before the same tokens again. -/
theorem moved_self (h : c.At ts) : c.moved ts c.literal = c := by
  obtain ⟨front, htokens, hindex⟩ := h.tokens_eq
  obtain ⟨source, tokens, index, depth, literal⟩ := c
  simp_all [Cursor.moved]

theorem getElem? (h : c.At ts) (i : Nat) : c.tokens[c.index + i]? = ts[i]? := by
  rw [← h.drop_eq, List.getElem?_drop]

theorem head? (h : c.At ts) : ts.head? = some (Expr.first ts) := by
  obtain ⟨t, ts, rfl⟩ := List.exists_cons_of_ne_nil h.within.ne_nil
  rfl

theorem peek_eq (h : c.At ts) : c.peek = (pure (Expr.first ts) : DescentM m Token) := by
  have hget : c.tokens[c.index]? = some (Expr.first ts) := by
    rw [← h.head?, List.head?_eq_getElem?]
    exact h.getElem? 0
  rw [peek, Descent.tokenAt, hget]

/-- The end is not passed. -/
theorem next_eq [LawfulMonad m] (h : c.At ts) : c.next =
    (pure (Expr.first ts, c.moved (Expr.rest ts) c.literal) : DescentM m (Token × Cursor)) := by
  have hcursor : (if (Expr.first ts).kind = .eof then c else { c with index := c.index + 1 }) =
      c.moved (Expr.rest ts) c.literal := by
    obtain ⟨front, htokens, hindex⟩ := h.tokens_eq
    obtain ⟨t, r, rfl⟩ := List.exists_cons_of_ne_nil h.within.ne_nil
    have hfirst : Expr.first (t :: r) = t := rfl
    rw [hfirst, Expr.rest]
    split_ifs
    · exact h.moved_self.symm
    · have hnext : c.index + 1 = c.tokens.length - r.length := by
        rw [htokens, hindex, List.length_append, List.length_cons]
        omega
      rw [hnext, Cursor.moved]
  rw [next, h.peek_eq, pure_bind, hcursor]

theorem peekAt_eq (h : c.At ts) : c.peekAt 1 =
    (pure (ts[1]?.getD (Expr.first ts)) : DescentM m Token) := by
  obtain ⟨front, htokens, hindex⟩ := h.tokens_eq
  obtain ⟨t, r, rfl⟩ := List.exists_cons_of_ne_nil h.within.ne_nil
  have hlength : c.tokens.length = c.index + (r.length + 1) := by simp [htokens, hindex]
  have hget := h.getElem?
  unfold Cursor.peekAt Descent.tokenAt
  cases r with
  | nil =>
    have hlast : c.tokens.length - 1 = c.index + 0 := by simp [hlength]
    rw [if_neg (by simp [hlength]), hlast, hget]
    rfl
  | cons u r =>
    rw [if_pos (by simp [hlength]), hget]
    rfl

theorem isKey_eq [LawfulMonad m] (h : c.At ts) :
    c.isKey = (pure (Expr.startsKey c.place ts) : DescentM m Bool) := by
  obtain ⟨t, r, rfl⟩ := List.exists_cons_of_ne_nil h.within.ne_nil
  have hfirst : Expr.first (t :: r) = t := rfl
  rw [isKey, h.peekAt_eq, pure_bind, h.peek_eq, hfirst]
  cases r with
  | nil =>
    have hkind : t.kind ≠ .colon := by
      obtain ⟨stop, pos, -, hts⟩ := h.within
      cases hts with
      | done => nofun
      | token _ _ _ hnil => cases hnil
    simp [Expr.startsKey, hkind]
  | cons u r =>
    by_cases hu : u.kind = .colon
    · simp [Expr.startsKey, hu, place]
    · simp [Expr.startsKey, hu]

/-- The key is passed, if there is one. -/
theorem key_eq [LawfulMonad m] (h : c.At ts) : c.key =
    (pure (if Expr.startsKey c.place ts then
      ((Expr.first ts).text, c.moved (Expr.rest (Expr.rest ts)) c.literal)
    else ([], c)) : DescentM m (Text × Cursor)) := by
  rw [key, h.isKey_eq, pure_bind]
  split_ifs with hkey
  · obtain ⟨hfirst, -⟩ := Expr.firstKind_of_startsKey hkey
    simp only [h.next_eq, (h.moved (h.within.rest hfirst) c.literal).next_eq, pure_bind]
    rfl
  · rfl

end At

end Cursor

/-! ### Cuts -/

namespace Descent

variable {source : Text}

theorem cut_eq {i j : Nat} (hij : i ≤ j) (hj : j ≤ source.length) :
    cut source i j = (pure (slice source i j) : DescentM m Text) := by
  rw [cut, slice?_eq hij hj]

/-- A token that stands in the text is cut from it. -/
theorem cutToken_eq [LawfulMonad m] {t : Token} (h : t.Stands source) :
    cutToken source t = (pure () : DescentM m Unit) := by
  have hlt := h.start_lt
  unfold cutToken
  split_ifs with hkind
  · have hnumber := h.number hkind
    have hle := h.stop_le
    rw [cut_eq (by omega) (by omega), cut_eq (by omega) hle, pure_bind, pure_bind]
  · rw [cut_eq hlt.le h.stop_le, pure_bind]

/-- Scanning goes to the end of the text, a byte or a token at a time. -/
theorem scan_eq_scanFrom [LawfulMonad m] (fuel offset : Nat) (hoffset : offset ≤ source.length)
    (hfuel : source.length < fuel + offset) :
    (scan source fuel offset : DescentM m (List Token)) =
      ofExcept ((Token.scanFrom 0 offset (source.drop offset)).mapError .malformed) := by
  induction fuel generalizing offset with
  | zero => omega
  | succ fuel ih =>
    rw [scan]
    split_ifs with hlt
    · have hget : source[offset]? = some source[offset] := List.getElem?_eq_getElem hlt
      have hdrop := List.drop_eq_getElem_cons hlt
      rw [hget, hdrop]
      dsimp only
      split_ifs with hspace
      · rw [ih (offset + 1) hlt (by omega), Token.scanFrom, if_pos hspace]
      · cases hlex : Token.lex offset source[offset] (source.drop (offset + 1)) with
        | error cause =>
          rw [Token.scanFrom, if_neg hspace, hlex]
          rfl
        | ok t =>
          -- the token ends in the text, where the scan goes on
          have hcut : Token.Cut offset (source.drop offset) t := hdrop ▸ Token.cut_of_lex hlex
          have hstands := hcut.stands hoffset
          have hstart := hcut.start_lt
          have hrest : (source.drop offset).drop (t.stop - offset) = source.drop t.stop := by
            rw [List.drop_drop, Nat.add_sub_cancel' hstart.le]
          rw [scanFrom_token (by simpa using hspace) hlex, ← hdrop, hrest]
          dsimp only
          rw [cutToken_eq hstands, pure_bind, ih t.stop hstands.stop_le (by omega)]
          cases Token.scanFrom 0 t.stop (source.drop t.stop) with
          | error cause => exact throw_bind _ _
          | ok ts => exact pure_bind _ _
    · have hend : source.drop offset = [] := List.drop_eq_nil_of_le (by omega)
      obtain rfl : offset = source.length := by omega
      rw [hend]
      rfl

/-- The tokens of a text are scanned without an index out of range. -/
theorem scan_eq [LawfulMonad m] {fuel : Nat} (hfuel : source.length < fuel) :
    (scan source fuel 0 : DescentM m (List Token)) =
      ofExcept ((Token.scan source).mapError .malformed) :=
  scan_eq_scanFrom fuel 0 (Nat.zero_le _) (by omega)

/-! ### Calls -/

theorem getElem?_of_drop {α : Type} {l r : List α} {a : α} {i : Nat} (h : l.drop i = a :: r) :
    l[i]? = some a ∧ l.drop (i + 1) = r := by
  rw [← List.head?_drop, ← List.tail_drop, h]
  exact ⟨rfl, rfl⟩

/-- Matching finds the parenthesis that closes. -/
theorem matching_eq_closing? [LawfulMonad m] {tokens ts : List Token} (depth i : Nat)
    (hts : tokens.drop i = ts) :
    (matching tokens ts.length i (depth + 1) : DescentM m (Option Nat)) =
      pure ((Expr.closing? depth ts).map fun found => i + found.1.length) := by
  induction ts generalizing i depth with
  | nil => rfl
  | cons t ts ih =>
    obtain ⟨hget, hrest⟩ := getElem?_of_drop hts
    -- Where the token does not close the call, the search goes on after it.
    have hnext (depth' : Nat) (hclosing : Expr.closing? depth (t :: ts) =
        (Expr.closing? depth' ts).map fun found => (t :: found.1, found.2)) :
        (matching tokens ts.length (i + 1) (depth' + 1) : DescentM m (Option Nat)) =
          pure ((Expr.closing? depth (t :: ts)).map fun found => i + found.1.length) := by
      rw [ih depth' (i + 1) hrest, hclosing, Option.map_map]
      have hlength : (fun found : List Token × Token × List Token => i + 1 + found.1.length) =
          (fun found => i + found.1.length) ∘ fun found => (t :: found.1, found.2) := by
        funext found
        simp only [Function.comp_apply, List.length_cons]
        omega
      rw [hlength]
    rw [List.length_cons, matching, tokenAt, hget]
    simp only [pure_bind]
    by_cases hopen : t.kind = .lparen
    · simp only [hopen]
      exact_mod_cast hnext (depth + 1) (by simp [Expr.closing?, hopen])
    by_cases hclose : t.kind = .rparen
    · simp only [hclose, add_sub_cancel_right]
      cases depth with
      | zero => simp [Expr.closing?, hclose]
      | succ depth =>
        rw [if_neg (by omega)]
        exact_mod_cast hnext depth (by simp [Expr.closing?, hclose])
    · split
      · exact absurd ‹_› hopen
      · exact absurd ‹_› hclose
      · refine hnext depth ?_
        rw [Expr.closing?.eq_def]
        split <;> simp_all

section

variable {c : Cursor} {opening close : Token} {ts inside after : List Token}

/-- The tokens between the parentheses, and the one that closes. -/
theorem drop_eq_of_closing? (h : c.At (opening :: ts))
    (hclosing : Expr.closing? 0 ts = some (inside, close, after)) :
    c.tokens.drop (c.index + 1) = inside ++ close :: after := by
  rw [← List.tail_drop, h.drop_eq, List.tail_cons]
  exact (closing?_eq hclosing).1

theorem tokenAt_close (h : c.At (opening :: ts))
    (hclosing : Expr.closing? 0 ts = some (inside, close, after)) :
    (tokenAt c.tokens (c.index + 1 + inside.length) : DescentM m Token) = pure close := by
  have hget : c.tokens[c.index + 1 + inside.length]? = some close := by
    rw [← List.getElem?_drop, drop_eq_of_closing? h hclosing, List.getElem?_append_right le_rfl,
      Nat.sub_self]
    rfl
  rw [tokenAt, hget]

theorem cutTokens_inside (h : c.At (opening :: ts))
    (hclosing : Expr.closing? 0 ts = some (inside, close, after)) :
    (cutTokens c.tokens (c.index + 1) (c.index + 1 + inside.length) : DescentM m (List Token)) =
      pure inside := by
  have hdrop := drop_eq_of_closing? h hclosing
  have hlength : c.tokens.length - (c.index + 1) = inside.length + (after.length + 1) := by
    rw [← List.length_drop, hdrop, List.length_append, List.length_cons]
  have hinside : (c.tokens.take (c.index + 1 + inside.length)).drop (c.index + 1) = inside := by
    rw [List.drop_take, hdrop, Nat.add_sub_cancel_left, List.take_left]
  rw [cutTokens, if_pos (by omega), hinside]

variable [LawfulMonad m]

/-- The call at a parenthesis ends where the parenthesis is closed. -/
theorem matching_eq (h : c.At (opening :: ts)) (hopening : opening.kind = .lparen) :
    (matching c.tokens (c.tokens.length - c.index) c.index 0 : DescentM m (Option Nat)) =
      pure ((Expr.closing? 0 ts).map fun found => c.index + 1 + found.1.length) := by
  have hdrop := h.drop_eq
  obtain ⟨hget, hrest⟩ := getElem?_of_drop hdrop
  have hlength : c.tokens.length - c.index = ts.length + 1 := by
    rw [← List.length_drop, hdrop, List.length_cons]
  rw [hlength, matching, tokenAt, hget]
  simp only [pure_bind, hopening]
  exact_mod_cast matching_eq_closing? 0 (c.index + 1) hrest

/-- What is left of a call is cut between its variables, by induction on the tokens. -/
theorem substituteFrom_eq {env : Env m} {tokens : List Token} {stop pos start i : Nat}
    (hstop : stop ≤ source.length)
    (hspanned : Spanned source stop pos (inside ++ [Token.endAt stop]))
    (hpos : start ≤ pos) (hdrop : tokens.drop i = inside ++ after) :
    substituteFrom env source tokens stop inside.length i start =
      pure ((Expr.pieces source start stop inside).flatMap (Piece.expand env)) := by
  induction inside generalizing pos start i with
  | nil =>
    rw [List.length_nil, substituteFrom, cut_eq (hpos.trans hspanned.le_stop) hstop]
    simp [Expr.pieces, Piece.expand]
  | cons t inside ih =>
    have hkind : t.kind ≠ .eof := fun hend => by simpa using (hspanned.end_eq hend).2
    obtain ⟨hstart, hstands, -, hrest⟩ := hspanned.cons hkind
    obtain ⟨hget, hnext⟩ := getElem?_of_drop hdrop
    have hlt := hstands.start_lt
    rw [List.length_cons, substituteFrom, tokenAt, hget, Expr.pieces]
    simp only [pure_bind]
    -- what stands before a variable is copied with it, and other tokens are copied later
    split_ifs with hvar
    · have hcut : start ≤ t.start := hpos.trans hstart
      rw [cut_eq hcut (hlt.le.trans hstands.stop_le), ih hrest le_rfl hnext]
      simp [Piece.expand]
    · exact ih hrest (by omega) hnext

/-- The source of a call with arguments. -/
theorem substitute_eq (env : Env m) (h : c.At (opening :: ts)) (hopening : opening.kind ≠ .eof)
    (hclosing : Expr.closing? 0 ts = some (inside, close, after)) (hinside : inside ≠ []) :
    substitute env c (c.index + 1) (c.index + 1 + inside.length) =
      pure ((Expr.pieces c.source opening.stop close.start inside).flatMap (Piece.expand env)) := by
  have hlength := List.length_pos_iff.mpr hinside
  obtain ⟨stop, pos, hstop, hspanned⟩ := h.within
  obtain ⟨-, -, -, hrest⟩ := hspanned.cons hopening
  obtain ⟨hts, hclose⟩ := closing?_eq hclosing
  obtain ⟨hspanned, hstands, -⟩ := Spanned.inside hclose (hts ▸ hrest)
  have hget : c.tokens[c.index + 1 - 1]? = some opening := (getElem?_of_drop h.drop_eq).1
  rw [substitute, if_neg (by omega), tokenAt_close h hclosing, tokenAt, hget,
    Nat.add_sub_cancel_left]
  simp only [pure_bind]
  exact substituteFrom_eq (hstands.start_lt.le.trans hstands.stop_le) hspanned le_rfl
    (drop_eq_of_closing? h hclosing)

end

end Descent

end Stylesheet
