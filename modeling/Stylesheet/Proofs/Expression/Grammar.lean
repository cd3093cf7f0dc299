import Stylesheet.Proofs.Expression.Scanning

/-!
# The grammar of expressions

Reading the spelling of a formula gives the tree it was written from: parentheses stand where the
binding of the operators requires them, so that every level of the reader finds its own operators
and stops before those of the looser levels. The value of the text is therefore the value of the
formula, computed from the bottom up, or the first error from the left.

The fuel of the reader suffices: each level takes one unit, each token is reached through eight
levels at most, and the operators of one level take a unit each.

## Main definitions

* `Ends` — the tokens that follow are no operators of these levels
* `Formula.ReadsAt` — the reader reads a formula on a level
* `Formula.ReadsMoreAt` — it reads it on the way to further operators of the level

## Main results

* `Formula.readsAt` — the reader reads every formula on every level that binds as loosely
* `evalText_render` — the value of the spelling of a formula
-/

namespace Stylesheet

open Text

/-! ### Levels -/

/-- The levels that read operators with two operands. -/
def Level.chains : Level → Bool
  | .not | .unary => false
  | _ => true

theorem Level.rank_next {level : Level} (h : level.rank < Level.unary.rank) :
    level.next.rank = level.rank + 1 := by
  cases level <;> first | rfl | exact absurd h (by decide)

theorem Level.rank_le (level : Level) : level.rank ≤ 6 := by
  cases level <;> decide

theorem Level.rank_injective {level level' : Level} (h : level.rank = level'.rank) :
    level = level' := by
  cases level <;> cases level' <;> first | rfl | exact absurd h (by decide)

/-- An operator is one of its level only. -/
theorem BinaryOp.operator?_token (op : BinaryOp) (level : Level) :
    level.operator? op.token = if level = op.level then some op else none := by
  cases op with
  | compare op => cases op <;> cases level <;> rfl
  | arith op => cases op <;> cases level <;> rfl
  | _ => cases level <;> rfl

theorem BinaryOp.chains_level (op : BinaryOp) : op.level.chains = true := by
  cases op with
  | arith op => cases op <;> rfl
  | _ => rfl

/-- No operator that binds as tight as `rank` follows. -/
def Ends (rank : Nat) (ts : List Token) : Prop :=
  ∀ level : Level, rank ≤ level.rank → level.operator? (Expr.firstKind ts) = none

theorem Ends.mono {m n : Nat} {ts : List Token} (h : Ends m ts) (hmn : m ≤ n) : Ends n ts :=
  fun level hlevel => h level (Nat.le_trans hmn hlevel)

/-- The operands of an operator end before it. -/
theorem ends_operator {op : BinaryOp} {t : Token} (ht : t.kind = op.token) (ts : List Token)
    {rank : Nat} (hrank : op.level.rank < rank) : Ends rank (t :: ts) := by
  intro level hlevel
  have hne : level ≠ op.level := by
    rintro rfl
    omega
  change level.operator? t.kind = none
  rw [ht, op.operator?_token, if_neg hne]

theorem ends_closing {t : Token} (ht : t.kind = .rparen ∨ t.kind = .eof) (ts : List Token)
    (rank : Nat) : Ends rank (t :: ts) := by
  intro level _
  change level.operator? t.kind = none
  obtain h | h := ht <;> rw [h] <;> cases level <;> rfl

/-! ### Steps of the reader -/

namespace Expr

theorem readLevel_chain {fuel : Nat} {place : Place} {level : Level} {ts : List Token}
    (h : level.chains = true) : readLevel (fuel + 1) place level ts =
      match readLevel fuel place level.next ts with
      | (e, some ts) => readMore fuel place level e ts
      | (e, none) => (e, none) := by
  cases level <;> first | rfl | exact absurd h (by decide)

theorem readMore_ends {fuel : Nat} {place : Place} {level : Level} {e : Expr} {ts : List Token}
    (h : Ends level.rank ts) (hfuel : 0 < fuel) :
    readMore fuel place level e ts = (e, some ts) := by
  obtain ⟨fuel, rfl⟩ := Nat.exists_eq_add_of_lt hfuel
  rw [Nat.zero_add, readMore, h level (Nat.le_refl _)]

/-- Inside parentheses a slash always divides. -/
theorem combine_nested {place : Place} (hnested : place.nested = true) (op : BinaryOp)
    (left right : Expr) : combine place op left right = .binary op left right := by
  rw [combine, if_neg (by simp [hnested])]

end Expr

namespace Formula

/-! ### First tokens -/

/-- The tokens a formula starts with. -/
def firstKinds : List TokenKind := [.number, .var, .lparen, .sign, .not]

theorem exists_first {e : Formula} (he : e.Grouped) : ∃ w ws, e.words = w :: ws ∧
    w.1 ∈ firstKinds ∧ (Level.not.rank < e.rank → w.1 ≠ .not) ∧
      (Level.unary.rank < e.rank → w.1 ≠ .sign) := by
  induction e with
  | number | var | paren => exact ⟨_, _, rfl, by simp [firstKinds], nofun, nofun⟩
  | negate e =>
    exact ⟨_, _, rfl, by simp [firstKinds], nofun, fun h => absurd h (Nat.lt_irrefl _)⟩
  | not e => exact ⟨_, _, rfl, by simp [firstKinds], fun h => absurd h (Nat.lt_irrefl _), nofun⟩
  | binary op l r ihl =>
    obtain ⟨⟨hrank, hl⟩, -⟩ := he
    obtain ⟨w, ws, hwords, hmem, hnot, -⟩ := ihl hl
    refine ⟨w, ws ++ (op.token, op.word, []) :: r.words, by rw [words, hwords]; rfl, hmem, ?_, ?_⟩
    · exact fun h => hnot (Nat.lt_of_lt_of_le h hrank)
    · exact fun h => absurd h (Nat.lt_asymm op.level_rank_lt)

theorem colon_not_mem (e : Formula) : ∀ w ∈ e.words, w.1 ≠ .colon := by
  induction e with
  | number | var => simp [words]
  | paren e ih | negate e ih | not e ih => simpa [words, or_imp, forall_and] using ih
  | binary op l r ihl ihr =>
    have htoken : op.token ≠ .colon := by
      cases op with
      | compare op => cases op <;> decide
      | arith op => cases op <;> decide
      | _ => decide
    intro w hw
    obtain hw | hw := List.mem_append.mp hw
    · exact ihl w hw
    · obtain rfl | hw := List.mem_cons.mp hw
      · exact htoken
      · exact ihr w hw

/-- Tokens that say what those of a formula do start like one. -/
theorem first_of_words {e : Formula} (he : e.Grouped) {ts : List Token}
    (hts : ts.map Token.word = e.words) (rest : List Token) :
    ∃ t ts', ts = t :: ts' ∧ Expr.firstKind (ts ++ rest) = t.kind ∧ t.kind ∈ firstKinds ∧
      (Level.not.rank < e.rank → t.kind ≠ .not) ∧ (Level.unary.rank < e.rank → t.kind ≠ .sign) := by
  obtain ⟨w, ws, hwords, hfirst⟩ := exists_first he
  rw [hwords] at hts
  obtain ⟨t, ts', rfl, rfl, -⟩ := List.map_eq_cons_iff.mp hts
  exact ⟨t, ts', rfl, rfl, hfirst⟩

/-! ### Reading -/

/-- Tokens that say what those of a formula do are read as its tree on a level. -/
def ReadsAt (place : Place) (e : Formula) (level : Level) : Prop :=
  ∀ (ts rest : List Token) (fuel : Nat), ts.map Token.word = e.words → Ends level.rank rest →
    8 * ts.length + 8 ≤ fuel + level.rank →
      Expr.readLevel fuel place level (ts ++ rest) = (e.expr, some rest)

/-- They are read as the left operand of further operators of the level. -/
def ReadsMoreAt (place : Place) (e : Formula) (level : Level) : Prop :=
  ∀ (ts rest : List Token) (fuel : Nat), ts.map Token.word = e.words →
    Ends (level.rank + 1) rest → 8 * ts.length + 8 ≤ fuel + level.rank →
      ∃ fuel', fuel ≤ fuel' + ts.length + 1 ∧
        Expr.readLevel fuel place level (ts ++ rest) = Expr.readMore fuel' place level e.expr rest

variable {place : Place}

theorem length_pos_of_words {e : Formula} (he : e.Grouped) {ts : List Token}
    (hts : ts.map Token.word = e.words) : 0 < ts.length := by
  obtain ⟨t, ts', rfl, -⟩ := first_of_words he hts []
  exact Nat.succ_pos _

/-- A formula that binds tighter than a level is the left operand of its operators. -/
theorem ReadsAt.more {e : Formula} {level : Level} (h : ReadsAt place e level.next)
    (hchains : level.chains = true) : ReadsMoreAt place e level := by
  intro ts rest fuel hts hends hfuel
  have hrank : level.next.rank = level.rank + 1 := by
    cases level <;> first | rfl | exact absurd hchains (by decide)
  have hle := level.rank_le
  cases fuel with
  | zero => omega
  | succ fuel =>
    refine ⟨fuel, by omega, ?_⟩
    rw [Expr.readLevel_chain hchains,
      h ts rest fuel hts (hrank ▸ hends) (by omega)]

/-- A left operand that no operator follows is read by itself. -/
theorem ReadsMoreAt.ends {e : Formula} {level : Level} (he : e.Grouped)
    (h : ReadsMoreAt place e level) : ReadsAt place e level := by
  intro ts rest fuel hts hends hfuel
  obtain ⟨fuel', hle, hread⟩ := h ts rest fuel hts (hends.mono (by omega)) hfuel
  have hpos := length_pos_of_words he hts
  have hlevel := level.rank_le
  rw [hread, Expr.readMore_ends hends (by omega)]

/-- A formula whose operator is not of a looser level is read on that level as on the next. -/
theorem readsAt_of_next {e : Formula} (he : e.Grouped) {level : Level}
    (hlevel : level.rank < e.rank) (hunary : level ≠ .unary) (h : ReadsAt place e level.next) :
    ReadsAt place e level := by
  by_cases hchains : level.chains = true
  · exact (h.more hchains).ends he
  · obtain rfl : level = .not := by
      cases level <;> first | rfl | exact absurd rfl hunary | exact absurd rfl hchains
    intro ts rest fuel hts hends hfuel
    obtain ⟨t, ts', -, hfirst, hmem, hnot, -⟩ := first_of_words he hts rest
    obtain _ | fuel := fuel
    · simp only [Level.rank] at hfuel
      omega
    · -- a formula that binds more tightly does not start with `not`
      have hread : Expr.readLevel (fuel + 1) place .not (ts ++ rest) =
          Expr.readLevel fuel place .compare (ts ++ rest) := by
        have hkind := hnot hlevel
        have hbang : t.kind ≠ .bang := by
          intro h
          rw [h] at hmem
          exact absurd hmem (by decide)
        rw [Expr.readLevel, hfirst]
        split
        · exact absurd ‹_› hkind
        · exact absurd ‹_› hbang
        · rfl
      rw [hread]
      refine h ts rest fuel hts (hends.mono (by decide)) ?_
      simp only [Level.rank, Level.next] at hfuel ⊢
      omega

/-- A formula that is read on its own level is read on every looser one. -/
theorem readsAt_of_own {e : Formula} (he : e.Grouped) {own : Level} (hown : ReadsAt place e own)
    (hrank : own.rank ≤ e.rank) : ∀ (k : Nat) (level : Level), level.rank + k = own.rank →
      ReadsAt place e level := by
  intro k
  induction k with
  | zero => exact fun level hlevel => Level.rank_injective hlevel ▸ hown
  | succ k ih =>
    intro level hlevel
    have hle := own.rank_le
    have hunary : level.rank < Level.unary.rank :=
      Nat.lt_of_lt_of_le (by omega : level.rank < own.rank) hle
    refine readsAt_of_next he (by omega) (by rintro rfl; exact absurd hunary (Nat.lt_irrefl _)) ?_
    refine ih level.next ?_
    rw [Level.rank_next hunary]
    omega

/-! ### Atoms -/

/-- An atom is read on the tightest level as an expression without operators. -/
theorem readsAt_atom {e : Formula} (he : e.Grouped) (hrank : Level.unary.rank < e.rank)
    (h : ∀ (ts rest : List Token) (fuel : Nat), ts.map Token.word = e.words →
      8 * ts.length + 1 ≤ fuel → Expr.readPrimary fuel place (ts ++ rest) = (e.expr, some rest)) :
    ReadsAt place e .unary := by
  intro ts rest fuel hts hends hfuel
  obtain ⟨t, ts', -, hfirst, hmem, -, hsign⟩ := first_of_words he hts rest
  simp only [Level.rank] at hfuel
  obtain _ | fuel := fuel
  · omega
  · have hplus : t.kind ≠ .plus := by
      intro h
      rw [h] at hmem
      exact absurd hmem (by decide)
    rw [Expr.readLevel, hfirst]
    split
    · exact absurd ‹_› (hsign hrank)
    · exact absurd ‹_› hplus
    · exact h ts rest fuel hts (by omega)

/-- A token that is an expression by itself. -/
theorem readPrimary_token {t : Token} {rest : List Token} {fuel : Nat} {e : Expr}
    (hkind : t.kind = .number ∨ t.kind = .var) (he : Expr.ofToken t = e)
    (hfailure : e.isFailure = false) (hfuel : 0 < fuel) :
    Expr.readPrimary fuel place (t :: rest) = (e, some rest) := by
  obtain _ | fuel := fuel
  · omega
  · have hrest : Expr.rest (t :: rest) = rest := by
      obtain h | h := hkind <;> simp [Expr.rest, h]
    have hfirst : Expr.first (t :: rest) = t := rfl
    have hparen : t.kind ≠ .lparen ∧ t.kind ≠ .function := by
      obtain h | h := hkind <;> simp [h]
    rw [Expr.readPrimary]
    simp only [hfirst, hrest]
    split
    · exact absurd ‹_› hparen.1
    · exact absurd ‹_› hparen.2
    · rw [he, hfailure]
      rfl

theorem readPrimary_number (n : Literal) (ts rest : List Token) (fuel : Nat)
    (hts : ts.map Token.word = (number n).words) (hfuel : 8 * ts.length + 1 ≤ fuel) :
    Expr.readPrimary fuel place (ts ++ rest) = ((number n).expr, some rest) := by
  obtain ⟨t, rfl, hword⟩ := List.map_eq_singleton_iff.mp hts
  obtain ⟨hkind, htext, hunit⟩ : t.kind = .number ∧ t.text = n.numeral ∧ t.unit = n.unit := by
    simpa [Token.word] using hword
  refine readPrimary_token (.inl hkind) ?_ rfl (by omega)
  have hread : Double.read? n.numeral = some n.magnitude := (Option.some_get n.inRange).symm
  rw [Expr.ofToken, hkind]
  simp only [htext, hunit, hread]
  rfl

theorem readPrimary_var (x : Sigil) (ts rest : List Token) (fuel : Nat)
    (hts : ts.map Token.word = (var x).words) (hfuel : 8 * ts.length + 1 ≤ fuel) :
    Expr.readPrimary fuel place (ts ++ rest) = ((var x).expr, some rest) := by
  obtain ⟨t, rfl, hword⟩ := List.map_eq_singleton_iff.mp hts
  obtain ⟨hkind, htext, -⟩ : t.kind = .var ∧ t.text = x.text ∧ t.unit = [] := by
    simpa [Token.word] using hword
  refine readPrimary_token (.inr hkind) ?_ rfl (by omega)
  rw [Expr.ofToken, hkind]
  simp only [htext]
  rfl

/-- A formula in parentheses starts no member with a key. -/
theorem startsKey_eq_false {e : Formula} (he : e.Grouped) {ts rest : List Token} {close : Token}
    (hts : ts.map Token.word = e.words) (hclose : close.kind = .rparen ∨ close.kind = .eof) :
    Expr.startsKey place (ts ++ close :: rest) = false := by
  obtain ⟨t, ts', rfl, -⟩ := first_of_words he hts []
  cases ts' with
  | nil => obtain h | h := hclose <;> simp [Expr.startsKey, h]
  | cons u us =>
    have hu : u.kind ≠ .colon := by
      refine colon_not_mem e u.word ?_
      rw [← hts]
      exact List.mem_map_of_mem (List.mem_cons_of_mem _ List.mem_cons_self)
    simp [Expr.startsKey, hu]

/-- A formula is the only member of what ends after it. -/
theorem readMembers_single {e : Formula} (he : e.Grouped) (hread : ReadsAt place e .or)
    {ts rest : List Token} {close : Token} {fuel : Nat} (hts : ts.map Token.word = e.words)
    (hclose : close.kind = .rparen ∨ close.kind = .eof) (hfuel : 8 * ts.length + 10 ≤ fuel) :
    Expr.readMembers fuel place (ts ++ close :: rest) = ([([], e.expr)], some (close :: rest)) := by
  obtain ⟨fuel, rfl⟩ : ∃ n, fuel = n + 2 := ⟨fuel - 2, by omega⟩
  have hlevel := hread ts (close :: rest) fuel hts (ends_closing hclose rest _)
    (by simp only [Level.rank]; omega)
  have hends : Expr.endsItem (Expr.firstKind (close :: rest)) = true ∧
      Expr.firstKind (close :: rest) ≠ .comma := by
    change Expr.endsItem close.kind = true ∧ close.kind ≠ .comma
    obtain h | h := hclose <;> rw [h] <;> decide
  have hitems : Expr.readItems (fuel + 1) place [] (ts ++ close :: rest) =
      (e.expr, some (close :: rest)) := by
    rw [Expr.readItems, hlevel]
    simp only [hends.1, if_true]
    rfl
  rw [Expr.readMembers, startsKey_eq_false he hts hclose]
  simp only [Bool.false_eq_true, if_false, hitems]
  exact if_neg hends.2

/-- A formula in parentheses, wherever it stands. -/
theorem readPrimary_paren {e : Formula} (he : e.Grouped)
    (hread : ReadsAt { place with nested := true } e .or) (ts rest : List Token) (fuel : Nat)
    (hts : ts.map Token.word = (paren e).words) (hfuel : 8 * ts.length + 1 ≤ fuel) :
    Expr.readPrimary fuel place (ts ++ rest) = ((paren e).expr, some rest) := by
  obtain ⟨t, us, rfl, ht, hus⟩ := List.map_eq_cons_iff.mp hts
  obtain ⟨vs, ws, rfl, hvs, hws⟩ := List.map_eq_append_iff.mp hus
  obtain ⟨close, rfl, hclose⟩ := List.map_eq_singleton_iff.mp hws
  have hkind : t.kind = .lparen := congrArg Prod.fst ht
  have hclose : close.kind = .rparen := congrArg Prod.fst hclose
  obtain ⟨fuel, rfl⟩ : ∃ n, fuel = n + 1 := ⟨fuel - 1, by omega⟩
  simp only [List.length_cons, List.length_append, List.length_nil] at hfuel
  have hassoc : t :: (vs ++ [close]) ++ rest = t :: (vs ++ close :: rest) := by simp
  have hfirst : Expr.first (t :: (vs ++ close :: rest)) = t := rfl
  have hrest : Expr.rest (t :: (vs ++ close :: rest)) = vs ++ close :: rest := by
    simp [Expr.rest, hkind]
  -- what is in the parentheses is not nothing
  have hinside : Expr.firstKind (vs ++ close :: rest) ≠ .rparen := by
    obtain ⟨v, vs', -, hv, hmem, -⟩ := first_of_words he hvs (close :: rest)
    rw [hv]
    intro h
    rw [h] at hmem
    exact absurd hmem (by decide)
  have hend : Expr.firstKind (close :: rest) = .rparen := hclose
  have hafter : Expr.rest (close :: rest) = rest := by simp [Expr.rest, hclose]
  rw [hassoc, Expr.readPrimary]
  simp only [hfirst, hrest, hkind, if_neg hinside]
  rw [readMembers_single he hread hvs (.inl hclose) (by omega)]
  simp only [hend, hafter, if_true]
  rfl

/-! ### Formulas -/

/-- A formula whose operator is that of a level is read on the way to further ones. -/
theorem readsMoreAt_binary {op : BinaryOp} {l r : Formula} (hnested : place.nested = true)
    (hl : ReadsMoreAt place l op.level) (hr : ReadsAt place r op.level.next) :
    ReadsMoreAt place (binary op l r) op.level := by
  intro ts rest fuel hts hends hfuel
  obtain ⟨ls, us, rfl, hls, hus⟩ := List.map_eq_append_iff.mp hts
  obtain ⟨t, rs, rfl, ht, hrs⟩ := List.map_eq_cons_iff.mp hus
  have hkind : t.kind = op.token := congrArg Prod.fst ht
  have hnext := Level.rank_next op.level_rank_lt
  simp only [List.length_append, List.length_cons] at hfuel
  obtain ⟨fuel', hle, hleft⟩ := hl ls (t :: rs ++ rest) fuel hls
    (ends_operator hkind _ (Nat.lt_succ_self _)) (by omega)
  have hlevel := op.level.rank_le
  obtain ⟨fuel', rfl⟩ : ∃ n, fuel' = n + 1 := ⟨fuel' - 1, by omega⟩
  have hright := hr rs rest fuel' hrs (hnext ▸ hends) (by omega)
  refine ⟨fuel', by simp only [List.length_append, List.length_cons]; omega, ?_⟩
  -- the operator is one of this level, and so the chain goes on
  have hoperator : op.level.operator? (Expr.firstKind (t :: rs ++ rest)) = some op := by
    change op.level.operator? t.kind = some op
    rw [hkind, op.operator?_token, if_pos rfl]
  have hrest : Expr.rest (t :: rs ++ rest) = rs ++ rest := by
    have heof : t.kind ≠ .eof := by
      rw [hkind]
      cases op with
      | compare op => cases op <;> decide
      | arith op => cases op <;> decide
      | _ => decide
    simp [Expr.rest, heof]
  rw [List.append_assoc, hleft, Expr.readMore, hoperator]
  simp only [hrest, hright, Expr.combine_nested hnested]
  rfl

/-- A formula that is read on its own level is read on every level that binds as loosely. -/
theorem readsAt_of_le {e : Formula} (he : e.Grouped) {own : Level} (hown : ReadsAt place e own)
    (hrank : own.rank = min e.rank 6) (level : Level) (hlevel : level.rank ≤ e.rank) :
    ReadsAt place e level := by
  have hle := level.rank_le
  exact readsAt_of_own he hown (by omega) (own.rank - level.rank) level (by omega)

theorem readsMoreAt_of_lt {e : Formula}
    (h : ∀ level : Level, level.rank ≤ e.rank → ReadsAt place e level)
    {level : Level} (hchains : level.chains = true) (hlevel : level.rank < e.rank) :
    ReadsMoreAt place e level := by
  refine (h level.next ?_).more hchains
  have hunary : level.rank < Level.unary.rank := by
    cases level <;> first | exact absurd hchains (by decide) | decide
  rw [Level.rank_next hunary]
  exact hlevel

/-- A formula is read on every level that binds as loosely as its operator, by itself and on the
way to further operators. -/
structure Reads (place : Place) (e : Formula) : Prop where
  at_level : ∀ level : Level, level.rank ≤ e.rank → ReadsAt place e level
  more : ∀ level : Level, level.chains = true → level.rank ≤ e.rank → ReadsMoreAt place e level

/-- What has no operator of a chain binds tighter or looser than every chain, not alike. -/
theorem reads_of_own {e : Formula} (he : e.Grouped) {own : Level} (hown : ReadsAt place e own)
    (hrank : own.rank = min e.rank 6) (hchains : own.chains = false) : Reads place e := by
  have hat := readsAt_of_le he hown hrank
  refine ⟨hat, fun level hlevel hle => readsMoreAt_of_lt hat hlevel ?_⟩
  refine Nat.lt_of_le_of_ne hle fun heq => ?_
  have hsix := level.rank_le
  obtain rfl : own = level := Level.rank_injective (by omega)
  rw [hchains] at hlevel
  exact absurd hlevel (by decide)

/-- A sign takes the operand after it. -/
theorem readsAt_negate {e : Formula} (h : ReadsAt place e .unary) :
    ReadsAt place (negate e) .unary := by
  intro ts rest fuel hts hends hfuel
  obtain ⟨t, us, rfl, ht, hus⟩ := List.map_eq_cons_iff.mp hts
  have hkind : t.kind = .sign := congrArg Prod.fst ht
  obtain ⟨fuel, rfl⟩ : ∃ n, fuel = n + 1 := ⟨fuel - 1, by simp only [Level.rank] at hfuel; omega⟩
  have hread := h us rest fuel hus hends (by rw [List.length_cons] at hfuel; omega)
  have hfirst : Expr.firstKind (t :: us ++ rest) = .sign := hkind
  have hrest : Expr.rest (t :: us ++ rest) = us ++ rest := by simp [Expr.rest, hkind]
  rw [Expr.readLevel, hfirst]
  simp only [hrest, hread]
  rfl

/-- The word `not` takes the operand after it. -/
theorem readsAt_not {e : Formula} (h : ReadsAt place e .not) : ReadsAt place (not e) .not := by
  intro ts rest fuel hts hends hfuel
  obtain ⟨t, us, rfl, ht, hus⟩ := List.map_eq_cons_iff.mp hts
  have hkind : t.kind = .not := congrArg Prod.fst ht
  obtain ⟨fuel, rfl⟩ : ∃ n, fuel = n + 1 := ⟨fuel - 1, by simp only [Level.rank] at hfuel; omega⟩
  have hread := h us rest fuel hus hends (by rw [List.length_cons] at hfuel; omega)
  have hfirst : Expr.firstKind (t :: us ++ rest) = .not := hkind
  have hrest : Expr.rest (t :: us ++ rest) = us ++ rest := by simp [Expr.rest, hkind]
  rw [Expr.readLevel, hfirst]
  simp only [hrest, hread]
  rfl

theorem reads_paren {e : Formula} (he : e.Grouped)
    (hread : ReadsAt { place with nested := true } e .or) : Reads place (paren e) :=
  reads_of_own he
    (readsAt_atom (e := paren e) he (Nat.lt_succ_self _) (readPrimary_paren he hread)) rfl rfl

/-- The reader reads every formula. The induction is on the formula; the operand on the left of an
operator is read on the level of the operator, and the reader goes on from there. -/
theorem reads (hnested : place.nested = true) {e : Formula} (he : e.Grouped) : Reads place e := by
  induction e with
  | number n =>
    exact reads_of_own he (readsAt_atom he (Nat.lt_succ_self _) (readPrimary_number n)) rfl rfl
  | var x =>
    exact reads_of_own he (readsAt_atom he (Nat.lt_succ_self _) (readPrimary_var x)) rfl rfl
  | paren e ih =>
    have hplace : { place with nested := true } = place := by
      rw [← hnested]
    exact reads_paren he (hplace ▸ (ih he).at_level .or (Nat.zero_le _))
  | negate e ih =>
    obtain ⟨hrank, hoperand⟩ := he
    have hread := (ih hoperand).at_level .unary (Nat.le_of_lt hrank)
    exact reads_of_own ⟨hrank, hoperand⟩ (readsAt_negate hread) rfl rfl
  | not e ih =>
    obtain ⟨hrank, hoperand⟩ := he
    have hread := (ih hoperand).at_level .not hrank
    exact reads_of_own ⟨hrank, hoperand⟩ (readsAt_not hread) rfl rfl
  | binary op l r ihl ihr =>
    have hgrouped := he
    obtain ⟨⟨hleft, hl⟩, hright, hr⟩ := he
    -- of the operands only the left one may be a chain of the same level
    have hchain : ReadsMoreAt place (binary op l r) op.level := by
      refine readsMoreAt_binary hnested ((ihl hl).more _ op.chains_level hleft)
        ((ihr hr).at_level _ ?_)
      rw [Level.rank_next op.level_rank_lt]
      exact hright
    have hown : ReadsAt place (binary op l r) op.level := hchain.ends hgrouped
    have hrank : op.level.rank = min (binary op l r).rank 6 :=
      (Nat.min_eq_left (Nat.le_of_lt op.level_rank_lt)).symm
    have hat := readsAt_of_le hgrouped hown hrank
    refine ⟨hat, fun level hlevel hle => ?_⟩
    obtain hlt | heq := Nat.lt_or_eq_of_le hle
    · exact readsMoreAt_of_lt hat hlevel hlt
    · exact Level.rank_injective heq ▸ hchain

end Formula

/-! ### Texts -/

/-- The tokens of a formula in parentheses are read as its tree. -/
theorem Formula.read_paren {e : Formula} (he : e.Grouped) {source : Text} {ts : List Token}
    {close : Token} (hts : ts.map Token.word = (paren e).words) (hclose : close.kind = .eof) :
    Expr.read source (ts ++ [close]) = (paren e).expr := by
  have hread : Reads ⟨source, false⟩ (paren e) :=
    reads_paren he ((reads rfl he).at_level .or (Nat.zero_le _))
  have hmembers : Expr.readMembers (Expr.enoughFuel (ts ++ [close]).length) ⟨source, false⟩
      (ts ++ [close]) = ([([], (paren e).expr)], some [close]) := by
    refine readMembers_single (e := paren e) he (hread.at_level .or (Nat.zero_le _)) hts
      (.inr hclose) ?_
    simp only [Expr.enoughFuel, List.length_append, List.length_singleton]
    omega
  have hend : Expr.firstKind [close] = .eof := hclose
  rw [Expr.read, hmembers]
  simp only [hend, if_true]
  rfl

/-- The spelling of a formula in parentheses is parsed as its tree. -/
theorem Formula.parse_paren {e : Formula} (he : e.Grouped) :
    Expr.parse (paren e).spelling = .ok (paren e).expr := by
  have hinside : Scans e.spelling e.words ([ch ')'] ++ []) := scans he (.inr rfl)
  have hscans : Scans (paren e).spelling (paren e).words [] :=
    ((scans_lparen _).append hinside).append (scans_rparen [])
  obtain ⟨ts, hts, hscan⟩ := hscans 0
  rw [List.append_nil] at hscan
  have htokens : Token.scan (paren e).spelling =
      .ok (ts ++ [Token.endAt (0 + (paren e).spelling.length)]) := hscan
  rw [Expr.parse, htokens]
  exact congrArg Except.ok (read_paren he hts rfl)

/-- A formula in parentheses has the value, or fails with the first error from the left, that
evaluating it from the bottom up gives. -/
theorem evalText_render {m : Type → Type} [Monad m] [LawfulMonad m] (env : Env m)
    (valueOf : Sigil → Value) (e : Formula)
    (hvars : ∀ x ∈ e.vars, env.var? x.text = some (valueOf x) ∧ (valueOf x).kind ≠ .string) :
    evalText env (ch '(' :: e.render ++ [ch ')']) =
      pure ((e.value valueOf).mapError .arith) := by
  have hparse : Expr.parse (ch '(' :: e.render ++ [ch ')']) = .ok (Formula.paren e.grouped).expr :=
    Formula.parse_paren e.grouped_grouped
  have hlookup : ∀ x ∈ (Formula.paren e.grouped).vars,
      variableValue env (env.vars.length + 1) [] x.text = pure (valueOf x) := by
    intro x hx
    obtain ⟨hvalue, hkind⟩ := hvars x (e.vars_grouped ▸ hx)
    rw [variableValue, hvalue]
    generalize valueOf x = v at hkind ⊢
    cases v with
    | string t quote => exact absurd rfl hkind
    | _ => rfl
  rw [evalText, evalTextWith, hparse]
  have heval := @Formula.eval_expr m _ _ env _ _ (Formula.paren e.grouped) hlookup
  rw [Formula.value, Formula.value_grouped] at heval
  exact heval

/-- The literal `0px`. -/
def zeroPx : Literal where
  whole := of "0"
  fraction := none
  unit := of "px"
  whole_ne_nil := by decide
  whole_digits := List.all_eq_true.mp (by decide)
  fraction_digits := nofun
  unit_letters := List.all_eq_true.mp (by decide)
  inRange := by decide

/-- The variables `$on` and `$gap`. -/
def onSigil : Sigil := ⟨of "on", by decide, List.all_eq_true.mp (by decide)⟩
@[inherit_doc onSigil] def gapSigil : Sigil := ⟨of "gap", by decide, List.all_eq_true.mp (by decide)⟩

/-- A sum under a sign, compared and joined with a denied variable. -/
def gapFormula : Formula :=
  .binary .and
    (.binary (.compare .lt) (.negate (.binary (.arith .add) (.number zeroPx) (.var gapSigil)))
      (.var gapSigil))
    (.not (.var onSigil))

theorem gapFormula_evaluated :
    let env : Env Id :=
      ⟨[(of "$on", .bool true), (of "$gap", .number zeroPx.number)], fun _ _ => .ok none⟩
    let valueOf (x : Sigil) : Value := (env.var? x.text).getD (.bool false)
    gapFormula.render = of "-(0px + $gap) < $gap and not $on" ∧
      (∀ x ∈ gapFormula.vars, env.var? x.text = some (valueOf x) ∧ (valueOf x).kind ≠ .string) ∧
      evalText env (of "(-(0px + $gap) < $gap and not $on)") =
        pure ((gapFormula.value valueOf).mapError .arith) := by
  intro env valueOf
  have hrender : gapFormula.render = of "-(0px + $gap) < $gap and not $on" := by decide
  have hvars : ∀ x ∈ gapFormula.vars,
      env.var? x.text = some (valueOf x) ∧ (valueOf x).kind ≠ .string := by
    have hmem : ∀ x ∈ gapFormula.vars, x = gapSigil ∨ x = onSigil := by
      simp [gapFormula, Formula.vars]
    intro x hx
    obtain rfl | rfl := hmem x hx
    · exact ⟨rfl, by decide⟩
    · exact ⟨rfl, by decide⟩
  refine ⟨hrender, hvars, ?_⟩
  have heval := evalText_render env valueOf gapFormula hvars
  rwa [hrender] at heval

end Stylesheet
