import Stylesheet.Proofs.Expression.Spans

/-!
# Reading consumes tokens

What is left after an expression has been read is the end of the tokens before it, and shorter: an
expression without operators takes a token at least, and the end of the tokens is never passed.

## Main definitions

* `Spanned.Within` — tokens that are in order up to an end
* `Left` — what is left after reading

## Main results

* `consumes` — each reader takes a token at least
-/

namespace Stylesheet

open Text

/-- The tokens are in order from some position on, up to an end within the text. -/
def Spanned.Within (source : Text) (ts : List Token) : Prop :=
  ∃ stop pos, stop ≤ source.length ∧ Spanned source stop pos ts

/-- Tokens that are left of others, of which some have been read. -/
structure Left (source : Text) (ts left : List Token) : Prop where
  suffix : left <:+ ts
  shorter : left.length < ts.length
  within : Spanned.Within source left

variable {source : Text} {t : Token} {ts left left' : List Token}

namespace Spanned.Within

theorem ne_nil (h : Within source ts) : ts ≠ [] := by
  obtain ⟨stop, pos, -, h⟩ := h
  rintro rfl
  cases h

/-- The first token, if it is not the end, and what is left after it. -/
theorem cons (h : Within source (t :: ts)) (hkind : t.kind ≠ .eof) :
    t.Stands source ∧ Left source (t :: ts) ts ∧
      (t.kind = .function → ts.head? = some ⟨.lparen, [ch '('], t.stop, t.stop + 1, none, []⟩) := by
  obtain ⟨stop, pos, hstop, h⟩ := h
  obtain ⟨-, ht, hcall, hrest⟩ := h.cons hkind
  exact ⟨ht, ⟨List.suffix_cons t ts, Nat.lt_succ_self _, stop, _, hstop, hrest⟩, hcall⟩

/-- The tokens after the first, which is not the end. -/
theorem rest (h : Within source ts) (hkind : Expr.firstKind ts ≠ .eof) :
    Left source ts (Expr.rest ts) := by
  obtain ⟨t, ts, rfl⟩ := List.exists_cons_of_ne_nil h.ne_nil
  have hkind : t.kind ≠ .eof := hkind
  rw [Expr.rest, if_neg hkind]
  exact (h.cons hkind).2.1

/-- What is inside a parenthesis, with the end marked, and what is left after it. -/
theorem closing {inside after : List Token} {close : Token} (h : Within source ts)
    (hclosing : Expr.closing? 0 ts = some (inside, close, after)) :
    Within source (inside ++ [Token.endAt close.start]) ∧ Left source ts after := by
  obtain ⟨stop, pos, hstop, h⟩ := h
  obtain ⟨rfl, hclose⟩ := closing?_eq hclosing
  obtain ⟨hinside, hstands, hafter⟩ := h.inside hclose
  refine ⟨⟨_, pos, hstands.start_lt.le.trans hstands.stop_le, hinside⟩, ?_, ?_, stop, _, hstop,
    hafter⟩
  · exact (List.suffix_cons close after).trans (List.suffix_append inside _)
  · simp only [List.length_append, List.length_cons]
    omega

end Spanned.Within

namespace Left

theorem trans (h : Left source ts left) (h' : Left source left left') : Left source ts left' :=
  ⟨h'.suffix.trans h.suffix, h'.shorter.trans h.shorter, h'.within⟩

theorem trans_suffix (h : Left source ts left) (h' : left' <:+ left)
    (hwithin : Spanned.Within source left') : Left source ts left' :=
  ⟨h'.trans h.suffix, h'.length_le.trans_lt h.shorter, hwithin⟩

end Left

namespace Expr

theorem rest_cons (h : t.kind ≠ .eof) : rest (t :: ts) = ts := if_neg h

/-- A function has its parenthesis after it. -/
theorem exists_cons_of_function (h : Spanned.Within source ts)
    (hkind : (first ts).kind = .function) :
    ∃ name opening ts', ts = name :: opening :: ts' ∧ name.kind = .function ∧
      opening.kind = .lparen := by
  obtain ⟨name, ts, rfl⟩ := List.exists_cons_of_ne_nil h.ne_nil
  have hkind : name.kind = .function := hkind
  obtain ⟨-, -, hcall⟩ := h.cons (by simp [hkind])
  obtain ⟨ts, rfl⟩ := List.head?_eq_some_iff.mp (hcall hkind)
  exact ⟨name, _, ts, rfl, hkind, rfl⟩

theorem firstKind_of_function (h : Spanned.Within source ts) (hkind : (first ts).kind = .function) :
    firstKind (rest ts) ≠ .eof := by
  obtain ⟨name, opening, ts, rfl, hname, hopening⟩ := exists_cons_of_function h hkind
  simp [rest, hname, hopening, firstKind, first]

/-- A key is two tokens, neither of which is the end. -/
theorem firstKind_of_startsKey {place : Place} (h : startsKey place ts = true) :
    firstKind ts ≠ .eof ∧ firstKind (rest ts) ≠ .eof := by
  unfold startsKey at h
  split at h
  · rename_i t u r
    simp only [Bool.and_eq_true, Bool.or_eq_true, decide_eq_true_eq] at h
    obtain ⟨hcolon, hkey⟩ := h
    have ht : t.kind ≠ .eof := by rcases hkey with h | ⟨-, h | h⟩ <;> simp [h]
    exact ⟨ht, by simp [rest, ht, firstKind, first, hcolon]⟩
  · cases h

theorem left_of_startsKey {place : Place} (h : Spanned.Within source ts)
    (hkey : startsKey place ts = true) : Left source ts (rest (rest ts)) := by
  obtain ⟨hfirst, hsecond⟩ := firstKind_of_startsKey hkey
  exact (h.rest hfirst).trans ((h.rest hfirst).within.rest hsecond)

/-- With this fuel every reader takes a token at least. -/
structure Consumes (source : Text) (fuel : Nat) : Prop where
  level : ∀ {place l ts e left}, Spanned.Within source ts →
    readLevel fuel place l ts = (e, some left) → Left source ts left
  more : ∀ {place l e₀ ts e left}, Spanned.Within source ts →
    readMore fuel place l e₀ ts = (e, some left) → left <:+ ts ∧ Spanned.Within source left
  primary : ∀ {place ts e left}, Spanned.Within source ts →
    readPrimary fuel place ts = (e, some left) → Left source ts left
  items : ∀ {place before ts e left}, Spanned.Within source ts →
    readItems fuel place before ts = (e, some left) → Left source ts left
  members : ∀ {place ts es left}, Spanned.Within source ts →
    readMembers fuel place ts = (es, some left) → Left source ts left

namespace Consumes

variable {fuel : Nat} {place : Place}

/-- A first operand, and operators of the level after it. -/
theorem chain (h : Consumes source fuel) {l : Level} {e : Expr} (hts : Spanned.Within source ts)
    (hread : (match readLevel fuel place l.next ts with
      | (e, some ts) => readMore fuel place l e ts
      | (e, none) => (e, none)) = (e, some left)) : Left source ts left := by
  split at hread
  · rename_i e₀ ts₀ hnext
    have hleft := h.level hts hnext
    obtain ⟨hsuffix, hwithin⟩ := h.more hleft.within hread
    exact hleft.trans_suffix hsuffix hwithin
  · cases hread

theorem level_succ (h : Consumes source fuel) {l : Level} {e : Expr}
    (hts : Spanned.Within source ts)
    (hread : readLevel (fuel + 1) place l ts = (e, some left)) : Left source ts left := by
  -- a sign takes a token, and then as much as its operand takes
  have hsign {l' : Level} {f : Expr → Expr} (hkind : firstKind ts ≠ .eof)
      (hread : (f (readLevel fuel place l' (rest ts)).1, (readLevel fuel place l' (rest ts)).2) =
        (e, some left)) : Left source ts left := by
    have hrest := hts.rest hkind
    have hsome : (readLevel fuel place l' (rest ts)).2 = some left := congrArg Prod.snd hread
    exact hrest.trans (h.level hrest.within (Prod.ext rfl hsome))
  cases l with
  | unary =>
    rw [readLevel] at hread
    split at hread
    · exact hsign (f := .negate) (by simp_all) hread
    · exact hsign (f := id) (by simp_all) hread
    · exact h.primary hts hread
  | not =>
    rw [readLevel] at hread
    split at hread
    · exact hsign (f := .not) (by simp_all) hread
    · exact hsign (f := .bang) (by simp_all) hread
    · exact h.level hts hread
  | or => exact h.chain hts hread
  | and => exact h.chain hts hread
  | compare => exact h.chain hts hread
  | sum => exact h.chain hts hread
  | product => exact h.chain hts hread

theorem more_succ (h : Consumes source fuel) {l : Level} {e₀ e : Expr}
    (hts : Spanned.Within source ts)
    (hread : readMore (fuel + 1) place l e₀ ts = (e, some left)) :
    left <:+ ts ∧ Spanned.Within source left := by
  rw [readMore] at hread
  split at hread
  · cases hread
    exact ⟨List.suffix_refl _, hts⟩
  · rename_i op hop
    have hkind : firstKind ts ≠ .eof := by
      intro hend
      rw [hend] at hop
      cases l <;> cases hop
    split at hread
    · rename_i right ts₀ hright
      have hrest := hts.rest hkind
      have hleft := hrest.trans (h.level hrest.within hright)
      obtain ⟨hsuffix, hwithin⟩ := h.more hleft.within hread
      exact ⟨hsuffix.trans hleft.suffix, hwithin⟩
    · cases hread

theorem primary_succ (h : Consumes source fuel) {e : Expr} (hts : Spanned.Within source ts)
    (hread : readPrimary (fuel + 1) place ts = (e, some left)) : Left source ts left := by
  rw [readPrimary] at hread
  dsimp only at hread
  split at hread
  · rename_i hkind
    have hrest : Left source ts (rest ts) := hts.rest (by rw [firstKind, hkind]; decide)
    split_ifs at hread with hempty
    · cases hread
      exact hrest.trans (hrest.within.rest (by simp [hempty]))
    · split at hread
      · rename_i items ts₀ hmembers
        have hinside := hrest.trans (h.members hrest.within hmembers)
        split_ifs at hread with hclose
        · cases hread
          exact hinside.trans (hinside.within.rest (by simp [hclose]))
        · cases hread
      · cases hread
  · rename_i hkind
    have hrest : Left source ts (rest ts) := hts.rest (by rw [firstKind, hkind]; decide)
    -- a call takes its name, the parenthesis after it, and all up to the one that closes it
    have hparen := hrest.trans (hrest.within.rest (firstKind_of_function hts hkind))
    split at hread
    · cases hread
    · rename_i inside close after hclosing
      have hafter := hparen.trans (hparen.within.closing hclosing).2
      split_ifs at hread
      · cases hread
        exact hafter
      · split at hread <;>
        · cases hread
          exact hafter
  · obtain ⟨-, hsome⟩ := Prod.mk.inj hread
    split_ifs at hsome with hfailure
    cases hsome
    refine hts.rest fun hend => hfailure ?_
    have hkind : (first ts).kind = .eof := hend
    simp [ofToken, hkind, isFailure]

theorem items_succ (h : Consumes source fuel) {before : List Expr} {e : Expr}
    (hts : Spanned.Within source ts)
    (hread : readItems (fuel + 1) place before ts = (e, some left)) : Left source ts left := by
  rw [readItems] at hread
  split at hread
  · cases hread
  · rename_i e₀ ts₀ hlevel
    have hleft := h.level hts hlevel
    split_ifs at hread
    · cases hread
      exact hleft
    · exact hleft.trans (h.items hleft.within hread)

/-- A member after its key, and the members that follow it. -/
theorem member (h : Consumes source fuel) {key : Text} {es : List (Text × Expr)}
    (hts : Spanned.Within source ts)
    (hread : (match readItems fuel place [] ts with
      | (e, none) => ([(key, e)], none)
      | (e, some ts) =>
        if firstKind ts = .comma then
          let ts := rest ts
          if firstKind ts = .eof || firstKind ts = .rparen then ([(key, e)], some ts)
          else
            let (items, left) := readMembers fuel place ts
            ((key, e) :: items, left)
        else ([(key, e)], some ts)) = (es, some left)) : Left source ts left := by
  split at hread
  · cases hread
  · rename_i e ts₀ hitems
    have hleft := h.items hts hitems
    dsimp only at hread
    split_ifs at hread with hcomma hend
    · cases hread
      exact hleft.trans (hleft.within.rest (by simp [hcomma]))
    · have hrest := hleft.trans (hleft.within.rest (by simp [hcomma]))
      have hsome : (readMembers fuel place (rest ts₀)).2 = some left := congrArg Prod.snd hread
      exact hrest.trans (h.members hrest.within (Prod.ext rfl hsome))
    · cases hread
      exact hleft

theorem members_succ (h : Consumes source fuel) {es : List (Text × Expr)}
    (hts : Spanned.Within source ts)
    (hread : readMembers (fuel + 1) place ts = (es, some left)) : Left source ts left := by
  rw [readMembers] at hread
  split at hread
  · rename_i key ts' heq
    split_ifs at heq with hkey
    · cases heq
      have hrest := left_of_startsKey hts hkey
      exact hrest.trans (h.member hrest.within hread)
    · cases heq
      exact h.member hts hread

end Consumes

theorem consumes (source : Text) (fuel : Nat) : Consumes source fuel := by
  induction fuel with
  | zero => exact ⟨nofun, nofun, nofun, nofun, nofun⟩
  | succ fuel ih =>
    exact ⟨ih.level_succ, ih.more_succ, ih.primary_succ, ih.items_succ, ih.members_succ⟩

end Expr

end Stylesheet
