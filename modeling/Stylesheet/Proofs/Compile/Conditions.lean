import Stylesheet.Compile.Expand
import Stylesheet.Proofs.Text.Words

/-!
# Chains of conditions

A chain is a condition with a body, further conditions with theirs, and perhaps a body for when
none of them holds. In a text it is spelled as blocks in a row, and these are expanded one by one:
each hands on what came of the conditions before it. Expanding the blocks of a chain comes to going
through its conditions in order up to the first that holds and expanding the one body that belongs
to it. No later condition is evaluated, so it does not matter what evaluating it would do.

What is handed on does not outlast the chain. Every other block forgets it, and an alternative that
comes first, or after some other block, is left out with a warning.

## Main definitions

* `Block.Heads` — blocks with a body that a directive is for
* `Chain` — chains of conditions
* `Chain.Spells` — the blocks that spell a chain
* `Engine.select` — the first condition that holds, and the body that belongs to it

## Main results

* `Engine.block_of_other` — what is neither a condition nor an alternative forgets the chain
* `Engine.blocks_of_spells` — the blocks of a chain
* `Engine.blocks_orphan` — an alternative without a chain
* `expand_first_true` — chains in the text of a body
-/

namespace Stylesheet

open Text

/-! ### Blocks of a chain -/

/-- A block with a body, headed by a directive with this keyword and this text after it. -/
structure Block.Heads (b : Block) (keyword name body : Text) : Prop where
  directive : starts (expandShorthand b.header) [ch '@'] = true
  split : splitDirective (expandShorthand b.header) = (keyword, name)
  body : b.body = some body

/-- The block is a condition and starts a chain. -/
def Block.IsIf (b : Block) : Prop := ∃ cond body, b.Heads (of "@if") cond body

/-- The block is an alternative and goes on with the chain before it. -/
def Block.IsElse (b : Block) : Prop := ∃ name body, b.Heads (of "@else") name body

/-- The text after `@else` is `if` and a condition, set off by a space or a parenthesis. -/
def IsElseIf (name cond : Text) : Prop :=
  name = of "if " ++ cond ∨ name = of "if" ++ cond ∧ (cond = [] ∨ head0 cond = ch '(')

/-- A chain of conditions, each with the body that it guards. -/
structure Chain where
  cond : Text
  body : Text
  /-- Further conditions and their bodies, in order. -/
  others : List (Text × Text) := []
  /-- The body for when no condition holds. -/
  otherwise : Option Text := none

namespace Chain

/-- The conditions with their bodies. -/
def arms (c : Chain) : List (Text × Text) := (c.cond, c.body) :: c.others

/-- The blocks after the first one. -/
inductive SpellsElse : List (Text × Text) → Option Text → List Block → Prop
  | nil : SpellsElse [] none []
  | otherwise {b : Block} {name body : Text} (h : b.Heads (of "@else") name body)
      (hname : ∀ cond, ¬ IsElseIf name cond) : SpellsElse [] (some body) [b]
  | elseIf {b : Block} {name cond body : Text} {arms : List (Text × Text)}
      {otherwise : Option Text} {bs : List Block} (h : b.Heads (of "@else") name body)
      (hname : IsElseIf name cond) (hrest : SpellsElse arms otherwise bs) :
      SpellsElse ((cond, body) :: arms) otherwise (b :: bs)

/-- The blocks spell the chain: a condition, alternatives with a condition, and perhaps one
without. -/
inductive Spells (c : Chain) : List Block → Prop
  | mk {b : Block} {bs : List Block} (h : b.Heads (of "@if") c.cond c.body)
      (hrest : SpellsElse c.others c.otherwise bs) : Spells c (b :: bs)

end Chain

theorem elseCondition?_eq_none {name : Text} (h : ∀ cond, ¬ IsElseIf name cond) :
    Engine.elseCondition? name = none := by
  unfold Engine.elseCondition? after?
  split
  · rename_i hstarts
    obtain ⟨cond, rfl⟩ := List.isPrefixOf_iff_prefix.mp hstarts
    rw [List.drop_left, Option.bind_some, if_neg]
    intro hcond
    simp only [Bool.or_eq_true, List.isEmpty_iff, decide_eq_true_eq] at hcond
    rcases hcond with (hnil | hspace) | hparen
    · exact h cond (.inr ⟨rfl, .inl hnil⟩)
    · cases cond with
      | nil => exact absurd hspace (by decide)
      | cons c cond =>
        obtain rfl : c = ch ' ' := hspace
        exact h cond (.inl rfl)
    · exact h cond (.inr ⟨rfl, .inr hparen⟩)
  · rfl

/-- The condition of an alternative is found, if need be with the space before it. -/
theorem exists_elseCondition? {name cond : Text} (h : IsElseIf name cond) :
    ∃ space : Text, (space = [] ∨ space = [ch ' ']) ∧
      Engine.elseCondition? name = some (space ++ cond) := by
  have hafter (t : Text) : after? (of "if" ++ t) (of "if") = some t := by
    rw [after?, starts, if_pos (List.isPrefixOf_iff_prefix.mpr ⟨t, rfl⟩), List.drop_left]
  obtain rfl | ⟨rfl, hcond⟩ := h
  · refine ⟨[ch ' '], .inr rfl, ?_⟩
    have hname : of "if " ++ cond = of "if" ++ ch ' ' :: cond := rfl
    rw [Engine.elseCondition?, hname, hafter, Option.bind_some, if_pos (by simp [head0])]
    rfl
  · refine ⟨[], .inl rfl, ?_⟩
    rw [Engine.elseCondition?, hafter, Option.bind_some, if_pos]
    · rfl
    · obtain rfl | hparen := hcond
      · rfl
      · simp [hparen]

/-! ### What blocks do -/

namespace Engine

variable (en : Engine) (opts : Options) (frame : Frame)

/-- The first condition that holds decides: its body is expanded, or the last body if none holds.
The second part is what the chain hands on to the block after it. -/
def select : List (Text × Text) → Option Text → ExpandM (Signal × Branch)
  | [], none => return (.done, .skipped)
  | [], some body => return (← en.expand frame body, .none)
  | (cond, body) :: arms, otherwise => do
    if (← en.valueIn frame cond).truthy then return (← en.expand frame body, .taken)
    else select arms otherwise

variable {en opts frame} {prev : Branch} {b : Block}

theorem lineDirective?_if (name : Text) : en.lineDirective? opts frame (of "@if") name = none := rfl

theorem lineDirective?_else (name : Text) :
    en.lineDirective? opts frame (of "@else") name = none := rfl

theorem block_of_heads {keyword name body : Text} (h : b.Heads keyword name body)
    (hline : en.lineDirective? opts frame keyword name = none) :
    en.block opts frame prev b =
      en.blockDirective frame prev keyword name (expandShorthand b.header) body := by
  rw [block, if_pos h.directive, directive, h.split, h.body]
  dsimp only
  rw [hline]

theorem block_if {cond body : Text} (h : b.Heads (of "@if") cond body) :
    en.block opts frame prev b = en.doIf frame cond body := by
  rw [block_of_heads h (lineDirective?_if cond), blockDirective, if_pos rfl]

theorem block_else {name body : Text} (h : b.Heads (of "@else") name body) :
    en.block opts frame prev b = en.doElse frame prev name body := by
  rw [block_of_heads h (lineDirective?_else name), blockDirective, if_neg (by decide), if_pos rfl]

variable (en opts frame) in
/-- A block that is neither a condition nor an alternative takes no account of a chain, and hands
on none. -/
theorem block_of_other (hif : ¬ b.IsIf) (helse : ¬ b.IsElse) :
    ∃ x : ExpandM Signal, ∀ prev, en.block opts frame prev b = (do return (← x, .none)) := by
  unfold block
  dsimp only
  split
  · rename_i hdirective
    unfold directive
    rcases hsplit : splitDirective (expandShorthand b.header) with ⟨keyword, name⟩
    dsimp only
    cases en.lineDirective? opts frame keyword name with
    | some x => exact ⟨x, fun _ => rfl⟩
    | none =>
      cases hbody : b.body with
      | none =>
        exact ⟨do en.bareLine frame (expandShorthand b.header); return .done, fun _ => by simp⟩
      | some body =>
        dsimp only
        have hneIf : keyword ≠ of "@if" := by
          rintro rfl
          exact hif ⟨name, body, hdirective, hsplit, hbody⟩
        have hneElse : keyword ≠ of "@else" := by
          rintro rfl
          exact helse ⟨name, body, hdirective, hsplit, hbody⟩
        -- Of the directives with a body only these two look at what was handed on.
        simp only [blockDirective, if_neg hneIf, if_neg hneElse]
        split
        · exact ⟨_, fun _ => rfl⟩
        split
        · exact ⟨_, fun _ => rfl⟩
        split
        · exact ⟨_, fun _ => rfl⟩
        refine ⟨do
          if keyword = of "@mixin" then en.define frame false name body
          else if keyword = of "@function" then en.define frame true name body
          else if keyword = of "@media" then en.media frame name body
          else en.rawBlock frame (expandShorthand b.header) body
          return .done, fun _ => ?_⟩
        -- whatever the block is, it is done when it has been expanded
        split_ifs <;> simp
  · cases b.body with
    | none =>
      exact ⟨do en.declaration frame (expandShorthand b.header); return .done, fun _ => by simp⟩
    | some body =>
      dsimp only
      split
      · exact ⟨_, fun _ => rfl⟩
      split
      · exact ⟨_, fun _ => rfl⟩
      · exact ⟨return .done, fun _ => by simp⟩

/-! ### Blocks in a row -/

variable {failure : Option StructuralError} {arms : List (Text × Text)} {otherwise : Option Text}
  {bs : List Block}

theorem blocks_cons (b : Block) (bs : List Block) :
    en.blocks opts frame failure prev (b :: bs) = (do
      match ← en.block opts frame prev b with
      | (.returned v, _) => return .returned v
      | (.done, branch) => en.blocks opts frame failure branch bs) := rfl

/-- Once a condition has held the alternatives are passed over. -/
theorem blocks_taken (h : Chain.SpellsElse arms otherwise bs) (rest : List Block) :
    en.blocks opts frame failure .taken (bs ++ rest) =
      en.blocks opts frame failure .taken rest := by
  induction h with
  | nil => rfl
  | otherwise h _ =>
    rw [List.singleton_append, blocks_cons, block_else h]
    exact pure_bind _ _
  | elseIf h _ _ ih =>
    rw [List.cons_append, blocks_cons, block_else h, ← ih]
    exact pure_bind _ _

/-- While no condition has held the alternatives are gone through. -/
theorem blocks_skipped (hspace : ∀ cond, en.valueIn frame (ch ' ' :: cond) = en.valueIn frame cond)
    (h : Chain.SpellsElse arms otherwise bs) (rest : List Block) :
    en.blocks opts frame failure .skipped (bs ++ rest) = (do
      match ← en.select frame arms otherwise with
      | (.returned v, _) => return .returned v
      | (.done, branch) => en.blocks opts frame failure branch rest) := by
  -- alternative by alternative: the first that holds is taken, and passes by the others
  induction h with
  | nil => exact (pure_bind _ _).symm
  | otherwise h hname =>
    rw [List.singleton_append, blocks_cons, block_else h, doElse, elseCondition?_eq_none hname]
    rfl
  | elseIf h hname hrest ih =>
    rename_i cond body _ _ bs
    obtain ⟨space, hspaces, hcond⟩ := exists_elseCondition? hname
    have hvalue : en.valueIn frame (space ++ cond) = en.valueIn frame cond := by
      obtain rfl | rfl := hspaces
      · rfl
      · exact hspace cond
    rw [List.cons_append, blocks_cons, block_else h, doElse, hcond]
    dsimp only
    rw [doIf, hvalue, select]
    simp only [bind_assoc]
    refine bind_congr fun v => ?_
    split
    · simp only [bind_assoc, pure_bind]
      refine bind_congr fun signal => ?_
      cases signal with
      -- once one was taken, those after it are passed by
      | done => exact blocks_taken hrest rest
      | returned v => rfl
    · rw [pure_bind]
      exact ih

/-- The blocks of a chain expand what the chain selects, whatever came before it. -/
theorem blocks_of_spells
    (hspace : ∀ cond, en.valueIn frame (ch ' ' :: cond) = en.valueIn frame cond) {c : Chain}
    (h : c.Spells bs) (rest : List Block) :
    en.blocks opts frame failure prev (bs ++ rest) = (do
      match ← en.select frame c.arms c.otherwise with
      | (.returned v, _) => return .returned v
      | (.done, branch) => en.blocks opts frame failure branch rest) := by
  obtain ⟨h, hrest⟩ := h
  rw [List.cons_append, blocks_cons, block_if h, doIf, Chain.arms, select]
  simp only [bind_assoc]
  refine bind_congr fun v => ?_
  split
  · simp only [bind_assoc, pure_bind]
    refine bind_congr fun signal => ?_
    cases signal with
    | done => exact blocks_taken hrest rest
    | returned v => rfl
  · rw [pure_bind]
    exact blocks_skipped hspace hrest rest

/-- What a chain hands on is lost on anything but an alternative. -/
theorem blocks_forget (h : ∀ b ∈ bs.head?, ¬ b.IsElse) (branch : Branch) :
    en.blocks opts frame failure branch bs = en.blocks opts frame failure .none bs := by
  cases bs with
  | nil => rfl
  | cons b bs =>
    have helse : ¬ b.IsElse := h b rfl
    rw [blocks_cons, blocks_cons]
    by_cases hif : b.IsIf
    · obtain ⟨cond, body, hheads⟩ := hif
      rw [block_if hheads, block_if hheads]
    · obtain ⟨x, hx⟩ := block_of_other en opts frame hif helse
      rw [hx, hx]

/-- An alternative without a chain before it is left out with a warning. -/
theorem blocks_orphan (hb : b.IsElse) {before : List Block} (rest : List Block)
    (hstart : before = [] → prev = .none)
    (hbefore : ∀ a ∈ before.getLast?, ¬ a.IsIf ∧ ¬ a.IsElse) :
    en.blocks opts frame failure prev (before ++ b :: rest) = (do
      match ← en.blocks opts frame none prev before with
      | .returned v => return .returned v
      | .done =>
        report .warning frame.file (of "@else with no @if")
        en.blocks opts frame failure .none rest) := by
  obtain ⟨name, body, hheads⟩ := hb
  have halternative : en.blocks opts frame failure .none (b :: rest) = (do
      report .warning frame.file (of "@else with no @if")
      en.blocks opts frame failure .none rest) := by
    rw [blocks_cons, block_else hheads, doElse]
    simp only [bind_assoc, pure_bind]
  -- The induction is on the blocks before; only the last of them, if any, decides what is
  -- handed on.
  induction before generalizing prev with
  | nil =>
    obtain rfl := hstart rfl
    rw [List.nil_append, halternative]
    exact (pure_bind _ _).symm
  | cons a before ih =>
    rw [List.cons_append, blocks_cons, blocks_cons, bind_assoc]
    cases before with
    | nil =>
      obtain ⟨hif, helse⟩ := hbefore a rfl
      obtain ⟨x, hx⟩ := block_of_other en opts frame hif helse
      simp only [hx, bind_assoc, pure_bind]
      refine bind_congr fun signal => ?_
      cases signal with
      | done => exact halternative.trans (pure_bind _ _).symm
      | returned v => exact (pure_bind _ _).symm
    | cons a' before =>
      refine bind_congr fun r => ?_
      obtain ⟨signal, branch⟩ := r
      cases signal with
      | done => exact ih nofun fun c hc => hbefore c (by rwa [List.getLast?_cons_cons])
      | returned v => exact (pure_bind _ _).symm

end Engine

/-! ### Chains in a stylesheet -/

/-- White space before a condition makes no difference. -/
theorem valueIn_space (opts : Options) (fuel : Nat) (frame : Frame) (cond : Text) :
    (engine opts fuel).valueIn frame (ch ' ' :: cond) = (engine opts fuel).valueIn frame cond := by
  have hevaluate (scope : Scope) : (engine opts fuel).evaluate scope (ch ' ' :: cond) =
      (engine opts fuel).evaluate scope cond := by
    cases fuel with
    | zero => rfl
    | succ fuel =>
      have htrim : trim (ch ' ' :: cond) = trim cond :=
        trim_blank_append (w := [ch ' ']) (by decide) cond
      change (engine opts fuel).evaluateWith opts scope (ch ' ' :: cond) =
        (engine opts fuel).evaluateWith opts scope cond
      rw [Engine.evaluateWith, Engine.evaluateWith, htrim]
  unfold Engine.valueIn Engine.calculate
  simp only [hevaluate]

/-- A chain of conditions expands the body of the first condition that holds and evaluates none
after it; what follows the chain, unless it is a further alternative, is expanded as if there had
been no chain. An alternative that follows neither a condition nor an alternative is left out with
a warning. -/
theorem expand_first_true (opts : Options) (fuel : Nat) (frame : Frame)
    (failure : Option StructuralError) :
    let en := engine opts fuel
    (∀ (c : Chain) (run rest : List Block) (prev : Branch), c.Spells run →
      en.blocks opts frame failure prev (run ++ rest) = (do
        match ← en.select frame c.arms c.otherwise with
        | (.returned v, _) => return .returned v
        | (.done, branch) => en.blocks opts frame failure branch rest)) ∧
    (∀ (rest : List Block) (branch : Branch), (∀ b ∈ rest.head?, ¬ b.IsElse) →
      en.blocks opts frame failure branch rest = en.blocks opts frame failure .none rest) ∧
    (∀ (before : List Block) (b : Block) (rest : List Block), b.IsElse →
      (∀ a ∈ before.getLast?, ¬ a.IsIf ∧ ¬ a.IsElse) →
      en.blocks opts frame failure .none (before ++ b :: rest) = (do
        match ← en.blocks opts frame none .none before with
        | .returned v => return .returned v
        | .done =>
          report .warning frame.file (of "@else with no @if")
          en.blocks opts frame failure .none rest)) :=
  ⟨fun _ _ rest _ h => Engine.blocks_of_spells (valueIn_space opts fuel frame) h rest,
    fun _ branch h => Engine.blocks_forget h branch,
    fun _ _ rest hb hbefore => Engine.blocks_orphan hb rest (fun _ => rfl) hbefore⟩

/-- A chain with two conditions and a body for when neither holds. -/
def sizeChain : Chain where
  cond := of "$x == 2"
  body := of "p: 1;"
  others := [(of "$x == 1", of "q: 2;")]
  otherwise := some (of "r: 3;")

theorem sizeChain_expands :
    let en := engine {} 2
    let run := (locate (of "@if $x == 2 {p: 1;} @else if $x == 1 {q: 2;} @else {r: 3;}")).1
    let before := (locate (of "m: n;")).1
    let late : Block := ⟨of "@else", some (of "s: t;"), 6⟩
    locate (of "m: n; @else {s: t;}") = (before ++ [late], none) ∧
    sizeChain.Spells run ∧ (∀ b ∈ before.head?, ¬ b.IsElse) ∧ late.IsElse ∧
    (∀ a ∈ before.getLast?, ¬ a.IsIf ∧ ¬ a.IsElse) ∧
    en.blocks {} {} none .none (run ++ before) = (do
      match ← en.select {} sizeChain.arms sizeChain.otherwise with
      | (.returned v, _) => return .returned v
      | (.done, branch) => en.blocks {} {} none branch before) ∧
    en.blocks {} {} none .skipped before = en.blocks {} {} none .none before ∧
    en.blocks {} {} none .none (before ++ late :: []) = (do
      match ← en.blocks {} {} none .none before with
      | .returned v => return .returned v
      | .done =>
        report .warning [] (of "@else with no @if")
        en.blocks {} {} none .none []) := by
  intro en run before late
  have hspells : sizeChain.Spells run := by
    have helseIf : ∀ b ∈ run[1]?, b.Heads (of "@else") (of "if $x == 1") (of "q: 2;") := by
      rintro b ⟨⟩
      exact ⟨by decide, by decide, rfl⟩
    have helse : ∀ b ∈ run[2]?, b.Heads (of "@else") [] (of "r: 3;") := by
      rintro b ⟨⟩
      exact ⟨by decide, by decide, rfl⟩
    refine .mk ⟨by decide, by decide, rfl⟩ (.elseIf (helseIf _ rfl) (.inl rfl)
      (.otherwise (helse _ rfl) ?_))
    rintro cond (h | ⟨h, -⟩) <;> exact List.cons_ne_nil _ _ h.symm
  have hplain : ∀ a ∈ before.head?, ¬ a.IsIf ∧ ¬ a.IsElse := by
    intro a ha
    cases ha
    constructor <;>
    · rintro ⟨name, body, h⟩
      exact absurd h.directive (by decide)
  have hlate : late.IsElse := ⟨[], of "s: t;", by decide, by decide, rfl⟩
  obtain ⟨hchain, hforget, horphan⟩ := expand_first_true {} 2 {} none
  exact ⟨by decide +kernel, hspells, fun b hb => (hplain b hb).2, hlate, hplain,
    hchain sizeChain run before .none hspells, hforget before .skipped fun b hb => (hplain b hb).2,
    horphan before late [] hlate hplain⟩

end Stylesheet
