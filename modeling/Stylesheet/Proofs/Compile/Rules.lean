import Stylesheet.Proofs.Compile.Transfer

/-!
# Stylesheets of rules

A text that has rules, media blocks and declarations, nested in any way, and no other directive
does little besides emitting and spawning: it defines nothing, so no expression calls a function
of the stylesheet, and it neither imports anything nor changes a setting. This file shows that
expanding it keeps what the expansion of other texts looks at, and so does expanding all that it
spawns. At the top level, where it has rules and media blocks only, it does nothing to the state
of the block but spawn, and whatever follows goes on as if it came first.

## Main definitions

* `RuleText` — texts of rules, media blocks and declarations, nested in any way
* `RuleSheet` — texts of rules and media blocks with such bodies
* `Mild`, `MildIn` — computations that keep what expansion looks at
* `Additive` — computations inside a block that do nothing to its state but spawn

## Main results

* `mild_engine` — expanding a text of rules keeps what expansion looks at
* `Walk.agrees` — so does expanding the fragments it spawns
* `RuleSheet.additive` — the blocks of a stylesheet of rules only spawn
* `outcome_blocks_append` — what follows such blocks goes on from where they end
-/

namespace Stylesheet

open Text

variable {α β : Type}

/-! ### Texts -/

/-- A block as a text of rules may have it: a declaration, a rule, or a media block. Of the
directives there is no other, and no block whose header ends in a colon. -/
structure Block.InRules (b : Block) : Prop where
  directive : starts (expandShorthand b.header) [ch '@'] = true →
    (splitDirective (expandShorthand b.header)).1 = of "@media" ∧ b.body ≠ none
  selector : b.body ≠ none → ends (expandShorthand b.header) [ch ':'] = false

instance (b : Block) : Decidable b.InRules :=
  decidable_of_iff
    ((starts (expandShorthand b.header) [ch '@'] = true →
        (splitDirective (expandShorthand b.header)).1 = of "@media" ∧ b.body ≠ none) ∧
      (b.body ≠ none → ends (expandShorthand b.header) [ch ':'] = false))
    ⟨fun h => ⟨h.1, h.2⟩, fun h => ⟨h.directive, h.selector⟩⟩

/-- A text of rules, media blocks and declarations, nested in any way. -/
inductive RuleText : Text → Prop
  | intro {code : Text} (blocks : ∀ b ∈ (locate code).1, b.InRules)
      (bodies : ∀ b ∈ (locate code).1, ∀ body, b.body = some body → RuleText body) :
      RuleText code

/-- A stylesheet of rules and media blocks. A block with the header `self` would be no rule
there, but stand for the whole. -/
structure RuleSheet (code : Text) : Prop where
  rules : RuleText code
  bodies : ∀ b ∈ (locate code).1, b.body ≠ none
  proper : ∀ b ∈ (locate code).1, trim (expandShorthand b.header) ≠ of "self"

/-- A text of declarations alone. -/
theorem RuleText.of_bare {code : Text} (h : ∀ b ∈ (locate code).1, b.InRules ∧ b.body = none) :
    RuleText code := by
  refine .intro (fun b hb => (h b hb).1) fun b hb body hbody => ?_
  rw [(h b hb).2] at hbody
  cases hbody

/-- A stylesheet of one rule, in which there are declarations alone. -/
theorem RuleSheet.of_rule {code body : Text} {b : Block} (hblocks : (locate code).1 = [b])
    (hbody : b.body = some body) (hrule : b.InRules)
    (hproper : trim (expandShorthand b.header) ≠ of "self")
    (hbare : ∀ d ∈ (locate body).1, d.InRules ∧ d.body = none) : RuleSheet code := by
  have hall {P : Block → Prop} (h : P b) : ∀ c ∈ (locate code).1, P c := by
    rwa [hblocks, List.forall_mem_singleton]
  refine ⟨.intro (hall hrule) (hall fun t ht => ?_), hall ?_, hall hproper⟩
  · obtain rfl := Option.some.inj (hbody.symm.trans ht)
    exact .of_bare hbare
  · rw [hbody]
    exact Option.some_ne_none body

/-- A waiting fragment with a text of rules that inherits no function. -/
structure Pending.OfRules (p : Pending) : Prop where
  code : RuleText p.code
  functions : p.registry.functions = []

/-- The state of a block in which no function is known and which has spawned texts of rules. -/
structure Locals.OfRules (l : Locals) : Prop where
  functions : l.registry.functions = []
  children : ∀ p ∈ l.children, p.OfRules

/-! ### Computations on a session -/

namespace Session.Agrees

variable {s t u : Session}

theorem refl (s : Session) : s.Agrees s := ⟨rfl, rfl, rfl⟩

theorem symm (h : s.Agrees t) : t.Agrees s := ⟨h.depth.symm, h.debug.symm, h.style.symm⟩

theorem trans (h : s.Agrees t) (h' : t.Agrees u) : s.Agrees u :=
  ⟨h.depth.trans h'.depth, h.debug.trans h'.debug, h.style.trans h'.style⟩

end Session.Agrees

/-- A computation that keeps what the expansion of a text looks at. -/
def Mild (x : SessionM α) : Prop := ∀ s : Session, s.Agrees (outcome x s).2

theorem mild_pure (a : α) : Mild (pure a) := Session.Agrees.refl

theorem mild_throw (e : Halt) : Mild (throw e : SessionM α) := Session.Agrees.refl

theorem mild_get : Mild (get : SessionM Session) := Session.Agrees.refl

theorem mild_modify {u : Session → Session} (hu : ∀ s : Session, s.Agrees (u s)) :
    Mild (modify u) := hu

theorem mild_report (severity : Severity) (file message : Text) :
    Mild (report severity file message) := mild_modify fun _ => ⟨rfl, rfl, rfl⟩

theorem Mild.bind {x : SessionM α} {f : α → SessionM β} (h : Mild x) (hf : ∀ a, Mild (f a)) :
    Mild (x >>= f) := by
  intro s
  have hx := h s
  rw [outcome_bind]
  generalize outcome x s = o at hx ⊢
  obtain ⟨r, s₁⟩ := o
  cases r with
  | error e => exact hx
  | ok a => exact hx.trans (hf a s₁)

theorem congruent_mild : Congruent fun x _ => Mild x := ⟨mild_pure, Mild.bind⟩

/-- Where no function of the stylesheet is known, an expression is evaluated without calling
one. -/
theorem mild_evaluate (opts : Options) (fuel : Nat) {scope : Scope}
    (hnone : scope.registry.functions = []) (t : Text) :
    Mild ((engine opts fuel).evaluate scope t) := by
  induction fuel generalizing t with
  | zero => exact mild_throw _
  | succ fuel ih =>
    -- Calls are answered by the table: of the functions of the stylesheet none is known.
    have heval (t : Text) : Mild (evalText ((engine opts fuel).env opts.functions scope) t) :=
      @Congruent.evalIn _ (engine opts fuel) (engine opts fuel) scope congruent_mild
        (fun e he => by simp [hnone] at he) opts.functions t
    have hexpr (t : Text) : Mild ((engine opts fuel).evaluateExpr opts scope t) :=
      @Congruent.evaluateExpr _ (engine opts fuel) (engine opts fuel) scope congruent_mild mild_get
        mild_report (fun t v => mild_modify fun _ => ⟨rfl, rfl, rfl⟩) opts t (heval t)
    exact @Congruent.evaluateWith _ (engine opts fuel) (engine opts fuel) scope congruent_mild ih
      opts hexpr t

/-! ### Computations inside a block -/

/-- A computation inside a block that keeps what the expansion of a text looks at, as long as no
function is known, and spawns texts of rules. -/
def MildIn (x : ExpandM α) : Prop :=
  ∀ (l : Locals) (s : Session), l.OfRules → s.Agrees (outcome (x.run l) s).2 ∧
    ∀ a l', (outcome (x.run l) s).1 = .ok (a, l') → l'.OfRules

theorem mildIn_pure (a : α) : MildIn (pure a) := by
  refine fun l s hl => ⟨.refl s, fun b l' h => ?_⟩
  cases h
  exact hl

theorem mildIn_throw (e : Halt) : MildIn (throw e : ExpandM α) :=
  fun _ s _ => ⟨.refl s, fun _ _ h => by cases h⟩

theorem mildIn_modify {u : Locals → Locals} (hu : ∀ l, l.OfRules → (u l).OfRules) :
    MildIn (modify u) := by
  refine fun l s hl => ⟨.refl s, fun b l' h => ?_⟩
  cases h
  exact hu l hl

theorem mildIn_emit (p : Property) : MildIn (emit p) :=
  mildIn_modify fun _ hl => ⟨hl.functions, hl.children⟩

theorem mildIn_bindVar (name : Text) (v : Value) : MildIn (bindVar name v) :=
  mildIn_modify fun _ hl => ⟨hl.functions, hl.children⟩

theorem mildIn_spawn {frame : Frame} {make : Pending → Pending}
    (hcode : ∀ p, RuleText (make p).code)
    (hregistry : ∀ p, (make p).registry = p.registry) : MildIn (spawn frame make) := by
  refine fun l s hl => ⟨⟨rfl, rfl, rfl⟩, fun a l' h => ?_⟩
  cases h
  refine ⟨hl.functions, fun p hp => ?_⟩
  rcases List.mem_append.mp hp with hp | hp
  · exact hl.children p hp
  · rw [List.mem_singleton.mp hp]
    exact ⟨hcode _, (congrArg Registry.functions (hregistry _)).trans hl.functions⟩

namespace MildIn

theorem bind {x : ExpandM α} {f : α → ExpandM β} (h : MildIn x) (hf : ∀ a, MildIn (f a)) :
    MildIn (x >>= f) := by
  intro l s hl
  obtain ⟨hagrees, hrules⟩ := h l s hl
  rw [StateT.run_bind, outcome_bind]
  generalize outcome (x.run l) s = o at hagrees hrules ⊢
  obtain ⟨r, s₁⟩ := o
  cases r with
  | error e => exact ⟨hagrees, fun _ _ h => by cases h⟩
  | ok r =>
    obtain ⟨a, l₁⟩ := r
    obtain ⟨hagrees', hrules'⟩ := hf a l₁ s₁ (hrules a l₁ rfl)
    exact ⟨hagrees.trans hagrees', hrules'⟩

theorem ite {c : Prop} [Decidable c] {x y : ExpandM α} (hx : MildIn x) (hy : MildIn y) :
    MildIn (if c then x else y) := by
  split_ifs
  · exact hx
  · exact hy

theorem lift {x : SessionM α} (h : Mild x) : MildIn (liftM x : ExpandM α) := by
  intro l s hl
  refine ⟨(h.bind fun a => mild_pure (a, l)) s, fun a l' ho => ?_⟩
  change (outcome (x >>= fun a => pure (a, l)) s).1 = _ at ho
  rw [outcome_bind] at ho
  generalize outcome x s = o at ho
  obtain ⟨r, s₁⟩ := o
  cases r with
  | error e => cases ho
  | ok b =>
    cases ho
    exact hl

/-- What reads the state of the block finds that no function is known. -/
theorem read {f : Locals → ExpandM α} (h : ∀ l : Locals, l.registry.functions = [] → MildIn (f l)) :
    MildIn (get >>= f) := fun l s hl => h l hl.functions l s hl

theorem inScope {frame : Frame} {f : Scope → ExpandM α}
    (h : ∀ scope : Scope, scope.registry.functions = [] → MildIn (f scope)) :
    MildIn (scopeIn frame >>= f) := fun l s hl => h _ hl.functions l s hl

end MildIn

/-! ### Expansion -/

/-- A media block with a body is nothing but that. -/
theorem Engine.directive_media {en : Engine} {opts : Options} {frame : Frame} {header body : Text}
    (hmedia : (splitDirective header).1 = of "@media") (prev : Branch) :
    en.directive opts frame prev header (some body) =
      (do en.media frame (splitDirective header).2 body; return (.done, .none)) := by
  have hline (name : Text) : en.lineDirective? opts frame (of "@media") name = none := rfl
  rw [Engine.directive]
  dsimp only
  rw [hmedia, hline]
  rfl

/-- An engine under which the expansion of a text of rules keeps what expansion looks at. -/
structure Engine.Mild (en : Engine) : Prop where
  expand : ∀ (frame : Frame) {code : Text}, RuleText code → MildIn (en.expand frame code)
  evaluate : ∀ {scope : Scope}, scope.registry.functions = [] → ∀ t,
    Stylesheet.Mild (en.evaluate scope t)

namespace Engine.Mild

variable {en : Engine} {opts : Options} {frame : Frame}

theorem valueIn (h : en.Mild) (t : Text) : MildIn (en.valueIn frame t) :=
  .inScope fun scope hnone =>
    .lift (@Congruent.calculate _ en en scope congruent_mild t (h.evaluate hnone t))

theorem textIn (h : en.Mild) (t : Text) : MildIn (en.textIn frame t) :=
  .inScope fun scope hnone =>
    .lift (@Congruent.resolveText _ en en scope congruent_mild (h.evaluate hnone) t)

theorem assignVar (h : en.Mild) (name t : Text) : MildIn (en.assignVar frame name t) := by
  have hbind (t : Text) : MildIn (en.valueIn frame t >>= Stylesheet.bindVar name) :=
    (h.valueIn t).bind fun v => mildIn_bindVar name v
  exact .ite (.read fun _ _ => .ite (hbind _) (mildIn_pure _)) (hbind t)

theorem declaration (h : en.Mild) (header : Text) : MildIn (en.declaration frame header) := by
  unfold Engine.declaration
  split
  · exact (h.textIn header).bind fun _ => .ite (mildIn_emit _) (mildIn_pure _)
  · refine .ite (mildIn_pure _) (.ite (h.assignVar _ _) ?_)
    exact (h.textIn _).bind fun _ => (h.valueIn _).bind fun _ => mildIn_emit _

theorem media (h : en.Mild) {body : Text} (hbody : RuleText body) (query : Text) :
    MildIn (en.media frame query body) := by
  refine .ite ((h.textIn query).bind fun _ => mildIn_spawn ?_ ?_) (mildIn_pure _)
  · exact fun _ => hbody
  · exact fun _ => rfl

theorem nest (h : en.Mild) {body : Text} (hbody : RuleText body) (header : Text) :
    MildIn (en.nest frame header body) := by
  refine .ite (h.expand frame hbody) (.ite (mildIn_pure _) ?_)
  refine (h.textIn header).bind fun _ => .ite ((mildIn_spawn ?_ ?_).bind fun _ => ?_) ?_
  · exact fun _ => hbody
  · exact fun _ => rfl
  · exact mildIn_pure _
  · exact mildIn_pure _

/-- What one block of a text of rules does. -/
theorem block (h : en.Mild) {b : Block} (hb : b.InRules)
    (hbody : ∀ body, b.body = some body → RuleText body) (prev : Branch) :
    MildIn (en.block opts frame prev b) := by
  unfold Engine.block
  dsimp only
  -- a media block, a declaration or a rule
  by_cases hdirective : starts (expandShorthand b.header) [ch '@'] = true
  · obtain ⟨hmedia, hsome⟩ := hb.directive hdirective
    obtain ⟨body, hbody'⟩ := Option.ne_none_iff_exists'.mp hsome
    rw [if_pos hdirective, hbody', Engine.directive_media hmedia]
    exact (h.media (hbody body hbody') _).bind fun _ => mildIn_pure _
  rw [if_neg hdirective]
  cases hbody' : b.body with
  | none => exact (h.declaration _).bind fun _ => mildIn_pure _
  | some body =>
    dsimp only
    rw [hb.selector (by simp [hbody']), if_neg Bool.false_ne_true]
    exact .ite ((h.nest (hbody body hbody') _).bind fun _ => mildIn_pure _) (mildIn_pure _)

/-- The blocks of a text of rules, by induction on those left. -/
theorem blocks (h : en.Mild) (failure : Option StructuralError) {found : List Block}
    (hfound : ∀ b ∈ found, b.InRules ∧ ∀ body, b.body = some body → RuleText body) (prev : Branch) :
    MildIn (en.blocks opts frame failure prev found) := by
  induction found generalizing prev with
  | nil =>
    cases failure with
    | none => exact mildIn_pure _
    | some e => exact mildIn_throw _
  | cons b rest ih =>
    obtain ⟨⟨hb, hbody⟩, hrest⟩ := List.forall_mem_cons.mp hfound
    refine (h.block hb hbody prev).bind fun r => ?_
    obtain ⟨signal, branch⟩ := r
    cases signal with
    | returned v => exact mildIn_pure _
    | done => exact ih hrest branch

end Engine.Mild

/-- Expanding a text of rules keeps what expansion looks at, with any fuel. -/
theorem mild_engine (opts : Options) (fuel : Nat) : (engine opts fuel).Mild := by
  refine ⟨?_, fun hnone t => mild_evaluate opts fuel hnone t⟩
  induction fuel with
  | zero => exact fun _ _ _ => mildIn_throw _
  | succ fuel ih =>
    intro frame code hcode
    have hen : (engine opts fuel).Mild := ⟨ih, fun hnone t => mild_evaluate opts fuel hnone t⟩
    obtain ⟨hblocks, hbodies⟩ := hcode
    exact hen.blocks _ (fun b hb => ⟨hblocks b hb, hbodies b hb⟩) _

/-! ### Waiting fragments -/

variable {opts : Options} {fuel order : Nat} {s s' : Session}

theorem expandPending_agrees {p : Pending} (hp : p.OfRules) {f : Fragment} {children : List Pending}
    (h : outcome (expandPending (engine opts fuel) order p) s = (.ok (f, children), s')) :
    s.Agrees s' ∧ ∀ c ∈ children, c.OfRules := by
  rcases expandPending_cases h with ⟨-, -, rfl, rfl⟩ | ⟨-, signal, l, hexpand, -, rfl⟩
  · exact ⟨.refl _, List.forall_mem_nil _⟩
  · have hlocals : p.locals.OfRules := ⟨hp.functions, List.forall_mem_nil _⟩
    obtain ⟨hagrees, hrules⟩ := (mild_engine opts fuel).expand p.frame hp.code p.locals s hlocals
    rw [hexpand] at hagrees hrules
    exact ⟨hagrees, (hrules signal l rfl).children⟩

/-- Fragments with texts of rules keep what expansion looks at. -/
theorem Walk.agrees {queue : List Pending} {log : SpawnLog}
    (h : Walk (engine opts fuel) order s queue log s') (hqueue : ∀ p ∈ queue, p.OfRules) :
    s.Agrees s' := by
  induction h with
  | done => exact .refl _
  | step hexpand _ ih =>
    obtain ⟨hp, hqueue⟩ := List.forall_mem_cons.mp hqueue
    obtain ⟨hagrees, hchildren⟩ := expandPending_agrees hp hexpand
    exact hagrees.trans (ih fun c hc => (List.mem_append.mp hc).elim (hchildren c) (hqueue c))

/-! ### The top level -/

/-- A computation inside a block that ends as `P` says and does nothing to the state of the
block but spawn. -/
def Additive (P : α → Prop) (x : ExpandM α) : Prop :=
  ∀ l s a l' s', outcome (x.run l) s = (.ok (a, l'), s') →
    P a ∧ l' = { l with children := l'.children }

variable {P : α → Prop} {Q : β → Prop}

theorem additive_pure {a : α} (ha : P a) : Additive P (pure a) := by
  intro l s b l' s' h
  cases h
  exact ⟨ha, rfl⟩

theorem additive_spawn (frame : Frame) (make : Pending → Pending) :
    Additive (fun _ => True) (spawn frame make) := by
  intro l s b l' s' h
  cases h
  exact ⟨trivial, rfl⟩

namespace Additive

theorem bind {x : ExpandM α} {f : α → ExpandM β} (h : Additive P x)
    (hf : ∀ a, P a → Additive Q (f a)) : Additive Q (x >>= f) := by
  intro l s b l' s' ho
  rw [StateT.run_bind, outcome_bind] at ho
  rcases hx : outcome (x.run l) s with ⟨e | ⟨a, l₁⟩, s₁⟩
  · rw [hx] at ho
    cases ho
  · rw [hx] at ho
    obtain ⟨ha, hl⟩ := h l s a l₁ s₁ hx
    obtain ⟨hb, hl'⟩ := hf a ha l₁ s₁ b l' s' ho
    refine ⟨hb, hl'.trans ?_⟩
    rw [hl]

theorem ite {c : Prop} [Decidable c] {x y : ExpandM α} (hx : Additive P x) (hy : Additive P y) :
    Additive P (if c then x else y) := by
  split_ifs
  · exact hx
  · exact hy

end Additive

/-- Resolving a text leaves the state of the block alone. -/
theorem additive_textIn (en : Engine) (frame : Frame) (t : Text) :
    Additive (fun _ => True) (en.textIn frame t) := by
  intro l s b l' s' h
  change outcome (en.resolveText ⟨l.vars, l.registry, frame.file⟩ t >>= fun a => pure (a, l)) s = _
    at h
  rw [outcome_bind] at h
  generalize outcome (en.resolveText ⟨l.vars, l.registry, frame.file⟩ t) s = o at h
  obtain ⟨r, s₁⟩ := o
  cases r with
  | error e => cases h
  | ok a =>
    cases h
    exact ⟨trivial, rfl⟩

variable {en : Engine} {frame : Frame}

theorem additive_media (query body : Text) :
    Additive (fun _ => True) (en.media frame query body) :=
  .ite ((additive_textIn en frame query).bind fun _ _ => additive_spawn _ _) (additive_pure trivial)

theorem additive_nest {header : Text} (hself : trim header ≠ of "self") (body : Text) :
    Additive (· = .done) (en.nest frame header body) := by
  -- with the header `self` the body would be expanded in place, and could bind variables
  unfold Engine.nest
  rw [if_neg hself]
  refine .ite (additive_pure rfl) ((additive_textIn en frame header).bind fun _ _ => ?_)
  exact .ite ((additive_spawn _ _).bind fun _ _ => additive_pure rfl) (additive_pure rfl)

/-- The blocks of a stylesheet of rules do nothing to the state of the block but spawn, and end
no chain of conditions. -/
theorem RuleSheet.additive {code : Text} (h : RuleSheet code) {b : Block}
    (hb : b ∈ (locate code).1) (prev : Branch) :
    Additive (· = (Signal.done, Branch.none)) (en.block opts frame prev b) := by
  obtain ⟨hblocks, -⟩ := h.rules
  obtain ⟨body, hbody⟩ := Option.ne_none_iff_exists'.mp (h.bodies b hb)
  unfold Engine.block
  dsimp only
  by_cases hdirective : starts (expandShorthand b.header) [ch '@'] = true
  · rw [if_pos hdirective, hbody, Engine.directive_media ((hblocks b hb).directive hdirective).1]
    exact (additive_media _ _).bind fun _ _ => additive_pure rfl
  · rw [if_neg hdirective, hbody]
    dsimp only
    rw [(hblocks b hb).selector (h.bodies b hb), if_neg Bool.false_ne_true]
    refine .ite ((additive_nest (h.proper b hb) body).bind fun signal hsignal => ?_)
      (additive_pure rfl)
    rw [hsignal]
    exact additive_pure rfl

/-- What follows blocks that only spawn goes on from where they end. -/
theorem outcome_blocks_append {xs : List Block}
    (hxs : ∀ b ∈ xs, ∀ prev, Additive (· = (Signal.done, Branch.none)) (en.block opts frame prev b))
    {l l' : Locals} {s s' : Session} {signal : Signal}
    (h : outcome ((en.blocks opts frame none .none xs).run l) s = (.ok (signal, l'), s'))
    (failure : Option StructuralError) (ys : List Block) :
    outcome ((en.blocks opts frame failure .none (xs ++ ys)).run l) s =
      outcome ((en.blocks opts frame failure .none ys).run l') s' := by
  induction xs generalizing l s with
  | nil =>
    cases h
    rfl
  | cons b xs ih =>
    obtain ⟨hb, hxs⟩ := List.forall_mem_cons.mp hxs
    rw [Engine.blocks, StateT.run_bind, outcome_bind] at h
    rw [List.cons_append, Engine.blocks, StateT.run_bind, outcome_bind]
    rcases hblock : outcome ((en.block opts frame .none b).run l) s with ⟨e | ⟨r, l₁⟩, s₁⟩
    · rw [hblock] at h
      cases h
    · -- The block returns nothing and ends every chain of conditions, so the rest goes on.
      rw [hblock] at h
      obtain ⟨rfl, -⟩ := hb .none l s r l₁ s₁ hblock
      exact ih hxs h

/-- Such blocks end as a whole as each of them does. -/
theorem additive_blocks {xs : List Block}
    (hxs : ∀ b ∈ xs, ∀ prev, Additive (· = (Signal.done, Branch.none)) (en.block opts frame prev b))
    (failure : Option StructuralError) (prev : Branch) :
    Additive (fun signal => signal = .done ∧ failure = none)
      (en.blocks opts frame failure prev xs) := by
  induction xs generalizing prev with
  | nil =>
    cases failure with
    | none => exact additive_pure ⟨rfl, rfl⟩
    | some e =>
      intro l s a l' s' h
      cases h
  | cons b xs ih =>
    obtain ⟨hb, hxs⟩ := List.forall_mem_cons.mp hxs
    refine (hb prev).bind fun r hr => ?_
    rw [hr]
    exact ih hxs _

end Stylesheet
