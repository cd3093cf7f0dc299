import Stylesheet.Proofs.Compile.Counting

/-!
# Returns

A return ends the expansion of the text it stands in, of the text around that, and so on out to the
body of the function. On its way out its value is handed on by conditions, alternatives, both kinds
of loops, property blocks and `self`, all of which hand on what the text inside them ends with. It
is not handed on by a block that binds variables: that one says that there was a return, but not
what it gave. So a return is lost if and only if such a block stands somewhere between it and the
text that is expanded, however deep, and a function that returns inside one gives an empty text.

The way in is told here without regard to returns: from the text being expanded, past blocks that
run to their end, into the text of a block, and from there on in the same way, up to the return.

## Main definitions

* `Gives` — a computation begun at one moment gives a value and ends at another
* `Construct` — what the walk goes into
* `Enters` — from a block into the text it expands, for each construct
* `Reaches` — from a text to a return in it, with the constructs on the way

## Main results

* `Engine.gives_block_returned_iff` — one block
* `gives_expand_returned_iff` — a text, by induction on how deep the walk may go
* `expand_returned_iff` — when the value of a return is handed on, and what a call gives
* `binding_return_lost` — a return inside a block that binds variables
-/

namespace Stylesheet

open Text

variable {α β : Type}

/-! ### Moments of a walk -/

/-- The block under expansion and the session at one moment. -/
abbrev Moment := Locals × Session

/-- The computation, begun at one moment, gives a value and ends at another. -/
def Gives (x : ExpandM α) (m : Moment) (a : α) (m' : Moment) : Prop :=
  outcome (x.run m.1) m.2 = (.ok (a, m'.1), m'.2)

theorem gives_pure_iff {a b : α} {m m' : Moment} :
    Gives (pure a) m b m' ↔ a = b ∧ m = m' := by
  constructor
  · intro h
    injection h with hvalue hsession
    injection hvalue with hpair
    injection hpair with ha hlocals
    exact ⟨ha, Prod.ext hlocals hsession⟩
  · rintro ⟨rfl, rfl⟩
    rfl

/-- The two parts of a computation meet at a moment between. -/
theorem gives_bind_iff {x : ExpandM α} {f : α → ExpandM β} {m m' : Moment} {b : β} :
    Gives (x >>= f) m b m' ↔ ∃ a m₁, Gives x m a m₁ ∧ Gives (f a) m₁ b m' := by
  unfold Gives
  rw [StateT.run_bind, outcome_bind_eq_ok_iff]
  constructor
  · rintro ⟨⟨a, l⟩, s, hx, hf⟩
    exact ⟨a, (l, s), hx, hf⟩
  · rintro ⟨a, m₁, hx, hf⟩
    exact ⟨(a, m₁.1), m₁.2, hx, hf⟩

/-- A computation whose value is only dressed up. -/
theorem gives_bind_pure_iff {x : ExpandM α} {f : α → β} {m m' : Moment} {b : β} :
    Gives (do return f (← x)) m b m' ↔ ∃ a, Gives x m a m' ∧ f a = b := by
  rw [gives_bind_iff]
  constructor
  · rintro ⟨a, m₁, hx, hf⟩
    obtain ⟨rfl, rfl⟩ := gives_pure_iff.mp hf
    exact ⟨a, hx, rfl⟩
  · rintro ⟨a, hx, rfl⟩
    exact ⟨a, m', hx, gives_pure_iff.mpr ⟨rfl, rfl⟩⟩

/-- A computation that ends by giving something in particular gives nothing else. -/
theorem eq_of_gives_return {x : ExpandM α} {a b : β} {m m' : Moment}
    (h : Gives (do let _ ← x; return a) m b m') : a = b := by
  obtain ⟨_, _, _, hpure⟩ := gives_bind_iff.mp h
  exact (gives_pure_iff.mp hpure).1

/-! ### The way to a return -/

/-- What the walk goes into on its way. -/
inductive Construct where
  | condition
  | alternative
  | counting
  | members
  | stem
  | self
  | binding
  deriving DecidableEq

/-- What a construct hands on of what a return inside it gave. -/
def Construct.handOn : Construct → Option Value → Option Value
  | .binding, _ => none
  | _, r => r

/-- The block is a return of the value of this text. -/
structure Block.Returns (b : Block) (t : Text) : Prop where
  directive : starts (expandShorthand b.header) [ch '@'] = true
  split : splitDirective (expandShorthand b.header) = (of "@return", t)

/-- The block has a body, and its header is no directive. -/
structure Block.Plain (b : Block) (header body : Text) : Prop where
  spelled : expandShorthand b.header = header
  directive : starts header [ch '@'] = false
  body : b.body = some body

/-- The value of a return in a block. -/
def Engine.returnIn (en : Engine) (opts : Options) (frame : Frame) (t : Text) : ExpandM Value := do
  en.returnValue opts (← scopeIn frame) t

/-- The members a loop goes through; a list that cannot be evaluated is reported. -/
def Engine.listed (en : Engine) (frame : Frame) (h : EachHeader) : ExpandM (List Entry) := do
  let r ← en.evaluate (← scopeIn frame) h.list
  if !r.2 then
    report .warning frame.file (of "cannot evaluate @each list: " ++ trim h.list)
  return r.1.toEntries.2

/-- A loop comes to one of its rounds: the rounds before it run to their end, and the item of the
round is bound. -/
def TakesRound (en : Engine) (frame : Frame) (bindItem : α → ExpandM Unit) (body : Text)
    (items : List α) (m m' : Moment) : Prop :=
  ∃ before a after m₁, items = before ++ a :: after ∧
    Gives (en.repeatBody frame bindItem body before) m .done m₁ ∧ Gives (bindItem a) m₁ () m'

/-- From a block, with what came of the conditions before it, into a text it expands: the construct
it is, and the frame, text and moment where the walk goes on. -/
inductive Enters (en : Engine) (frame : Frame) (b : Block) :
    Branch → Moment → Construct → Frame → Text → Moment → Prop
  | condition {prev : Branch} {cond body : Text} {v : Value} {m m' : Moment}
      (hb : b.Heads (of "@if") cond body) (hvalue : Gives (en.valueIn frame cond) m v m')
      (htrue : v.truthy = true) : Enters en frame b prev m .condition frame body m'
  | elseIf {name cond body : Text} {v : Value} {m m' : Moment}
      (hb : b.Heads (of "@else") name body) (hcond : Engine.elseCondition? name = some cond)
      (hvalue : Gives (en.valueIn frame cond) m v m') (htrue : v.truthy = true) :
      Enters en frame b .skipped m .alternative frame body m'
  | otherwise {name body : Text} {m : Moment} (hb : b.Heads (of "@else") name body)
      (hcond : Engine.elseCondition? name = none) :
      Enters en frame b .skipped m .alternative frame body m
  | counting {prev : Branch} {header body : Text} {h : ForHeader} {first last : Value}
      {x y : Number} {m m₁ m₂ m' : Moment} (hb : b.Heads (of "@for") header body)
      (hheader : ForHeader.parse? header = some h)
      (hfirst : Gives (en.valueIn frame h.first) m first m₁)
      (hlast : Gives (en.valueIn frame h.last) m₁ last m₂)
      (hx : asNumber? first = some x) (hy : asNumber? last = some y)
      (hround : TakesRound en frame (fun i => bindVar h.var (.ofMeasure (Double.ofInt i) x.unit))
        body (countRange (Double.toWord (Double.round x.value))
          (Double.toWord (Double.round y.value)) h.through) m₂ m') :
      Enters en frame b prev m .counting frame body m'
  | members {prev : Branch} {header body : Text} {h : EachHeader} {items : List Entry}
      {m m₁ m' : Moment} (hb : b.Heads (of "@each") header body)
      (hheader : EachHeader.parse? header = some h)
      (hitems : Gives (en.listed frame h) m items m₁)
      (hround : TakesRound en frame (Engine.bindMember h) body items m₁ m') :
      Enters en frame b prev m .members frame body m'
  | stem {prev : Branch} {header body name : Text} {m m' : Moment} (hb : b.Plain header body)
      (hends : ends header [ch ':'] = true)
      (hname : Gives (en.textIn frame (withoutEnd header [ch ':'])) m name m') :
      Enters en frame b prev m .stem { frame with stem := frame.stem ++ trim name ++ [ch '-'] }
        body m'
  | self {prev : Branch} {header body : Text} {m : Moment} (hb : b.Plain header body)
      (hends : ends header [ch ':'] = false) (hstem : frame.stem = [])
      (hself : trim header = of "self") : Enters en frame b prev m .self frame body m
  | binding {prev : Branch} {keyword name body : Text} {m : Moment}
      (hkeyword : keyword = of "@variables" ∨ keyword = of "@vars")
      (hb : b.Heads keyword name body) :
      Enters en frame b prev m .binding { frame with binds := true } body m

/-- Blocks in a row that all run to their end, and what becomes of the conditions among them. -/
inductive Passes (en : Engine) (opts : Options) (frame : Frame) :
    Branch → List Block → Moment → Branch → Moment → Prop
  | nil {prev : Branch} {m : Moment} : Passes en opts frame prev [] m prev m
  | cons {prev branch last : Branch} {b : Block} {bs : List Block} {m m₁ m' : Moment}
      (hb : Gives (en.block opts frame prev b) m (.done, branch) m₁)
      (hbs : Passes en opts frame branch bs m₁ last m') :
      Passes en opts frame prev (b :: bs) m last m'

/-- From a text to a return in it: the constructs on the way, outermost first, the value of the
return, and the moment after it. The number is how deep the walk may go. -/
inductive Reaches (opts : Options) :
    Nat → Frame → Text → Moment → List Construct → Value → Moment → Prop
  | here {fuel : Nat} {frame : Frame} {code t : Text} {before after : List Block} {b : Block}
      {branch : Branch} {v : Value} {m m₁ m' : Moment}
      (hcode : (locate code).1 = before ++ b :: after)
      (hbefore : Passes (engine opts fuel) opts frame .none before m branch m₁)
      (hb : b.Returns t)
      (hvalue : Gives ((engine opts fuel).returnIn opts frame t) m₁ v m') :
      Reaches opts (fuel + 1) frame code m [] v m'
  | there {fuel : Nat} {frame inner : Frame} {code body : Text} {before after : List Block}
      {b : Block} {branch : Branch} {c : Construct} {way : List Construct} {v : Value}
      {m m₁ m₂ m' : Moment}
      (hcode : (locate code).1 = before ++ b :: after)
      (hbefore : Passes (engine opts fuel) opts frame .none before m branch m₁)
      (hb : Enters (engine opts fuel) frame b branch m₁ c inner body m₂)
      (hreaches : Reaches opts fuel inner body m₂ way v m') :
      Reaches opts (fuel + 1) frame code m (c :: way) v m'

/-! ### What each construct hands on -/

namespace Engine

variable {en : Engine} {opts : Options} {frame : Frame} {prev branch : Branch} {b : Block}
  {header body : Text} {m m' : Moment} {r : Option Value}

theorem gives_doIf_returned_iff {cond : Text} :
    Gives (en.doIf frame cond body) m (.returned r, branch) m' ↔
      branch = .taken ∧ ∃ v m₁, Gives (en.valueIn frame cond) m v m₁ ∧ v.truthy = true ∧
        Gives (en.expand frame body) m₁ (.returned r) m' := by
  rw [doIf, gives_bind_iff]
  constructor
  · rintro ⟨v, m₁, hvalue, hrest⟩
    split at hrest
    · rename_i htrue
      obtain ⟨_, hexpand, ⟨⟩⟩ := gives_bind_pure_iff.mp hrest
      exact ⟨rfl, v, m₁, hvalue, htrue, hexpand⟩
    · cases (gives_pure_iff.mp hrest).1
  · rintro ⟨rfl, v, m₁, hvalue, htrue, hexpand⟩
    refine ⟨v, m₁, hvalue, ?_⟩
    rw [if_pos htrue]
    exact gives_bind_pure_iff.mpr ⟨_, hexpand, rfl⟩

/-- A loop returns what the first round to return gives. -/
theorem gives_repeatBody_returned_iff {bindItem : α → ExpandM Unit} {items : List α} :
    Gives (en.repeatBody frame bindItem body items) m (.returned r) m' ↔
      ∃ m₁, TakesRound en frame bindItem body items m m₁ ∧
        Gives (en.expand frame body) m₁ (.returned r) m' := by
  induction items generalizing m with
  | nil =>
    constructor
    · intro h
      cases (gives_pure_iff.mp h).1
    · rintro ⟨_, ⟨before, _, _, _, hitems, _⟩, _⟩
      cases before <;> cases hitems
  | cons a items ih =>
    rw [repeatBody, gives_bind_iff]
    constructor
    · -- The first round returns, or it is one of the rounds before the one that does.
      rintro ⟨⟨⟩, m₁, hbind, hrest⟩
      obtain ⟨signal, m₂, hexpand, hrest⟩ := gives_bind_iff.mp hrest
      cases signal with
      | returned v =>
        obtain ⟨⟨⟩, rfl⟩ := gives_pure_iff.mp hrest
        exact ⟨m₁, ⟨[], a, items, m, rfl, gives_pure_iff.mpr ⟨rfl, rfl⟩, hbind⟩, hexpand⟩
      | done =>
        obtain ⟨m₃, ⟨before, a', after, m₄, rfl, hbefore, hbind'⟩, hreturned⟩ := ih.mp hrest
        refine ⟨m₃, ⟨a :: before, a', after, m₄, rfl, ?_, hbind'⟩, hreturned⟩
        exact gives_bind_iff.mpr ⟨(), m₁, hbind, gives_bind_iff.mpr ⟨.done, m₂, hexpand, hbefore⟩⟩
    · rintro ⟨m₃, ⟨before, a', after, m₄, hitems, hbefore, hbind'⟩, hreturned⟩
      cases before with
      | nil =>
        obtain ⟨rfl, rfl⟩ := List.cons.inj hitems
        obtain ⟨-, rfl⟩ := gives_pure_iff.mp hbefore
        refine ⟨(), m₃, hbind', gives_bind_iff.mpr ⟨_, m', hreturned, ?_⟩⟩
        exact gives_pure_iff.mpr ⟨rfl, rfl⟩
      | cons a₁ before =>
        obtain ⟨rfl, rfl⟩ := List.cons.inj hitems
        obtain ⟨⟨⟩, m₁, hbind, hrest⟩ := gives_bind_iff.mp hbefore
        obtain ⟨signal, m₂, hexpand, hrest⟩ := gives_bind_iff.mp hrest
        cases signal with
        | returned v => cases (gives_pure_iff.mp hrest).1
        | done =>
          refine ⟨(), m₁, hbind, gives_bind_iff.mpr ⟨.done, m₂, hexpand, ?_⟩⟩
          exact ih.mpr ⟨m₃, ⟨before, a', after, m₄, rfl, hrest, hbind'⟩, hreturned⟩

/-- A block that binds variables says that there was a return and nothing more. -/
theorem gives_bindBlock_returned_iff :
    Gives (en.bindBlock frame body) m (.returned r) m' ↔
      r = none ∧ ∃ r', Gives (en.expand { frame with binds := true } body) m (.returned r') m' := by
  rw [bindBlock, gives_bind_iff]
  constructor
  · rintro ⟨signal, m₁, hexpand, hrest⟩
    cases signal with
    | returned r' =>
      obtain ⟨⟨⟩, rfl⟩ := gives_pure_iff.mp hrest
      exact ⟨rfl, r', hexpand⟩
    | done => cases (gives_pure_iff.mp hrest).1
  · rintro ⟨rfl, r', hexpand⟩
    exact ⟨.returned r', m', hexpand, gives_pure_iff.mpr ⟨rfl, rfl⟩⟩

theorem gives_doFor_returned_iff :
    Gives (en.doFor frame header body) m (.returned r) m' ↔
      ∃ h first last x y m₁ m₂ m₃, ForHeader.parse? header = some h ∧
        Gives (en.valueIn frame h.first) m first m₁ ∧
        Gives (en.valueIn frame h.last) m₁ last m₂ ∧
        asNumber? first = some x ∧ asNumber? last = some y ∧
        TakesRound en frame (fun i => bindVar h.var (.ofMeasure (Double.ofInt i) x.unit)) body
          (countRange (Double.toWord (Double.round x.value)) (Double.toWord (Double.round y.value))
            h.through) m₂ m₃ ∧
        Gives (en.expand frame body) m₃ (.returned r) m' := by
  unfold doFor
  constructor
  · intro hreturned
    split at hreturned
    · cases eq_of_gives_return hreturned
    · rename_i h hheader
      obtain ⟨first, m₁, hfirst, hrest⟩ := gives_bind_iff.mp hreturned
      obtain ⟨last, m₂, hlast, hrest⟩ := gives_bind_iff.mp hrest
      split at hrest
      · rename_i x y hx hy
        obtain ⟨m₃, hround, hexpand⟩ := gives_repeatBody_returned_iff.mp hrest
        exact ⟨h, first, last, x, y, m₁, m₂, m₃, hheader, hfirst, hlast, hx, hy, hround, hexpand⟩
      · cases eq_of_gives_return hrest
  · rintro ⟨h, first, last, x, y, m₁, m₂, m₃, hheader, hfirst, hlast, hx, hy, hround, hexpand⟩
    rw [hheader]
    refine gives_bind_iff.mpr ⟨first, m₁, hfirst, gives_bind_iff.mpr ⟨last, m₂, hlast, ?_⟩⟩
    rw [hx, hy]
    exact gives_repeatBody_returned_iff.mpr ⟨m₃, hround, hexpand⟩

theorem doEach_of_parse? {h : EachHeader} (hheader : EachHeader.parse? header = some h) :
    en.doEach frame header body = (do
      let items ← en.listed frame h
      en.repeatBody frame (bindMember h) body items) := by
  unfold doEach listed
  rw [hheader]
  simp only [bind_assoc]
  refine bind_congr fun scope => bind_congr fun r => ?_
  split
  · simp only [bind_assoc, pure_bind]
  · simp only [pure_bind]

theorem gives_doEach_returned_iff :
    Gives (en.doEach frame header body) m (.returned r) m' ↔
      ∃ h items m₁ m₂, EachHeader.parse? header = some h ∧ Gives (en.listed frame h) m items m₁ ∧
        TakesRound en frame (bindMember h) body items m₁ m₂ ∧
        Gives (en.expand frame body) m₂ (.returned r) m' := by
  constructor
  · intro hreturned
    cases hheader : EachHeader.parse? header with
    | none =>
      rw [doEach, hheader] at hreturned
      cases eq_of_gives_return hreturned
    | some h =>
      rw [doEach_of_parse? hheader] at hreturned
      obtain ⟨items, m₁, hitems, hrest⟩ := gives_bind_iff.mp hreturned
      obtain ⟨m₂, hround, hexpand⟩ := gives_repeatBody_returned_iff.mp hrest
      exact ⟨h, items, m₁, m₂, rfl, hitems, hround, hexpand⟩
  · rintro ⟨h, items, m₁, m₂, hheader, hitems, hround, hexpand⟩
    rw [doEach_of_parse? hheader]
    refine gives_bind_iff.mpr ⟨items, m₁, hitems, ?_⟩
    exact gives_repeatBody_returned_iff.mpr ⟨m₂, hround, hexpand⟩

/-! ### Blocks that return -/

theorem ite_eq_some_cases {P : Prop} [Decidable P] {x y : Option α} {a : α}
    (h : (if P then x else y) = some a) : x = some a ∨ y = some a := by
  split at h
  · exact .inl h
  · exact .inr h

/-- Of the directives that take no account of a body only one returns. -/
theorem eq_return_of_lineDirective? {keyword t : Text} {x : ExpandM Signal}
    (hx : en.lineDirective? opts frame keyword t = some x) (h : Gives x m (.returned r) m') :
    keyword = of "@return" := by
  -- All others are a computation without a value, and then the walk goes on.
  have hdone {y : ExpandM Unit} (hy : some (do y; return Signal.done) = some x) : False := by
    obtain rfl := Option.some.inj hy
    cases eq_of_gives_return h
  by_contra hne
  unfold lineDirective? at hx
  dsimp only at hx
  repeat
    rcases ite_eq_some_cases hx with hrun | hx
    · exact hdone hrun
  rw [if_neg hne] at hx
  cases hx

theorem block_of_returns {t : Text} (hb : b.Returns t) :
    en.block opts frame prev b = (do
      return (.returned (some (← en.returnIn opts frame t)), .none)) := by
  have hline : en.lineDirective? opts frame (of "@return") t =
      some (do return .returned (some (← en.returnIn opts frame t))) := by
    simp only [returnIn, bind_assoc]
    rfl
  rw [block, if_pos hb.directive, directive, hb.split]
  dsimp only
  rw [hline]
  simp only [bind_assoc, pure_bind]

/-- The block expands a text that returns, and this is what it hands on of it. -/
def HandsOn (en : Engine) (frame : Frame) (b : Block) (prev : Branch) (m : Moment)
    (r : Option Value) (m' : Moment) : Prop :=
  ∃ c inner text m₁ r', Enters en frame b prev m c inner text m₁ ∧
    Gives (en.expand inner text) m₁ (.returned r') m' ∧ r = c.handOn r'

theorem handsOn_of_doElse {name : Text} (hb : b.Heads (of "@else") name body)
    (h : Gives (en.doElse frame prev name body) m (.returned r, branch) m') :
    HandsOn en frame b prev m r m' := by
  unfold doElse at h
  cases prev with
  | none => cases eq_of_gives_return h
  | taken => cases (gives_pure_iff.mp h).1
  | skipped =>
    dsimp only at h
    cases hcond : elseCondition? name with
    | some cond =>
      rw [hcond] at h
      obtain ⟨-, v, m₁, hvalue, htrue, hexpand⟩ := gives_doIf_returned_iff.mp h
      exact ⟨.alternative, frame, body, m₁, r, .elseIf hb hcond hvalue htrue, hexpand, rfl⟩
    | none =>
      rw [hcond] at h
      obtain ⟨_, hexpand, ⟨⟩⟩ := gives_bind_pure_iff.mp h
      exact ⟨.alternative, frame, body, m, r, .otherwise hb hcond, hexpand, rfl⟩

theorem handsOn_of_blockDirective {keyword name : Text} (hb : b.Heads keyword name body)
    (h : Gives (en.blockDirective frame prev keyword name header body) m (.returned r, branch) m') :
    HandsOn en frame b prev m r m' := by
  unfold blockDirective at h
  -- the directives in the order in which the walk asks for them
  by_cases hif : keyword = of "@if"
  · rw [if_pos hif] at h
    subst hif
    obtain ⟨-, v, m₁, hvalue, htrue, hexpand⟩ := gives_doIf_returned_iff.mp h
    exact ⟨.condition, frame, body, m₁, r, .condition hb hvalue htrue, hexpand, rfl⟩
  rw [if_neg hif] at h
  by_cases helse : keyword = of "@else"
  · rw [if_pos helse] at h
    subst helse
    exact handsOn_of_doElse hb h
  rw [if_neg helse] at h
  by_cases hfor : keyword = of "@for"
  · rw [if_pos hfor] at h
    subst hfor
    obtain ⟨_, hloop, ⟨⟩⟩ := gives_bind_pure_iff.mp h
    obtain ⟨_, _, _, _, _, _, _, m₃, hheader, hfirst, hlast, hx, hy, hround, hexpand⟩ :=
      gives_doFor_returned_iff.mp hloop
    exact ⟨.counting, frame, body, m₃, r, .counting hb hheader hfirst hlast hx hy hround, hexpand,
      rfl⟩
  rw [if_neg hfor] at h
  by_cases heach : keyword = of "@each"
  · rw [if_pos heach] at h
    subst heach
    obtain ⟨_, hloop, ⟨⟩⟩ := gives_bind_pure_iff.mp h
    obtain ⟨_, _, _, m₂, hheader, hitems, hround, hexpand⟩ := gives_doEach_returned_iff.mp hloop
    exact ⟨.members, frame, body, m₂, r, .members hb hheader hitems hround, hexpand, rfl⟩
  rw [if_neg heach] at h
  by_cases hbinds : (keyword = of "@variables" || keyword = of "@vars") = true
  · rw [if_pos hbinds] at h
    obtain ⟨_, hbinding, ⟨⟩⟩ := gives_bind_pure_iff.mp h
    obtain ⟨rfl, r', hexpand⟩ := gives_bindBlock_returned_iff.mp hbinding
    exact ⟨.binding, _, body, m, r', .binding (by simpa using hbinds) hb, hexpand, rfl⟩
  · -- The other directives spawn, define or copy, and the walk goes on behind them.
    rw [if_neg hbinds] at h
    repeat' split at h
    all_goals cases eq_of_gives_return h

/-- A block that is no directive: its header names a stem or a rule, or it is passed by. -/
theorem block_plain (hb : b.Plain header body) :
    en.block opts frame prev b =
      if ends header [ch ':'] then do
        return (← en.namespaceBlock frame (withoutEnd header [ch ':']) body, .none)
      else if frame.stem.isEmpty then do return (← en.nest frame header body, .none)
      else return (.done, .none) := by
  unfold block
  dsimp only
  rw [hb.spelled, if_neg (by simp [hb.directive]), hb.body]

theorem handsOn_of_plain (hb : b.Plain header body)
    (h : Gives (en.block opts frame prev b) m (.returned r, branch) m') :
    HandsOn en frame b prev m r m' := by
  rw [block_plain hb] at h
  split at h
  · rename_i hends
    obtain ⟨_, hstem, ⟨⟩⟩ := gives_bind_pure_iff.mp h
    obtain ⟨name, m₁, hname, hexpand⟩ := gives_bind_iff.mp hstem
    exact ⟨.stem, _, body, m₁, r, .stem hb hends hname, hexpand, rfl⟩
  · rename_i hends
    split at h
    · rename_i hstem
      obtain ⟨_, hnest, ⟨⟩⟩ := gives_bind_pure_iff.mp h
      unfold nest at hnest
      split at hnest
      · rename_i hself
        refine ⟨.self, frame, body, m, r, .self hb ?_ ?_ hself, hnest, rfl⟩
        · simpa using hends
        · simpa using hstem
      · -- A rule that is spawned is expanded later, not on the way.
        split at hnest
        · cases (gives_pure_iff.mp hnest).1
        · obtain ⟨_, _, -, hrest⟩ := gives_bind_iff.mp hnest
          dsimp only at hrest
          split at hrest
          · cases eq_of_gives_return hrest
          · cases (gives_pure_iff.mp hrest).1
    · cases (gives_pure_iff.mp h).1

/-- A block ends with a return if it is one, or hands on one inside it. -/
theorem returned_cases (h : Gives (en.block opts frame prev b) m (.returned r, branch) m') :
    (∃ t v, b.Returns t ∧ Gives (en.returnIn opts frame t) m v m' ∧ r = some v) ∨
      HandsOn en frame b prev m r m' := by
  by_cases hdirective : starts (expandShorthand b.header) [ch '@'] = true
  · rcases hsplit : splitDirective (expandShorthand b.header) with ⟨keyword, name⟩
    have hblock := h
    rw [block, if_pos hdirective, directive, hsplit] at h
    dsimp only at h
    cases hline : en.lineDirective? opts frame keyword name with
    | some x =>
      rw [hline] at h
      obtain ⟨_, hx, ⟨⟩⟩ := gives_bind_pure_iff.mp h
      -- of the directives without a body only `@return` returns
      obtain rfl := eq_return_of_lineDirective? hline hx
      have hb : b.Returns name := ⟨hdirective, hsplit⟩
      rw [block_of_returns hb] at hblock
      obtain ⟨v, hvalue, ⟨⟩⟩ := gives_bind_pure_iff.mp hblock
      exact .inl ⟨name, v, hb, hvalue, rfl⟩
    | none =>
      rw [hline] at h
      cases hbody : b.body with
      | none =>
        rw [hbody] at h
        cases eq_of_gives_return h
      | some body =>
        rw [hbody] at h
        exact .inr (handsOn_of_blockDirective ⟨hdirective, hsplit, hbody⟩ h)
  · cases hbody : b.body with
    | none =>
      rw [block, if_neg hdirective, hbody] at h
      cases eq_of_gives_return h
    | some body =>
      have hb : b.Plain (expandShorthand b.header) body :=
        ⟨rfl, Bool.eq_false_iff.mpr hdirective, hbody⟩
      exact .inr (handsOn_of_plain hb h)

/-- What the walk finds in the text that a block expands, the block hands on. -/
theorem gives_block_of_enters {c : Construct} {inner : Frame} {text : Text} {m₁ : Moment}
    (hb : Enters en frame b prev m c inner text m₁)
    (h : Gives (en.expand inner text) m₁ (.returned r) m') :
    ∃ branch, Gives (en.block opts frame prev b) m (.returned (c.handOn r), branch) m' := by
  -- each way into a text is the equation of its construct, read backwards
  cases hb with
  | condition hb hvalue htrue =>
    refine ⟨.taken, ?_⟩
    rw [block_if hb]
    exact gives_doIf_returned_iff.mpr ⟨rfl, _, _, hvalue, htrue, h⟩
  | elseIf hb hcond hvalue htrue =>
    refine ⟨.taken, ?_⟩
    rw [block_else hb, doElse, hcond]
    exact gives_doIf_returned_iff.mpr ⟨rfl, _, _, hvalue, htrue, h⟩
  | otherwise hb hcond =>
    refine ⟨.none, ?_⟩
    rw [block_else hb, doElse, hcond]
    exact gives_bind_pure_iff.mpr ⟨_, h, rfl⟩
  | counting hb hheader hfirst hlast hx hy hround =>
    refine ⟨.none, ?_⟩
    rw [block_for hb]
    refine gives_bind_pure_iff.mpr ⟨_, gives_doFor_returned_iff.mpr ?_, rfl⟩
    exact ⟨_, _, _, _, _, _, _, _, hheader, hfirst, hlast, hx, hy, hround, h⟩
  | members hb hheader hitems hround =>
    refine ⟨.none, ?_⟩
    rw [block_of_heads hb rfl]
    refine gives_bind_pure_iff.mpr ⟨_, gives_doEach_returned_iff.mpr ?_, rfl⟩
    exact ⟨_, _, _, _, hheader, hitems, hround, h⟩
  | stem hb hends hname =>
    refine ⟨.none, ?_⟩
    rw [block_plain hb, if_pos hends]
    exact gives_bind_pure_iff.mpr ⟨_, gives_bind_iff.mpr ⟨_, _, hname, h⟩, rfl⟩
  | self hb hends hstem hself =>
    refine ⟨.none, ?_⟩
    rw [block_plain hb, if_neg (by simp [hends]), if_pos (by simp [hstem]), nest, if_pos hself]
    exact gives_bind_pure_iff.mpr ⟨_, h, rfl⟩
  | binding hkeyword hb =>
    refine ⟨.none, ?_⟩
    obtain rfl | rfl := hkeyword
    all_goals
      rw [block_of_heads hb rfl]
      exact gives_bind_pure_iff.mpr ⟨_, gives_bindBlock_returned_iff.mpr ⟨rfl, _, h⟩, rfl⟩

/-- A block ends with a return if and only if it is one, or hands on one inside it. -/
theorem gives_block_returned_iff :
    (∃ branch, Gives (en.block opts frame prev b) m (.returned r, branch) m') ↔
      (∃ t v, b.Returns t ∧ Gives (en.returnIn opts frame t) m v m' ∧ r = some v) ∨
        HandsOn en frame b prev m r m' := by
  constructor
  · rintro ⟨branch, h⟩
    exact returned_cases h
  · rintro (⟨t, v, hb, hvalue, rfl⟩ | ⟨c, inner, text, m₁, r', henters, hexpand, rfl⟩)
    · refine ⟨.none, ?_⟩
      rw [block_of_returns hb]
      exact gives_bind_pure_iff.mpr ⟨v, hvalue, rfl⟩
    · exact gives_block_of_enters henters hexpand

/-- Blocks end with a return if the first that does not run to its end does. -/
theorem gives_blocks_returned_iff {failure : Option StructuralError} {bs : List Block} :
    Gives (en.blocks opts frame failure prev bs) m (.returned r) m' ↔
      ∃ before b after branch m₁, bs = before ++ b :: after ∧
        Passes en opts frame prev before m branch m₁ ∧
        ∃ last, Gives (en.block opts frame branch b) m₁ (.returned r, last) m' := by
  induction bs generalizing prev m with
  | nil =>
    constructor
    · intro h
      cases failure with
      | none => cases (gives_pure_iff.mp h).1
      | some e => cases congrArg Prod.fst h
    · rintro ⟨before, _, _, _, _, hbs, _⟩
      cases before <;> cases hbs
  | cons b bs ih =>
    -- What became of the conditions so far goes from block to block, so `prev` is general.
    rw [blocks_cons, gives_bind_iff]
    constructor
    · rintro ⟨⟨signal, branch⟩, m₁, hb, hrest⟩
      cases signal with
      | returned v =>
        obtain ⟨⟨⟩, rfl⟩ := gives_pure_iff.mp hrest
        exact ⟨[], b, bs, prev, m, rfl, .nil, branch, hb⟩
      | done =>
        obtain ⟨before, b', after, branch', m₂, rfl, hbefore, hreturned⟩ := ih.mp hrest
        exact ⟨b :: before, b', after, branch', m₂, rfl, .cons hb hbefore, hreturned⟩
    · rintro ⟨before, b', after, branch', m₂, hbs, hbefore, last, hreturned⟩
      cases hbefore with
      | nil =>
        obtain ⟨rfl, rfl⟩ := List.cons.inj hbs
        exact ⟨_, m', hreturned, gives_pure_iff.mpr ⟨rfl, rfl⟩⟩
      | cons hb hbefore =>
        obtain ⟨rfl, rfl⟩ := List.cons.inj hbs
        refine ⟨_, _, hb, ih.mpr ?_⟩
        exact ⟨_, b', after, branch', m₂, rfl, hbefore, last, hreturned⟩

end Engine

/-! ### Texts that return -/

/-- What reaches the text being expanded of a return that lies this way. -/
theorem handOn_eq (c : Construct) (way : List Construct) (v : Value) :
    c.handOn (if .binding ∈ way then none else some v) =
      if .binding ∈ c :: way then none else some v := by
  cases c <;> simp [Construct.handOn]

/-- A text ends with a return if and only if there is a way to one, and what it gives is the value
of the return unless the way goes through a block that binds variables. -/
theorem gives_expand_returned_iff (opts : Options) (fuel : Nat) (frame : Frame) (code : Text)
    (m : Moment) (r : Option Value) (m' : Moment) :
    Gives ((engine opts fuel).expand frame code) m (.returned r) m' ↔
      ∃ way v, Reaches opts fuel frame code m way v m' ∧
        r = if .binding ∈ way then none else some v := by
  -- Each construct on the way takes one level: the induction hypothesis is about the text in it,
  -- with the frame and the moment in which it is expanded.
  induction fuel generalizing frame code m r with
  | zero =>
    constructor
    · intro h
      cases congrArg Prod.fst h
    · rintro ⟨_, _, ⟨⟩, _⟩
  | succ fuel ih =>
    change Gives ((engine opts fuel).blocks opts frame (locate code).2 .none (locate code).1) m
      (.returned r) m' ↔ _
    rw [Engine.gives_blocks_returned_iff]
    constructor
    · rintro ⟨before, b, after, branch, m₁, hcode, hbefore, hreturned⟩
      obtain ⟨t, v, hb, hvalue, rfl⟩ | ⟨c, inner, text, m₂, r', henters, hexpand, rfl⟩ :=
        Engine.gives_block_returned_iff.mp hreturned
      · exact ⟨[], v, .here hcode hbefore hb hvalue, rfl⟩
      · obtain ⟨way, v, hreaches, rfl⟩ := (ih inner text m₂ r').mp hexpand
        exact ⟨c :: way, v, .there hcode hbefore henters hreaches, handOn_eq c way v⟩
    · rintro ⟨way, v, hreaches, rfl⟩
      cases way with
      | nil =>
        cases hreaches with
        | here hcode hbefore hb hvalue =>
          refine ⟨_, _, _, _, _, hcode, hbefore, Engine.gives_block_returned_iff.mpr (.inl ?_)⟩
          exact ⟨_, v, hb, hvalue, rfl⟩
      | cons c way =>
        cases hreaches with
        | there hcode hbefore hb hreaches =>
          refine ⟨_, _, _, _, _, hcode, hbefore, Engine.gives_block_returned_iff.mpr (.inr ?_)⟩
          have hexpand := (ih _ _ _ _).mpr ⟨way, v, hreaches, rfl⟩
          exact ⟨c, _, _, _, _, hb, hexpand, (handOn_eq c way v).symm⟩

/-- The arguments of a call that have no name. -/
def byPosition (args : List Entry) : List Value := (args.filter fun a => a.1.isEmpty).map (·.2)

/-- The arguments of a call that have one. -/
def byName (args : List Entry) : Context :=
  (args.filter fun a => !a.1.isEmpty).map fun a => (sigil a.1, a.2)

/-- A call gives what its body gives, an empty text where that is nothing. -/
theorem outcome_callFunction_of_returned {en : Engine} {fn : Callable} {args : List Entry}
    {scope : Scope} {s s₁ : Session} {bound : Context} {r : Option Value} {m' : Moment}
    (hdepth : s.depth < maxCallDepth)
    (hbound : outcome (en.bindArgs fn (byPosition args) (byName args) scope.registry)
      { s with depth := s.depth + 1 } = (.ok bound, s₁))
    (hbody : Gives (en.expand { spawns := false, file := scope.file, dir := fn.dir } fn.body)
      ({ vars := fn.context.merge bound, registry := scope.registry }, s₁) (.returned r) m') :
    outcome (en.callFunction fn args scope) s =
      (.ok (.ok (r.getD (.plain []))), { m'.2 with depth := m'.2.depth - 1 }) := by
  have hresult : outcome (en.functionResult fn args scope) { s with depth := s.depth + 1 } =
      (.ok (r.getD (.plain [])), m'.2) := by
    unfold byPosition byName at hbound
    rw [Engine.functionResult, outcome_bind, hbound]
    dsimp only
    rw [outcome_bind, hbody]
    cases r <;> rfl
  rw [outcome_callFunction, if_neg (not_le_of_gt hdepth), hresult]

/-- The expansion of a text ends with a return if and only if there is a way to a return in it, and
then what it gives is the value of that return, unless the way goes through a block that binds
variables. So does a call of a function whose body has a way to a return; where the value is lost
it gives an empty text. -/
theorem expand_returned_iff (opts : Options) (fuel : Nat) :
    (∀ (frame : Frame) (code : Text) (m : Moment) (r : Option Value) (m' : Moment),
      Gives ((engine opts fuel).expand frame code) m (.returned r) m' ↔
        ∃ way v, Reaches opts fuel frame code m way v m' ∧
          r = if .binding ∈ way then none else some v) ∧
    ∀ (fn : Callable) (args : List Entry) (scope : Scope) (s s₁ : Session) (bound : Context)
      (way : List Construct) (v : Value) (m' : Moment), s.depth < maxCallDepth →
      outcome ((engine opts fuel).bindArgs fn (byPosition args) (byName args) scope.registry)
        { s with depth := s.depth + 1 } = (.ok bound, s₁) →
      Reaches opts fuel { spawns := false, file := scope.file, dir := fn.dir } fn.body
        ({ vars := fn.context.merge bound, registry := scope.registry }, s₁) way v m' →
      outcome ((engine opts fuel).callFunction fn args scope) s =
        (.ok (.ok (if .binding ∈ way then .plain [] else v)),
          { m'.2 with depth := m'.2.depth - 1 }) := by
  refine ⟨gives_expand_returned_iff opts fuel, ?_⟩
  intro fn args scope s s₁ bound way v m' hdepth hbound hreaches
  have hbody := (gives_expand_returned_iff opts fuel _ _ _ _ _).mpr ⟨way, v, hreaches, rfl⟩
  rw [outcome_callFunction_of_returned hdepth hbound hbody]
  split <;> rfl

/-- A function that returns from within a property block, a condition and a loop. -/
def pickFunction : Callable where
  name := of "pick"
  params := [of "$n"]
  body := of "@for $i from 1 to $n \x7b @if $i == 2 \x7b font: \x7b @return $i; \x7d \x7d \x7d"
  isFunction := true

/-- In the second round of the loop. -/
theorem pickFunction_returns :
    let args : List Entry := [([], .ofMeasure 3 [])]
    let bound : Context := [(of "$n", .ofMeasure 3 [])]
    let l : Locals := { vars := [(of "$i", .ofMeasure 2 []), (of "$n", .ofMeasure 3 [])] }
    outcome ((engine {} 5).bindArgs pickFunction [.ofMeasure 3 []] [] {}) { depth := 1 } =
      (.ok bound, { depth := 1 }) ∧
    Reaches {} 5 { spawns := false } pickFunction.body ({ vars := bound }, { depth := 1 })
      [.counting, .condition, .stem] (.ofMeasure 2 []) (l, { depth := 1 }) ∧
    outcome ((engine {} 5).callFunction pickFunction args ⟨[], {}, []⟩) {} =
      (.ok (.ok (.ofMeasure 2 [])), {}) := by
  intro args bound l
  let loop : Block :=
    ⟨of "@for $i from 1 to $n", some (of "@if $i == 2 \x7b font: \x7b @return $i; \x7d \x7d"), 0⟩
  let condition : Block := ⟨of "@if $i == 2", some (of "font: \x7b @return $i; \x7d"), 0⟩
  let fonts : Block := ⟨of "font:", some (of "@return $i;"), 0⟩
  let back : Block := ⟨of "@return $i", none, 0⟩
  have hbound : outcome ((engine {} 5).bindArgs pickFunction [.ofMeasure 3 []] [] {})
      { depth := 1 } = (.ok bound, { depth := 1 }) := rfl
  have hloop : (locate pickFunction.body).1 = [] ++ loop :: [] := by decide
  have hcondition : (locate (of "@if $i == 2 \x7b font: \x7b @return $i; \x7d \x7d")).1 =
      [] ++ condition :: [] := by decide
  have hfonts : (locate (of "font: \x7b @return $i; \x7d")).1 = [] ++ fonts :: [] := by decide
  have hback : (locate (of "@return $i;")).1 = [] ++ back :: [] := by decide
  have hround : TakesRound (engine {} 4) { spawns := false }
      (fun i => bindVar (of "$i") (.ofMeasure (Double.ofInt i) []))
      (of "@if $i == 2 \x7b font: \x7b @return $i; \x7d \x7d")
      (countRange (Double.toWord (Double.round 1)) (Double.toWord (Double.round 3)) false)
      ({ vars := bound }, { depth := 1 }) (l, { depth := 1 }) := by
    refine ⟨[1], 2, [], ({ vars := (of "$i", .ofMeasure 1 []) :: bound }, { depth := 1 }), ?_⟩
    exact ⟨by decide, rfl, rfl⟩
  have hreaches : Reaches {} 5 { spawns := false } pickFunction.body
      ({ vars := bound }, { depth := 1 }) [.counting, .condition, .stem] (.ofMeasure 2 [])
      (l, { depth := 1 }) := by
    have hfor : loop.Heads (of "@for") (of "$i from 1 to $n")
        (of "@if $i == 2 \x7b font: \x7b @return $i; \x7d \x7d") := ⟨by decide, by decide, rfl⟩
    have hheader : ForHeader.parse? (of "$i from 1 to $n") =
        some ⟨of "$i", of "1", of "$n", false⟩ := by decide
    have hif : condition.Heads (of "@if") (of "$i == 2") (of "font: \x7b @return $i; \x7d") :=
      ⟨by decide, by decide, rfl⟩
    refine .there hloop .nil (.counting hfor hheader rfl rfl rfl rfl hround) ?_
    refine .there hcondition .nil (.condition hif rfl rfl) ?_
    have hstem : fonts.Plain (of "font:") (of "@return $i;") := ⟨rfl, by decide, rfl⟩
    have hname : Gives ((engine {} 2).textIn { spawns := false } (of "font"))
        (l, { depth := 1 }) (of "font") (l, { depth := 1 }) := rfl
    have hreturn : back.Returns (of "$i") := ⟨by decide, by decide⟩
    refine .there hfonts .nil (.stem hstem (by decide) hname) ?_
    exact .here hback .nil hreturn rfl
  refine ⟨hbound, hreaches, ?_⟩
  exact (expand_returned_iff {} 5).2 pickFunction args ⟨[], {}, []⟩ {} { depth := 1 } bound
    [.counting, .condition, .stem] (.ofMeasure 2 []) (l, { depth := 1 }) (by decide) hbound hreaches

/-- A function that returns where variables are bound. -/
def bindingFunction : Callable where
  name := of "f"
  body := of "@variables \x7b @return 1px; \x7d"
  isFunction := true

/-- The walk comes to a return of `1px`, and is told of a return that gave nothing. -/
theorem binding_return_lost :
    let frame : Frame := { spawns := false }
    Reaches {} 2 frame bindingFunction.body ({}, { depth := 1 }) [.binding] (.ofMeasure 1 (of "px"))
      ({}, { depth := 1 }) ∧
    Gives ((engine {} 2).expand frame bindingFunction.body) ({}, { depth := 1 }) (.returned none)
      ({}, { depth := 1 }) ∧
    outcome ((engine {} 2).callFunction bindingFunction [] ⟨[], {}, []⟩) {} =
      (.ok (.ok (.plain [])), {}) := by
  intro frame
  let binding : Block := ⟨of "@variables", some (of "@return 1px;"), 0⟩
  let back : Block := ⟨of "@return 1px", none, 0⟩
  have hcode : (locate bindingFunction.body).1 = [] ++ binding :: [] := by decide
  have hbody : (locate (of "@return 1px;")).1 = [] ++ back :: [] := by decide
  have hbinding : binding.Heads (of "@variables") [] (of "@return 1px;") :=
    ⟨by decide, by decide, rfl⟩
  have hback : back.Returns (of "1px") := ⟨by decide, by decide⟩
  have hvalue : Gives ((engine {} 0).returnIn {} { frame with binds := true } (of "1px"))
      ({}, { depth := 1 }) (.ofMeasure 1 (of "px")) ({}, { depth := 1 }) := rfl
  have hreaches : Reaches {} 2 frame bindingFunction.body ({}, { depth := 1 }) [.binding]
      (.ofMeasure 1 (of "px")) ({}, { depth := 1 }) :=
    .there hcode .nil (.binding (.inl rfl) hbinding) (.here hbody .nil hback hvalue)
  have hexpand := (gives_expand_returned_iff {} 2 frame bindingFunction.body ({}, { depth := 1 })
    none ({}, { depth := 1 })).mpr ⟨_, _, hreaches, rfl⟩
  have hcall : outcome ((engine {} 2).callFunction bindingFunction [] ⟨[], {}, []⟩) {} =
      (.ok (.ok (.plain [])), {}) :=
    @outcome_callFunction_of_returned (engine {} 2) bindingFunction [] ⟨[], {}, []⟩ {}
      { depth := 1 } [] none ({}, { depth := 1 }) (by decide) rfl hexpand
  exact ⟨hreaches, hexpand, hcall⟩

end Stylesheet
