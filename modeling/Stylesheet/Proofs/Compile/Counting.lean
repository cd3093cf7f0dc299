import Mathlib.Data.Int.Range
import Stylesheet.Proofs.Compile.Conditions
import Stylesheet.Proofs.Compile.Coupling
import Stylesheet.Proofs.Double.Integers

/-!
# Counting loops

A counting loop goes through the integers from its first number towards its last. What they are is
settled before the first round: neither what the body does to the variable of the loop nor what it
does to variables in the bounds changes them. A round binds the variable and expands the body, in
the block as the round before left it; the first round in which the body returns or fails is the
last one, and its result is that of the loop.

The variable is bound to a number, whose magnitude is a double. Up to `2 ^ 53` that is the integer
of the round; further out, where not every integer is a double, it is a double nearest to it.

## Main definitions

* `counting` — the integers of a loop
* `Rounds` — the rounds of a loop, one after the other
* `Engine.round` — one round of a counting loop

## Main results

* `countRange_eq` — the integers that a loop counts through
* `rounds_iff` — what repeating a body comes to
* `for_counts` — counting loops
* `distant_round_rounded` — a loop so far out that its variable is not the integer of the round
-/

namespace Stylesheet

open Text

/-! ### Integers -/

/-- The integers from `a` on towards `b`, the last one included if `through` says so. -/
def counting (a b : ℤ) (through : Bool) : List ℤ :=
  if a ≤ b then Int.range a (if through then b + 1 else b)
  else (Int.range (if through then b else b + 1) (a + 1)).reverse

/-- Counting from the first number in steps towards the last. -/
theorem countRange_eq (a b : ℤ) (through : Bool) :
    countRange a b through = counting a b through := by
  unfold countRange counting Int.range
  dsimp only
  by_cases hab : a ≤ b
  · -- Both are a list of as many integers, written from the same end.
    have hcount : (b - a).natAbs + (if through then 1 else 0) =
        ((if through then b + 1 else b) - a).toNat := by
      cases through <;> simp <;> omega
    rw [if_pos hab, if_neg (not_lt_of_ge hab), hcount]
    simp
  · have hcount : (b - a).natAbs + (if through then 1 else 0) =
        (a + 1 - (if through then b else b + 1)).toNat := by
      cases through <;> simp <;> omega
    rw [if_neg hab, if_pos (lt_of_not_ge hab), hcount]
    -- Counting down is counting up read backwards.
    refine List.ext_getElem (by simp) fun i hi _ => ?_
    simp only [List.length_map, List.length_range] at hi
    simp only [List.getElem_map, List.getElem_range, List.getElem_reverse, List.length_map,
      List.length_range]
    omega

theorem length_counting (a b : ℤ) (through : Bool) :
    (counting a b through).length = (b - a).natAbs + if through then 1 else 0 := by
  rw [← countRange_eq]
  simp [countRange]

/-- Counting stays between the two numbers. -/
theorem mem_counting {a b i : ℤ} {through : Bool} (h : i ∈ counting a b through) :
    min a b ≤ i ∧ i ≤ max a b := by
  unfold counting at h
  split at h
  · rw [Int.mem_range_iff] at h
    split at h <;> omega
  · rw [List.mem_reverse, Int.mem_range_iff] at h
    split at h <;> omega

/-! ### Rounds -/

/-- How the expansion of a body ends. -/
abbrev Finish := Except Halt (Signal × Locals) × Session

/-- The body ran to its end, without a return and without a failure. -/
def Finish.IsDone (o : Finish) : Prop := ∃ l, o.1 = .ok (.done, l)

/-- The rounds of a loop over a list, where `round` is one of them. Each starts where the one
before left off; the first that does not run to its end is the last. -/
inductive Rounds {α : Type} (round : α → Locals → Session → Finish) :
    List α → Locals → Session → Finish → Prop
  | over (l : Locals) (s : Session) : Rounds round [] l s (.ok (.done, l), s)
  | next {a : α} {as : List α} {l l' : Locals} {s s' : Session} {o : Finish}
      (hround : round a l s = (.ok (.done, l'), s')) (hrest : Rounds round as l' s' o) :
      Rounds round (a :: as) l s o
  | stop {a : α} {as : List α} {l : Locals} {s : Session} (h : ¬ (round a l s).IsDone) :
      Rounds round (a :: as) l s (round a l s)

/-- The first round decides whether there is another one. -/
theorem rounds_cons {α : Type} {round : α → Locals → Session → Finish} (a : α) (as : List α)
    (l : Locals) (s : Session) (o : Finish) :
    Rounds round (a :: as) l s o ↔ match round a l s with
      | (.ok (.done, l'), s') => Rounds round as l' s' o
      | stopped => stopped = o := by
  constructor
  · intro h
    cases h with
    | next hround hrest => rwa [hround]
    | stop hstop =>
      split
      · rename_i hround
        exact absurd ⟨_, congrArg Prod.fst hround⟩ hstop
      · rfl
  · intro h
    split at h
    · rename_i hround
      exact .next hround h
    · rename_i hnot
      rw [← h]
      refine .stop fun ⟨l', hdone⟩ => ?_
      exact hnot l' (round a l s).2 (Prod.ext hdone rfl)

namespace Engine

variable {en : Engine} {opts : Options} {frame : Frame} {header body : Text}

/-- A round of a counting loop: the variable is bound to the integer, in the unit of the loop, and
the body is expanded. -/
def round (en : Engine) (frame : Frame) (body var unit : Text) (i : ℤ) (l : Locals) (s : Session) :
    Finish :=
  outcome ((en.expand frame body).run
    { l with vars := l.vars.set var (.ofMeasure (Double.ofInt i) unit) }) s

theorem repeatBody_cons {α : Type} (bindItem : α → ExpandM Unit) (a : α) (as : List α) :
    en.repeatBody frame bindItem body (a :: as) = (do
      match ← (do bindItem a; en.expand frame body) with
      | .returned v => return .returned v
      | .done => en.repeatBody frame bindItem body as) := (bind_assoc _ _ _).symm

/-- Repeating a body is going through its rounds. -/
theorem rounds_iff {α : Type} (bindItem : α → ExpandM Unit) (as : List α) (l : Locals) (s : Session)
    (o : Finish) :
    Rounds (fun a l s => outcome ((do bindItem a; en.expand frame body).run l) s) as l s o ↔
      outcome ((en.repeatBody frame bindItem body as).run l) s = o := by
  induction as generalizing l s with
  | nil =>
    constructor
    · rintro ⟨⟩
      rfl
    · rintro rfl
      exact .over l s
  | cons a as ih =>
    rw [repeatBody_cons, rounds_cons]
    generalize (do bindItem a; en.expand frame body : ExpandM Signal) = x
    rw [StateT.run_bind, outcome_bind]
    rcases outcome (x.run l) s with ⟨_ | ⟨_ | v, l'⟩, s'⟩
    · exact Iff.rfl
    · exact ih l' s'
    · exact Iff.rfl

/-- A block that is a counting loop. -/
theorem block_for {prev : Branch} {b : Block} (h : b.Heads (of "@for") header body) :
    en.block opts frame prev b = (do return (← en.doFor frame header body, .none)) := by
  rw [block_of_heads h rfl, blockDirective, if_neg (by decide), if_neg (by decide), if_pos rfl]

/-- A loop goes through its rounds once its bounds are known. -/
theorem outcome_doFor {h : ForHeader} (hheader : ForHeader.parse? header = some h) {l : Locals}
    {s s₁ s₂ : Session} {first last : Value} {x y : Number}
    (hfirst : outcome (en.calculate ⟨l.vars, l.registry, frame.file⟩ h.first) s = (.ok first, s₁))
    (hlast : outcome (en.calculate ⟨l.vars, l.registry, frame.file⟩ h.last) s₁ = (.ok last, s₂))
    (hx : asNumber? first = some x) (hy : asNumber? last = some y) :
    outcome ((en.doFor frame header body).run l) s =
      outcome ((en.repeatBody frame
        (fun i => bindVar h.var (.ofMeasure (Double.ofInt i) x.unit)) body
        (countRange (Double.toWord (Double.round x.value)) (Double.toWord (Double.round y.value))
          h.through)).run l) s₂ := by
  have hvalue {t : Text} {v : Value} {s s' : Session}
      (h : outcome (en.calculate ⟨l.vars, l.registry, frame.file⟩ t) s = (.ok v, s')) :
      outcome ((en.valueIn frame t).run l) s = (.ok (v, l), s') := outcome_run_lift h l
  rw [doFor, hheader]
  dsimp only
  rw [outcome_run_bind (hvalue hfirst), outcome_run_bind (hvalue hlast), hx, hy]

end Engine

/-! ### Loops -/

/-- A loop goes through the integers from its first number, rounded, towards its last, and in each
round the variable is bound to the double of the integer, which is the integer itself up to
`2 ^ 53` in magnitude and a double nearest to it beyond. -/
theorem for_counts (en : Engine) (opts : Options) (frame : Frame) (prev : Branch) {block : Block}
    {header body : Text} {h : ForHeader} {l : Locals} {s s₁ s₂ : Session} {first last : Value}
    {x y : Number} {a b : ℤ} (hblock : block.Heads (of "@for") header body)
    (hheader : ForHeader.parse? header = some h)
    (hfirst : outcome (en.calculate ⟨l.vars, l.registry, frame.file⟩ h.first) s = (.ok first, s₁))
    (hlast : outcome (en.calculate ⟨l.vars, l.registry, frame.file⟩ h.last) s₁ = (.ok last, s₂))
    (hx : asNumber? first = some x) (hy : asNumber? last = some y)
    (ha : nearestInt (Double.value x.value) = a) (hb : nearestInt (Double.value y.value) = b)
    (hword : ∀ i ∈ [a, b], -2 ^ 63 ≤ i ∧ i < 2 ^ 63) :
    en.block opts frame prev block = (do return (← en.doFor frame header body, .none)) ∧
    (∀ o, Rounds (en.round frame body h.var x.unit) (counting a b h.through) l s₂ o ↔
      outcome ((en.doFor frame header body).run l) s = o) ∧
    (counting a b h.through).length = (b - a).natAbs + (if h.through then 1 else 0) ∧
    ∀ i ∈ counting a b h.through,
      (i.natAbs ≤ 2 ^ 53 → Double.value (Double.ofInt i) = i) ∧
      ∀ f, |Double.value (Double.ofInt i) - i| ≤ |Double.value f - i| := by
  obtain ⟨halow, hahigh⟩ := hword a (.head _)
  obtain ⟨hblow, hbhigh⟩ := hword b (.tail _ (.head _))
  refine ⟨Engine.block_for hblock, fun o => ?_, length_counting a b h.through, fun i hi => ?_⟩
  · -- Within a word the bounds survive the conversion, so the loop counts between their roundings.
    rw [Engine.outcome_doFor hheader hfirst hlast hx hy, ← Engine.rounds_iff,
      Double.toWord_round (ha ▸ halow) (ha ▸ hahigh), Double.toWord_round (hb ▸ hblow) (hb ▸ hbhigh),
      ha, hb, countRange_eq]
    exact Iff.rfl
  · have hmem := mem_counting hi
    exact ⟨Double.value_ofInt, Double.nearest_ofInt (by omega)⟩

/-- Variables for a loop whose body changes the variable in its bounds. -/
def loopVars : Context := [(of "$n", .ofMeasure (-1) (of "px"))]

theorem value_half : Double.value 2.5 = 5 / 2 := by
  have hbinary : Binary.ofFloat 2.5 = ⟨false, 5 * 2 ^ 50, -51⟩ := rfl
  rw [Double.value, hbinary, Binary.value]
  norm_num

/-- Down from `2.5px`, rounded, to `-1`. -/
theorem for_counts_down :
    let en := engine {} 2
    let block : Block := ⟨of "@for $i from $n + 3.5 to -1", some (of "$n: 7; $i: 9; w: $i;"), 0⟩
    let header : ForHeader := ⟨of "$i", of "$n + 3.5", of "-1", false⟩
    let l : Locals := { vars := loopVars }
    block.Heads (of "@for") (of "$i from $n + 3.5 to -1") (of "$n: 7; $i: 9; w: $i;") ∧
    ForHeader.parse? (of "$i from $n + 3.5 to -1") = some header ∧
    outcome (en.calculate ⟨l.vars, l.registry, []⟩ header.first) {} =
      (.ok (.ofMeasure 2.5 (of "px")), {}) ∧
    outcome (en.calculate ⟨l.vars, l.registry, []⟩ header.last) {} = (.ok (.plain (of "-1")), {}) ∧
    nearestInt (Double.value 2.5) = 3 ∧ nearestInt (Double.value (-1)) = -1 ∧
    counting 3 (-1) false = [3, 2, 1, 0] ∧
    ∀ o, Rounds (en.round {} (of "$n: 7; $i: 9; w: $i;") (of "$i") (of "px")) [3, 2, 1, 0] l {} o ↔
      outcome ((en.doFor {} (of "$i from $n + 3.5 to -1") (of "$n: 7; $i: 9; w: $i;")).run l) {} =
        o := by
  intro en block header l
  have hblock : block.Heads (of "@for") (of "$i from $n + 3.5 to -1") (of "$n: 7; $i: 9; w: $i;") :=
    ⟨by decide, by decide, rfl⟩
  have hheader : ForHeader.parse? (of "$i from $n + 3.5 to -1") = some header := by decide
  have hfirst : outcome (en.calculate ⟨l.vars, l.registry, []⟩ header.first) {} =
      (.ok (.ofMeasure 2.5 (of "px")), {}) := rfl
  have hlast : outcome (en.calculate ⟨l.vars, l.registry, []⟩ header.last) {} =
      (.ok (.plain (of "-1")), {}) := rfl
  have hthree : nearestInt (Double.value 2.5) = 3 := by
    rw [value_half, nearestInt, if_neg (by norm_num), round_eq]
    norm_num
  have hminus : nearestInt (Double.value (-1)) = -1 := by
    rw [show (-1 : Float) = Double.ofInt (-1) from rfl, Double.value_ofInt (by decide),
      nearestInt_intCast]
  have hcounting : counting 3 (-1) false = [3, 2, 1, 0] := by decide
  -- The bounds round to 3 and -1, so the loop counts down and stops before the last.
  obtain ⟨-, hrounds, -, -⟩ := for_counts en {} {} .none hblock hheader hfirst hlast
    (x := ⟨2.5, of "px"⟩) (y := ⟨-1, []⟩) rfl rfl hthree hminus (by decide)
  rw [hcounting] at hrounds
  exact ⟨hblock, hheader, hfirst, hlast, hthree, hminus, hcounting, hrounds⟩

/-- A loop from `2 ^ 53` through `2 ^ 53 + 2` counts three integers, but the one in the middle is no
double, and in its round the variable is `2 ^ 53` again. -/
theorem distant_round_rounded :
    let header : ForHeader := ⟨of "$i", of "9007199254740992", of "9007199254740994", true⟩
    ForHeader.parse? (of "$i from 9007199254740992 through 9007199254740994") = some header ∧
    counting 9007199254740992 9007199254740994 true =
      [9007199254740992, 9007199254740993, 9007199254740994] ∧
    Double.value (Double.ofInt 9007199254740993) ≠ 9007199254740993 ∧
    (outcome (((engine {} 3).doFor {} (of "$i from 9007199254740992 through 9007199254740994")
        (of "w: $i;")).run {}) {}).1.map (fun r => r.2.properties) =
      .ok [⟨of "w", of "9007199254740992"⟩, ⟨of "w", of "9007199254740992"⟩,
        ⟨of "w", of "9007199254740994"⟩] := by
  refine ⟨by decide, by decide, ?_, by decide +kernel⟩
  have hsame : Double.ofInt 9007199254740993 = Double.ofInt 9007199254740992 := rfl
  rw [hsame, Double.value_ofInt (by decide)]
  norm_num

end Stylesheet
