import Stylesheet.Proofs.Source.Tiling

/-!
# Quotes and parentheses in headers

The header of a block is balanced. A declaration without a body need not be: the stretch it
stands in is balanced, but it is split at every semicolon, and one that stands in
parentheses or in quotes is no different there. This file says when that happens.

## Main definitions

* `Guard` — the open quote and the open parentheses at a place of a text
* `Shut` — no quote and no parenthesis is open at the end
* `FreeSemicolons` — every semicolon stands outside quotes and parentheses

## Main results

* `shut_headers_iff` — the headers of blocks are shut, and all headers are exactly when the
  semicolons of loose declarations are free
-/

namespace Stylesheet

open Text

/-! ### Quotes and parentheses alone -/

/-- The open quote and the open parentheses at a place of a text. -/
structure Guard where
  quote : Option UInt8 := none
  /-- The next byte is escaped. -/
  escaped : Bool := false
  paren : Nat := 0
  deriving DecidableEq

namespace Guard

/-- Passes one byte. -/
def step (g : Guard) (c : UInt8) : Guard :=
  match g.quote with
  | some q =>
    if g.escaped then { g with escaped := false }
    else if c = ch '\\' then { g with escaped := true }
    else if c = q then { g with quote := none }
    else g
  | none =>
    if isQuote c then { g with quote := some c }
    else if c = ch '(' then { g with paren := g.paren + 1 }
    else if c = ch ')' then { g with paren := g.paren - 1 }
    else g

/-- Passes a text. -/
def run (g : Guard) (t : Text) : Guard := t.foldl step g

@[simp] theorem run_cons (g : Guard) (c : UInt8) (t : Text) : g.run (c :: t) = (g.step c).run t :=
  rfl

theorem run_append (g : Guard) (t u : Text) : g.run (t ++ u) = (g.run t).run u :=
  List.foldl_append

end Guard

/-- Every quote and every parenthesis opened in a text is closed in it. -/
def Shut (t : Text) : Prop := (Guard.run {} t).quote = none ∧ (Guard.run {} t).paren = 0

instance (t : Text) : Decidable (Shut t) := inferInstanceAs (Decidable (_ ∧ _))

namespace Brackets

/-- What is open but for braces. -/
def guard (b : Brackets) : Guard := { quote := b.quote, escaped := b.escaped, paren := b.paren }

theorem guard_step {b b' : Brackets} {c : UInt8} (h : b.step c = some b') :
    b'.guard = b.guard.step c := by
  unfold step at h
  cases hquote : b.quote with
  | some q =>
    simp only [hquote] at h
    simp only [Guard.step, guard, hquote]
    split_ifs at h ⊢ <;> cases h <;> simp_all
  | none =>
    simp only [hquote] at h
    simp only [Guard.step, guard, hquote]
    split_ifs at h ⊢ <;> cases h <;> simp_all

theorem guard_run {b b' : Brackets} {t : Text} (h : b.run t = some b') :
    b'.guard = b.guard.run t := by
  induction t generalizing b with
  | nil =>
    obtain rfl := Option.some.inj h
    rfl
  | cons c t ih =>
    obtain ⟨b₁, hstep, hrest⟩ := Option.bind_eq_some_iff.mp (run_cons b c t ▸ h)
    rw [Guard.run_cons, ← guard_step hstep]
    exact ih hrest

end Brackets

/-- What is balanced is shut. -/
theorem Balanced.shut {t : Text} (h : Balanced t) : Shut t := by
  obtain ⟨b, hrun, hquote, hparen, -⟩ := h
  have hguard := Brackets.guard_run hrun
  rw [Shut, show Guard.run {} t = b.guard from hguard.symm]
  exact ⟨hquote, hparen⟩

/-! ### White space and semicolons -/

namespace Guard

/-- Outside quotes no byte is escaped. -/
theorem escaped_step {g : Guard} {c : UInt8} (hg : g.quote = none → g.escaped = false)
    (hquote : (g.step c).quote = none) : (g.step c).escaped = false := by
  unfold step at hquote ⊢
  cases hq : g.quote with
  | some q =>
    simp only [hq] at hquote ⊢
    split_ifs at hquote ⊢ <;> simp_all
  | none =>
    simp only [hq] at hquote ⊢
    split_ifs at hquote ⊢ <;> simp_all

theorem escaped_run {g : Guard} {t : Text} (hg : g.quote = none → g.escaped = false)
    (hquote : (g.run t).quote = none) : (g.run t).escaped = false := by
  induction t generalizing g with
  | nil => exact hg hquote
  | cons c t ih => exact ih (escaped_step hg) hquote

/-- Outside quotes white space changes nothing. -/
theorem run_blank {g : Guard} {w : Text} (hquote : g.quote = none) (hw : ∀ c ∈ w, inBlank c) :
    g.run w = g := by
  let b : Brackets := { quote := g.quote, escaped := g.escaped, paren := g.paren }
  have hrun : b.run w = some b := Brackets.run_of_inBlank hquote hw
  exact (Brackets.guard_run hrun).symm

/-- White space does not close a quote. -/
theorem quote_run_blank {g : Guard} {w : Text} {q : UInt8} (hquote : g.quote = some q)
    (hq : isQuote q = true) (hw : ∀ c ∈ w, inBlank c) : (g.run w).quote = some q := by
  induction w generalizing g with
  | nil => exact hquote
  | cons c w ih =>
    obtain ⟨hc, hw⟩ := List.forall_mem_cons.mp hw
    have hne : c ≠ q := by
      rintro rfl
      simp [Brackets.not_isQuote_of_inBlank hc] at hq
    refine ih ?_ hw
    unfold step
    simp only [hquote]
    split_ifs <;> simp_all

theorem isQuote_step {g : Guard} {c : UInt8} (hg : ∀ q, g.quote = some q → isQuote q = true) :
    ∀ q, (g.step c).quote = some q → isQuote q = true := by
  unfold step
  cases hq : g.quote with
  | some p =>
    have hp := hg p hq
    dsimp only
    split_ifs <;> simp_all
  | none =>
    dsimp only
    split_ifs <;> simp_all

theorem isQuote_run {g : Guard} {t : Text} (hg : ∀ q, g.quote = some q → isQuote q = true) :
    ∀ q, (g.run t).quote = some q → isQuote q = true := by
  induction t generalizing g with
  | nil => exact hg
  | cons c t ih => exact ih (isQuote_step hg)

end Guard

theorem shut_iff {t : Text} : Shut t ↔ Guard.run {} t = {} := by
  constructor
  · rintro ⟨hquote, hparen⟩
    have hescaped := Guard.escaped_run (g := {}) (fun _ => rfl) hquote
    generalize Guard.run {} t = g at *
    obtain ⟨quote, escaped, paren⟩ := g
    simp only at hquote hparen hescaped
    rw [hquote, hparen, hescaped]
  · intro h
    rw [Shut, h]
    exact ⟨rfl, rfl⟩

/-- White space at the ends does not matter. -/
theorem shut_trim_iff {t : Text} : Shut (trim t) ↔ Shut t := by
  obtain ⟨w, v, ht, hw, hv⟩ := exists_trim_eq t
  have hrun : Guard.run {} t = (Guard.run {} (trim t)).run v := by
    conv_lhs => rw [ht, Guard.run_append, Guard.run_append, Guard.run_blank rfl hw]
  have hnone : ∀ q, (none : Option UInt8) = some q → isQuote q = true := fun q hq => by cases hq
  rw [Shut, Shut, hrun]
  cases hquote : (Guard.run {} (trim t)).quote with
  | none => rw [Guard.run_blank hquote hv, hquote]
  | some q =>
    have hq := Guard.isQuote_run (g := {}) hnone q hquote
    simp [Guard.quote_run_blank hquote hq hv]

/-- After a text that is shut the rest is as if it stood alone. -/
theorem Shut.append_iff {t u : Text} (ht : Shut t) : Shut (t ++ u) ↔ Shut u := by
  rw [Shut, Guard.run_append, shut_iff.mp ht]
  rfl

/-- Every semicolon of a text stands outside quotes and parentheses. -/
def FreeSemicolons (t : Text) : Prop := ∀ u v, t = u ++ ch ';' :: v → Shut u

/-- The parts of a text between its semicolons are shut iff its semicolons are free. -/
theorem shut_parts_iff {t : Text} (ht : Shut t) :
    (∀ p ∈ split (ch ';') t, Shut p) ↔ FreeSemicolons t :=
  forall_mem_split_iff (fun _ hu => hu.append_iff) (by decide) ht

/-! ### Headers -/

/-- The declarations between semicolons are shut iff the parts they are trimmed from are. -/
theorem shut_looseParts_iff {offset : Nat} {parts : List Text} :
    (∀ b ∈ looseParts offset parts, Shut b.header) ↔ ∀ p ∈ parts, Shut p := by
  induction parts generalizing offset with
  | nil => simp [looseParts]
  | cons part rest ih =>
    rw [looseParts, List.forall_mem_cons]
    split_ifs with hempty
    · have hblank : Shut part := by
        rw [← shut_trim_iff, List.isEmpty_iff.mp hempty]
        exact ⟨rfl, rfl⟩
      rw [ih]
      exact ⟨fun h => ⟨hblank, h⟩, And.right⟩
    · rw [List.forall_mem_cons, ih, shut_trim_iff]

/-- The headers of a stretch are shut iff the semicolons between its declarations are free. -/
theorem Stretch.shut_blocks_iff {offset : Nat} {p : Stretch} (hp : p.Sound) :
    (∀ b ∈ p.blocks offset, Shut b.header) ↔ ∀ u, p = .loose u → FreeSemicolons u := by
  cases p with
  | loose t =>
    rw [Stretch.blocks, shut_looseParts_iff, shut_parts_iff (Balanced.shut hp)]
    constructor
    · rintro hfree u hu
      obtain rfl := Stretch.loose.inj hu
      exact hfree
    · exact fun h => h t rfl
  | braced header body =>
    have hshut : ∀ b ∈ (Stretch.braced header body).blocks offset, Shut b.header := by
      intro b hb
      rw [Stretch.blocks] at hb
      split_ifs at hb
      · cases hb
      · obtain rfl := List.mem_singleton.mp hb
        exact hp.1.trim.shut
    exact ⟨fun _ u hu => (by cases hu), fun _ => hshut⟩

/-- Only declarations have no body, and only the others stand in a stretch with braces. -/
theorem Stretch.shut_of_body {offset : Nat} {p : Stretch} (hp : p.Sound) {b : Block}
    (hb : b ∈ p.blocks offset) (hbody : b.body ≠ none) : Shut b.header := by
  cases p with
  | loose t => exact absurd (Scan.body_of_mem_looseParts hb) hbody
  | braced header body =>
    refine (Stretch.shut_blocks_iff hp).mpr (fun u hu => ?_) b hb
    cases hu

/-- Of a text that is cut into blocks without an error, the headers of blocks with a body are
shut. All headers are shut if and only if no semicolon between loose declarations stands in
quotes or parentheses. -/
theorem shut_headers_iff {t : Text} (h : (locate t).2 = none) :
    ∃ ps : List Stretch, t = ps.flatMap Stretch.text ∧
      (locate t).1 = Stretch.blocksFrom 0 ps ∧
      (∀ b ∈ (locate t).1, b.body ≠ none → Shut b.header) ∧
      ((∀ b ∈ (locate t).1, Shut b.header) ↔ ∀ u, .loose u ∈ ps → FreeSemicolons u) := by
  obtain ⟨ps, htext, hblocks, hsound⟩ := exists_stretches h
  refine ⟨ps, htext, hblocks, ?_⟩
  rw [hblocks]
  clear htext hblocks
  generalize (0 : Nat) = offset
  -- stretch by stretch: the headers of blocks with a body are shut in any case
  induction ps generalizing offset with
  | nil => simp [Stretch.blocksFrom]
  | cons p ps ih =>
    obtain ⟨hp, hps⟩ := List.forall_mem_cons.mp hsound
    obtain ⟨hbodies, hall⟩ := ih hps (offset + p.text.length)
    rw [Stretch.blocksFrom]
    constructor
    · intro b hb hbody
      rcases List.mem_append.mp hb with hb | hb
      · exact Stretch.shut_of_body hp hb hbody
      · exact hbodies b hb hbody
    · rw [List.forall_mem_append, Stretch.shut_blocks_iff hp, hall]
      constructor
      · rintro ⟨hfirst, hrest⟩ u hu
        rcases List.mem_cons.mp hu with heq | hu
        · exact hfirst u heq.symm
        · exact hrest u hu
      · intro hfree
        exact ⟨fun u hu => hfree u (hu ▸ List.mem_cons_self),
          fun u hu => hfree u (List.mem_cons_of_mem p hu)⟩

/-- A semicolon in the parentheses of a header ends no declaration: the header is shut. -/
theorem selectorArgument_shut :
    (locate (of ".a(b;c)\x7bd\x7d")).2 = none ∧
      ∀ b ∈ (locate (of ".a(b;c)\x7bd\x7d")).1, b.body ≠ none → Shut b.header := by
  have hok : (locate (of ".a(b;c)\x7bd\x7d")).2 = none := by decide
  obtain ⟨ps, -, -, hbodies, -⟩ := shut_headers_iff hok
  exact ⟨hok, hbodies⟩

/-- A semicolon in the parentheses or in the quotes of a declaration ends it. -/
theorem dataUrl_not_shut :
    (locate (of "a: url(data:x;y)") =
        ([⟨of "a: url(data:x", none, 0⟩, ⟨of "y)", none, 14⟩], none) ∧
      ¬ Shut (of "a: url(data:x")) ∧
    locate (of "a: 'x;y'") = ([⟨of "a: 'x", none, 0⟩, ⟨of "y'", none, 6⟩], none) ∧
      ¬ Shut (of "a: 'x") := by
  decide

end Stylesheet
