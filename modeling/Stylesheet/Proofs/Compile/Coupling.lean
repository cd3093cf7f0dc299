import Stylesheet.Compile
import Stylesheet.Proofs.Source.Balance

/-!
# Coupled computations

Two compilations of one source that differ only in how they remember the values of
expressions go through the same steps. This file has the logic to say so: a coupling
relates the sessions of both, and two computations are alike from a session on if, run
from related sessions, they end in the same way in related sessions.

Besides the coupling, a computation keeps an account of where texts come from. Every
text that is expanded is a body found before or the text of an import, every definition
in scope has such a body, and a compilation that ends early does so at a text of this
kind. Both are shown in one pass over the computations, since the account of one side
is the account of both.

## Main definitions

* `outcome` — how a computation ends, and the session it leaves
* `Coupling` — two compilations side by side
* `Coupling.Alike`, `Coupling.Expands` — computations that end alike

## Main results

* `Coupling.Alike.bind`, `Coupling.Alike.tryCatch` — computations are alike if their
  parts are
* `Coupling.Expands.bind`, `Coupling.Expands.lift` — the same inside a block
-/

namespace Stylesheet

open Text

variable {α β : Type}

/-! ### Running a computation -/

/-- How a computation ends when it is run from a session, and the session it leaves. -/
def outcome (x : SessionM α) (s : Session) : Except Halt α × Session := x.run.run s

@[simp] theorem outcome_pure (a : α) (s : Session) : outcome (pure a) s = (.ok a, s) := rfl

@[simp] theorem outcome_throw (h : Halt) (s : Session) :
    outcome (throw h : SessionM α) s = (.error h, s) := rfl

@[simp] theorem outcome_get (s : Session) : outcome get s = (.ok s, s) := rfl

@[simp] theorem outcome_set (s s' : Session) : outcome (set s') s = (.ok ⟨⟩, s') := rfl

@[simp] theorem outcome_modify (u : Session → Session) (s : Session) :
    outcome (modify u) s = (.ok (), u s) := rfl

theorem outcome_bind (x : SessionM α) (f : α → SessionM β) (s : Session) :
    outcome (x >>= f) s = match outcome x s with
      | (.ok a, s') => outcome (f a) s'
      | (.error h, s') => (.error h, s') := by
  simp only [outcome, ExceptT.run_bind, StateT.run_bind]
  rcases StateT.run x.run s with ⟨r, s'⟩
  cases r <;> rfl

/-- What ends well in two parts comes by a session between them. -/
theorem outcome_bind_eq_ok_iff {x : SessionM α} {f : α → SessionM β} {s s' : Session} {b : β} :
    outcome (x >>= f) s = (.ok b, s') ↔
      ∃ a s₁, outcome x s = (.ok a, s₁) ∧ outcome (f a) s₁ = (.ok b, s') := by
  rw [outcome_bind]
  rcases outcome x s with ⟨_ | a, s₁⟩
  · constructor
    · rintro ⟨⟩
    · rintro ⟨_, _, ⟨⟩, _⟩
  · constructor
    · intro h
      exact ⟨a, s₁, rfl, h⟩
    · rintro ⟨_, _, ⟨⟩, h⟩
      exact h

theorem outcome_tryCatch (x : SessionM α) (f : Halt → SessionM α) (s : Session) :
    outcome (tryCatch x f) s = match outcome x s with
      | (.ok a, s') => (.ok a, s')
      | (.error h, s') => outcome (f h) s' := by
  simp only [outcome, ExceptT.run_tryCatch, StateT.run_bind]
  rcases StateT.run x.run s with ⟨r, s'⟩
  cases r <;> rfl

/-- A computation on the session leaves the block as it is. -/
theorem outcome_run_lift {x : SessionM α} {s s' : Session} {a : α}
    (h : outcome x s = (.ok a, s')) (l : Locals) :
    outcome ((liftM x : ExpandM α).run l) s = (.ok (a, l), s') := by
  change outcome (x >>= fun a => pure (a, l)) s = _
  rw [outcome_bind, h]
  rfl

/-- A computation in a block goes on from where its first part ends. -/
theorem outcome_run_bind {x : ExpandM α} {l l' : Locals} {s s' : Session} {a : α}
    (h : outcome (x.run l) s = (.ok (a, l'), s')) (f : α → ExpandM β) :
    outcome ((x >>= f).run l) s = outcome ((f a).run l') s' := by
  rw [StateT.run_bind, outcome_bind, h]

/-- What looks at the session first goes on with the session it is run from. -/
theorem outcome_run_getThe_bind (f : Session → ExpandM α) (l : Locals) (s : Session) :
    outcome ((getThe Session >>= f).run l) s = outcome ((f s).run l) s := rfl

/-- A call is one deeper while it lasts; an imbalance in the text of the function is an error
of the call. -/
theorem outcome_callFunction (en : Engine) (fn : Callable) (args : List Entry) (scope : Scope)
    (s : Session) : outcome (en.callFunction fn args scope) s =
      if s.depth ≥ maxCallDepth then (.ok (.error (.tooDeep fn.name)), s)
      else match outcome (en.functionResult fn args scope) { s with depth := s.depth + 1 } with
        | (.ok v, s') => (.ok (.ok v), { s' with depth := s'.depth - 1 })
        | (.error (.unbalanced e), s') =>
          (.ok (.error (.unbalanced e)), { s' with depth := s'.depth - 1 })
        | (.error .exhausted, s') => (.error .exhausted, s') := by
  rw [Engine.callFunction, outcome_bind, outcome_get]
  dsimp only
  split_ifs with hdeep
  · rfl
  · simp only [outcome_bind, outcome_modify, outcome_tryCatch]
    rcases outcome (en.functionResult fn args scope) { s with depth := s.depth + 1 } with
      ⟨(e | _) | v, s'⟩ <;> rfl

/-- An import is recorded and expanded in place; an imbalance in it is placed in its file. -/
theorem outcome_expandLoaded (en : Engine) (frame : Frame) (src : Loaded) (l : Locals)
    (s : Session) : outcome ((en.expandLoaded frame src).run l) s =
      match outcome ((en.expand { frame with file := src.file, dir := src.dir }
          (src.text.map (·.1))).run
            { l with registry := { l.registry with imported := src.file :: l.registry.imported } })
          { s with imports := src.text.map (·.1) :: s.imports } with
      | (.ok (_, l'), s') => (.ok ((), l'), s')
      | (.error (.unbalanced e), s') =>
        (.error (.unbalanced (placeError e src.file (originOf (src.text.map (·.2))))), s')
      | (.error .exhausted, s') => (.error .exhausted, s') := by
  let l₁ : Locals :=
    { l with registry := { l.registry with imported := src.file :: l.registry.imported } }
  let s₁ : Session := { s with imports := src.text.map (·.1) :: s.imports }
  let x : ExpandM Signal :=
    en.expand { frame with file := src.file, dir := src.dir } (src.text.map (·.1))
  -- The signal is dropped before the error is caught, so the catch sees the run of `x`.
  have hbind : outcome ((x >>= fun _ => pure ()).run l₁) s₁ =
      outcome (x.run l₁ >>= fun r => pure ((), r.2)) s₁ := rfl
  change outcome (tryCatch ((x >>= fun _ => pure ()).run l₁) _) s₁ = _
  rw [outcome_tryCatch, hbind, outcome_bind]
  rcases outcome (x.run l₁) s₁ with ⟨(e | _) | r, s'⟩ <;> rfl

/-- What a waiting fragment is expanded in. -/
def Pending.frame (p : Pending) : Frame where
  selectors := p.selectors
  media := p.media
  file := p.file
  dir := p.dir

/-- What the expansion of a waiting fragment starts with. -/
def Pending.locals (p : Pending) : Locals where
  vars := p.context
  registry := p.registry
  parents := p.parents

/-- A waiting fragment filled with what its expansion left. -/
def Pending.filled (p : Pending) (order : Nat) (l : Locals) : Fragment where
  id := p.id
  file := p.file
  selectors := p.selectors
  parents := l.parents
  media := p.media
  properties := l.properties
  raw := p.raw
  position := order
  order := order

/-- Expanding a waiting fragment is expanding its text. -/
theorem expandPending_eq {en : Engine} {p : Pending} (hraw : p.raw = none) (order : Nat) :
    expandPending en order p = (do
      let (_, l) ← (en.expand p.frame p.code).run p.locals
      return (p.filled order l, l.children)) := by
  rw [expandPending, if_neg (by simp [hraw])]
  rfl

theorem outcome_expandPending {en : Engine} {p : Pending} (hraw : p.raw = none) {s s' : Session}
    {signal : Signal} {l : Locals}
    (h : outcome ((en.expand p.frame p.code).run p.locals) s = (.ok (signal, l), s'))
    (order : Nat) : outcome (expandPending en order p) s =
      (.ok (p.filled order l, l.children), s') := by
  rw [expandPending_eq hraw, outcome_bind, h]
  rfl

/-- What came of a waiting fragment: a raw at-rule is complete as it is, another is filled by
the expansion of its text. -/
theorem expandPending_cases {en : Engine} {order : Nat} {p : Pending} {f : Fragment}
    {children : List Pending} {s s' : Session}
    (h : outcome (expandPending en order p) s = (.ok (f, children), s')) :
    (p.raw.isSome = true ∧ f = p.filled order p.locals ∧ children = [] ∧ s' = s) ∨
      (p.raw = none ∧ ∃ signal l,
        outcome ((en.expand p.frame p.code).run p.locals) s = (.ok (signal, l), s') ∧
          f = p.filled order l ∧ children = l.children) := by
  cases hraw : p.raw with
  | some block =>
    rw [expandPending, if_pos (by simp [hraw])] at h
    cases h
    exact .inl ⟨rfl, rfl, rfl, rfl⟩
  | none =>
    refine .inr ⟨rfl, ?_⟩
    rcases hout : outcome ((en.expand p.frame p.code).run p.locals) s with ⟨r, s₁⟩
    cases r with
    | ok r =>
      rw [outcome_expandPending hraw hout] at h
      cases h
      exact ⟨r.1, r.2, rfl, rfl, rfl⟩
    | error e =>
      rw [expandPending_eq hraw, outcome_bind, hout] at h
      cases h

/-- The first of waiting fragments is expanded, then its children and the others. -/
theorem outcome_drain_cons {en : Engine} {fuel order : Nat} {p : Pending}
    {queue children : List Pending} {f : Fragment} {s s' : Session}
    (h : outcome (expandPending en order p) s = (.ok (f, children), s')) :
    outcome (drain en (fuel + 1) order (p :: queue)) s =
      match outcome (drain en fuel (order + 1) (children ++ queue)) s' with
      | (.ok fs, s'') => (.ok (f :: fs), s'')
      | (.error e, s'') => (.error e, s'') := by
  rw [drain, outcome_bind, h]
  dsimp only
  rw [outcome_bind]
  rcases outcome (drain en fuel (order + 1) (children ++ queue)) s' with ⟨_ | _, _⟩ <;> rfl

/-! ### Sessions that go on -/

namespace Session

/-- A session later in the same compilation: texts were imported and functions defined. -/
structure Later (s s' : Session) : Prop where
  imports : s.imports ⊆ s'.imports
  userFunctions : s.userFunctions ≤ s'.userFunctions

@[refl] theorem Later.refl (s : Session) : s.Later s := ⟨fun _ h => h, Nat.le_refl _⟩

theorem Later.trans {s s' s'' : Session} (h : s.Later s') (h' : s'.Later s'') : s.Later s'' :=
  ⟨fun _ ht => h'.imports (h.imports ht), Nat.le_trans h.userFunctions h'.userFunctions⟩

/-- A change of a session that has nothing to do with the values remembered. -/
def Blind (u : Session → Session) : Prop :=
  ∀ s c, u { s with cache := c } = { u s with cache := c }

end Session

/-! ### Couplings -/

/-- Two compilations side by side. `caches` relates the values remembered on the left to
those on the right, and `base` holds of the texts that are expanded besides imports. -/
structure Coupling where
  left : Options
  right : Options
  caches : List (Text × Value) → List (Text × Value) → Prop
  base : Text → Prop

namespace Coupling

variable (C : Coupling)

/-- Sessions that differ at most in the values remembered. -/
structure Related (s t : Session) : Prop where
  caches : C.caches s.cache t.cache
  rest : t = { s with cache := t.cache }

/-- A text that may be expanded: one of the base, or that of an import. -/
def Code (s : Session) (t : Text) : Prop := C.base t ∨ t ∈ s.imports

/-- The definitions in scope have bodies that may be expanded, and there are functions
among them only if one was defined. -/
structure Known (s : Session) (r : Registry) : Prop where
  mixins : ∀ e ∈ r.mixins, C.Code s e.2.body
  functions : ∀ e ∈ r.functions, C.Code s e.2.body
  none_defined : s.userFunctions = 0 → r.functions = []

/-- A compilation that ends at an imbalance does so at a text that was expanded. -/
def Halts (s : Session) (h : Halt) : Prop :=
  h ≠ .exhausted → ∃ t, C.Code s t ∧ (locate t).2 ≠ none

/-- Two endings are the same, later than `s`, and leave related sessions. -/
structure Ends (s : Session) (Q : Session → α → Prop) (o o' : Except Halt α × Session) :
    Prop where
  same : o.1 = o'.1
  related : C.Related o.2 o'.2
  later : s.Later o.2
  ok : ∀ a, o.1 = .ok a → Q o.2 a
  halts : ∀ h, o.1 = .error h → C.Halts o.2 h

/-- From the session `s` and any session related to it, two computations end alike, and
what they give satisfies `Q`. -/
def Alike (s : Session) (x y : SessionM α) (Q : Session → α → Prop) : Prop :=
  ∀ t, C.Related s t → C.Ends s Q (outcome x s) (outcome y t)

/-- No condition on what a computation gives. -/
abbrev Any : Session → α → Prop := fun _ _ => True

/-- A fragment that waits has a text and definitions that may be expanded; a raw at-rule
is complete as it is. -/
structure Waits (s : Session) (p : Pending) : Prop where
  code : p.raw = none → C.Code s p.code
  registry : C.Known s p.registry

/-- The state of a block whose definitions and fragments may be expanded. -/
structure Sound (s : Session) (l : Locals) : Prop where
  registry : C.Known s l.registry
  children : ∀ p ∈ l.children, C.Waits s p

/-- As `Alike`, for computations inside a block. -/
def Expands (s : Session) (x y : ExpandM α) (Q : Session → α → Prop) : Prop :=
  ∀ l, C.Sound s l → C.Alike s (x.run l) (y.run l) fun s' r => C.Sound s' r.2 ∧ Q s' r.1

variable {C : Coupling} {s s' : Session}

/-! ### What lasts -/

theorem Code.mono {t : Text} (h : C.Code s t) (hlater : s.Later s') : C.Code s' t :=
  h.imp_right fun ht => hlater.imports ht

theorem Known.mono {r : Registry} (h : C.Known s r) (hlater : s.Later s') : C.Known s' r where
  mixins e he := (h.mixins e he).mono hlater
  functions e he := (h.functions e he).mono hlater
  none_defined hnone := h.none_defined (Nat.le_zero.mp (hnone ▸ hlater.userFunctions))

/-- The body of a function that is found may be expanded. -/
theorem Known.code_of_function? {r : Registry} {name : Text} {arity : Nat} {c : Callable}
    (h : C.Known s r) (hc : r.function? name arity = some c) : C.Code s c.body := by
  obtain ⟨before, after, hsplit, -⟩ := List.lookup_eq_some_iff.mp hc
  exact h.functions ((name, arity), c) (by simp [hsplit])

theorem Waits.mono {p : Pending} (h : C.Waits s p) (hlater : s.Later s') : C.Waits s' p :=
  ⟨fun hraw => (h.code hraw).mono hlater, h.registry.mono hlater⟩

theorem Sound.mono {l : Locals} (h : C.Sound s l) (hlater : s.Later s') : C.Sound s' l :=
  ⟨h.registry.mono hlater, fun p hp => (h.children p hp).mono hlater⟩

theorem Related.blind {t : Session} {u : Session → Session} (h : C.Related s t)
    (hu : Session.Blind u) : C.Related (u s) (u t) := by
  have hsame (s : Session) : (u s).cache = s.cache := by rw [hu s s.cache]
  constructor
  · rw [hsame, hsame]
    exact h.caches
  · rw [hsame]
    exact (congrArg u h.rest).trans (hu s t.cache)

/-! ### Rules for computations on a session -/

theorem alike_pure {Q : Session → α → Prop} {a : α} (h : Q s a) :
    C.Alike s (pure a) (pure a) Q := by
  intro t ht
  refine ⟨rfl, ht, .refl s, fun b hb => ?_, fun b hb => by cases hb⟩
  cases hb
  exact h

theorem alike_throw {Q : Session → α → Prop} {e : Halt} (h : C.Halts s e) :
    C.Alike s (throw e) (throw e) Q := by
  intro t ht
  refine ⟨rfl, ht, .refl s, fun b hb => (by cases hb), fun b hb => ?_⟩
  cases hb
  exact h

theorem alike_modify {u : Session → Session} (hu : Session.Blind u) (hlater : s.Later (u s)) :
    C.Alike s (modify u) (modify u) Any :=
  fun _ ht => ⟨rfl, ht.blind hu, hlater, fun _ _ => trivial, fun _ hb => by cases hb⟩

/-- Both sides may look at their sessions, which are related. -/
theorem alike_get_bind {Q : Session → α → Prop} {f g : Session → SessionM α}
    (h : ∀ t, C.Related s t → C.Alike s (f s) (g t) Q) : C.Alike s (get >>= f) (get >>= g) Q := by
  intro t ht
  rw [outcome_bind, outcome_bind]
  exact h t ht t ht

namespace Alike

variable {x y : SessionM α} {Q Q' : Session → α → Prop}

/-- What comes after may use that the session is later. -/
theorem bind {R : Session → β → Prop} {f g : α → SessionM β} (h : C.Alike s x y Q)
    (hnext : ∀ a s', s.Later s' → Q s' a → C.Alike s' (f a) (g a) R) :
    C.Alike s (x >>= f) (y >>= g) R := by
  intro t ht
  have hends := h t ht
  rw [outcome_bind, outcome_bind]
  rcases houtx : outcome x s with ⟨r, s₁⟩
  rcases houty : outcome y t with ⟨r', t₁⟩
  rw [houtx, houty] at hends
  obtain ⟨rfl, hrelated, hlater, hok, hhalts⟩ := hends
  cases r with
  | error e =>
    refine ⟨rfl, hrelated, hlater, fun _ hb => (by cases hb), fun b hb => ?_⟩
    cases hb
    exact hhalts e rfl
  | ok a =>
    have hrest := hnext a s₁ hlater (hok a rfl) t₁ hrelated
    exact ⟨hrest.same, hrest.related, hlater.trans hrest.later, hrest.ok, hrest.halts⟩

/-- An ending that is caught is one that may be. -/
theorem tryCatch {f g : Halt → SessionM α} (h : C.Alike s x y Q)
    (hcatch : ∀ e s', s.Later s' → C.Halts s' e → C.Alike s' (f e) (g e) Q) :
    C.Alike s (MonadExcept.tryCatch x f) (MonadExcept.tryCatch y g) Q := by
  intro t ht
  have hends := h t ht
  rw [outcome_tryCatch, outcome_tryCatch]
  rcases houtx : outcome x s with ⟨r, s₁⟩
  rcases houty : outcome y t with ⟨r', t₁⟩
  rw [houtx, houty] at hends
  obtain ⟨rfl, hrelated, hlater, hok, hhalts⟩ := hends
  cases r with
  | ok a => exact ⟨rfl, hrelated, hlater, hok, hhalts⟩
  | error e =>
    have hrest := hcatch e s₁ hlater (hhalts e rfl) t₁ hrelated
    exact ⟨hrest.same, hrest.related, hlater.trans hrest.later, hrest.ok, hrest.halts⟩

/-- A list of computations in turn. -/
theorem mapM {γ : Type} {f g : γ → SessionM β} {items : List γ}
    (h : ∀ i ∈ items, ∀ s', s.Later s' → C.Alike s' (f i) (g i) Any) :
    C.Alike s (items.mapM f) (items.mapM g) Any := by
  induction items generalizing s with
  | nil => exact alike_pure trivial
  | cons i items ih =>
    rw [List.mapM_cons, List.mapM_cons]
    refine (h i List.mem_cons_self s (.refl s)).bind fun b s₁ hlater₁ _ => ?_
    refine (ih fun j hj s' hlater => ?_).bind fun _ _ _ _ => alike_pure trivial
    exact h j (List.mem_cons_of_mem i hj) s' (hlater₁.trans hlater)

/-- Computations in turn that hand on what they give. -/
theorem foldlM {γ δ : Type} {f g : δ → γ → SessionM δ} {items : List γ} {init : δ}
    (h : ∀ d, ∀ i ∈ items, ∀ s', s.Later s' → C.Alike s' (f d i) (g d i) Any) :
    C.Alike s (items.foldlM f init) (items.foldlM g init) Any := by
  induction items generalizing s init with
  | nil => exact alike_pure trivial
  | cons i items ih =>
    rw [List.foldlM_cons, List.foldlM_cons]
    refine (h init i List.mem_cons_self s (.refl s)).bind fun _ s₁ hlater₁ _ => ?_
    exact ih fun d j hj s' hlater => h d j (List.mem_cons_of_mem i hj) s' (hlater₁.trans hlater)

end Alike

/-! ### Rules for computations inside a block -/

theorem expands_pure {Q : Session → α → Prop} {a : α} (h : Q s a) :
    C.Expands s (pure a) (pure a) Q :=
  fun _ hl => alike_pure ⟨hl, h⟩

/-- Both sides decide alike. -/
theorem expands_ite {Q : Session → α → Prop} {c : Prop} [Decidable c] {x x' y y' : ExpandM α}
    (h : C.Expands s x x' Q) (h' : C.Expands s y y' Q) :
    C.Expands s (if c then x else y) (if c then x' else y') Q := by
  by_cases hc : c
  · rw [if_pos hc, if_pos hc]
    exact h
  · rw [if_neg hc, if_neg hc]
    exact h'

/-- The state of the block is one that may be expanded. -/
theorem expands_get : C.Expands s get get C.Sound := fun _ hl => alike_pure ⟨hl, hl⟩

theorem expands_set {l : Locals} (h : C.Sound s l) : C.Expands s (set l) (set l) Any :=
  fun _ _ => alike_pure ⟨h, trivial⟩

theorem expands_modify {u : Locals → Locals} (h : ∀ l, C.Sound s l → C.Sound s (u l)) :
    C.Expands s (modify u) (modify u) Any :=
  fun l hl => alike_pure ⟨h l hl, trivial⟩

theorem expands_throw {Q : Session → α → Prop} {e : Halt} (h : C.Halts s e) :
    C.Expands s (throw e) (throw e) Q :=
  fun _ _ => alike_throw h

namespace Expands

variable {x y : ExpandM α} {Q Q' : Session → α → Prop}

theorem bind {R : Session → β → Prop} {f g : α → ExpandM β} (h : C.Expands s x y Q)
    (hnext : ∀ a s', s.Later s' → Q s' a → C.Expands s' (f a) (g a) R) :
    C.Expands s (x >>= f) (y >>= g) R :=
  fun l hl => (h l hl).bind fun r s' hlater hr => hnext r.1 s' hlater hr.2 r.2 hr.1

/-- A computation on the session alone leaves the block as it is. -/
theorem lift {x y : SessionM α} (h : C.Alike s x y Q) : C.Expands s (liftM x) (liftM y) Q :=
  fun _ hl => h.bind fun _ _ hlater hQ => alike_pure ⟨hl.mono hlater, hQ⟩

theorem tryCatch {f g : Halt → ExpandM α} (h : C.Expands s x y Q)
    (hcatch : ∀ e s', s.Later s' → C.Halts s' e → C.Expands s' (f e) (g e) Q) :
    C.Expands s (MonadExcept.tryCatch x f) (MonadExcept.tryCatch y g) Q :=
  fun l hl => (h l hl).tryCatch fun e s' hlater he => hcatch e s' hlater he l (hl.mono hlater)

/-- Computations in turn. -/
theorem forM {γ : Type} {f g : γ → ExpandM Unit} {items : List γ}
    (h : ∀ i ∈ items, ∀ s', s.Later s' → C.Expands s' (f i) (g i) Any) :
    C.Expands s (items.forM f) (items.forM g) Any := by
  induction items generalizing s with
  | nil => exact expands_pure trivial
  | cons i items ih =>
    change C.Expands s (f i >>= fun _ => items.forM f) (g i >>= fun _ => items.forM g) Any
    refine (h i List.mem_cons_self s (.refl s)).bind fun _ s₁ hlater₁ _ => ?_
    exact ih fun j hj s' hlater => h j (List.mem_cons_of_mem i hj) s' (hlater₁.trans hlater)

/-- Computations in turn that hand on what they give. -/
theorem foldlM {γ δ : Type} {f g : δ → γ → ExpandM δ} {items : List γ} {init : δ}
    (h : ∀ d, ∀ i ∈ items, ∀ s', s.Later s' → C.Expands s' (f d i) (g d i) Any) :
    C.Expands s (items.foldlM f init) (items.foldlM g init) Any := by
  induction items generalizing s init with
  | nil => exact expands_pure trivial
  | cons i items ih =>
    rw [List.foldlM_cons, List.foldlM_cons]
    refine (h init i List.mem_cons_self s (.refl s)).bind fun _ s₁ hlater₁ _ => ?_
    exact ih fun d j hj s' hlater => h d j (List.mem_cons_of_mem i hj) s' (hlater₁.trans hlater)

end Expands

end Coupling

end Stylesheet
