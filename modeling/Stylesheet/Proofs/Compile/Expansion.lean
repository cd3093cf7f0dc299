import Stylesheet.Proofs.Compile.Engine
import Stylesheet.Proofs.Compile.Permeation

/-!
# Coupled expansions

Coupled engines expand blocks alike. This file goes through what each block and each
directive does, ties the knot by induction on the fuel, and ends with whole
stylesheets: under a lawful coupling two compilations of one source expand to the same
fragments, and if they end at an imbalance there is an unbalanced text among those that
were expanded.

## Main definitions

* `Outcome.ofExpansion` — what comes of a compilation, given how its expansion ends

## Main results

* `Coupling.Engines.block` — coupled engines do the same at a block
* `Coupling.Lawful.engines` — engines with the same fuel are coupled
* `Coupling.Lawful.expandSource` — so are the expansions of a stylesheet
* `Coupling.Ends.ofExpansion_eq` — and nothing else differs between the compilations
-/

namespace Stylesheet

open Text

namespace Coupling

variable {C : Coupling} {s : Session} {en en' : Engine} {frame : Frame}

/-! ### The state of a block -/

theorem expands_scopeIn :
    C.Expands s (scopeIn frame) (scopeIn frame) fun s' scope => C.Known s' scope.registry :=
  expands_get.bind fun _ _ _ hl => expands_pure hl.registry

theorem expands_emit (p : Property) : C.Expands s (emit p) (emit p) Any :=
  expands_modify fun _ hl => ⟨hl.registry, hl.children⟩

theorem expands_bindVar (name : Text) (v : Value) :
    C.Expands s (bindVar name v) (bindVar name v) Any :=
  expands_modify fun _ hl => ⟨hl.registry, hl.children⟩

theorem expands_addParents (parents : List Text) :
    C.Expands s (addParents parents) (addParents parents) Any :=
  expands_modify fun _ hl => ⟨hl.registry, hl.children⟩

theorem expands_report (severity : Severity) (file message : Text) :
    C.Expands s (liftM (report severity file message)) (liftM (report severity file message))
      Any :=
  .lift (alike_report severity file message)

theorem expands_modifySession {u : Session → Session} (hu : Session.Blind u)
    (hlater : s.Later (u s)) : C.Expands s (modifyThe Session u) (modifyThe Session u) Any :=
  .lift (alike_modify hu hlater)

theorem expands_getSession_bind {α : Type} {Q : Session → α → Prop} {f g : Session → ExpandM α}
    (h : ∀ t, C.Related s t → C.Expands s (f s) (g t) Q) :
    C.Expands s (getThe Session >>= f) (getThe Session >>= g) Q :=
  fun l hl => alike_get_bind fun t ht => h t ht l hl

theorem expands_setSession {u v : Session} (huv : C.Related u v) (hlater : s.Later u) :
    C.Expands s (set u) (set v) Any := by
  intro l hl t _
  refine ⟨rfl, huv, hlater, fun r hr => ?_, fun e he => by cases he⟩
  cases hr
  exact ⟨hl.mono hlater, trivial⟩

/-- A fragment is spawned with the definitions in force, so it waits soundly if its text
may be expanded. -/
theorem expands_spawn {make : Pending → Pending}
    (hcode : ∀ p, (make p).raw = none → C.Code s (make p).code)
    (hregistry : ∀ p, (make p).registry = p.registry) :
    C.Expands s (spawn frame make) (spawn frame make) Any := by
  refine (Expands.lift alike_freshId).bind fun id s₁ hlater₁ _ => ?_
  refine expands_get.bind fun l s₂ hlater₂ hl => ?_
  refine expands_set ⟨hl.registry, fun p hp => ?_⟩
  rcases List.mem_append.mp hp with hp | hp
  · exact hl.children p hp
  · obtain rfl := List.mem_singleton.mp hp
    refine ⟨fun hraw => (hcode _ hraw).mono (hlater₁.trans hlater₂), ?_⟩
    rw [hregistry]
    exact hl.registry

/-- Records an import, whose text may be expanded from then on. -/
theorem expands_recordImport (text : Text) :
    C.Expands s (modifyThe Session fun s => { s with imports := text :: s.imports })
      (modifyThe Session fun s => { s with imports := text :: s.imports })
      fun s' _ => text ∈ s'.imports := by
  intro l hl t ht
  have hlater : s.Later { s with imports := text :: s.imports } :=
    ⟨fun _ h => List.mem_cons_of_mem text h, Nat.le_refl _⟩
  have hrelated := ht.blind (u := fun s => { s with imports := text :: s.imports }) fun _ _ => rfl
  refine ⟨rfl, hrelated, hlater, fun r hr => ?_, fun e he => by cases he⟩
  cases hr
  exact ⟨hl.mono hlater, List.mem_cons_self⟩

/-- An option is unknown on both sides, or changes both sessions alike. -/
theorem applyOption_cases {t : Session} (ht : C.Related s t) (name value : Text) :
    (s.applyOption name value = none ∧ t.applyOption name value = none) ∨
      ∃ u v, s.applyOption name value = some u ∧ t.applyOption name value = some v ∧
        C.Related u v ∧ s.Later u := by
  unfold Session.applyOption
  dsimp only
  split_ifs
  · exact .inr ⟨_, _, rfl, rfl,
      ht.blind (u := fun s => { s with compress := parseFlag value s.compress })
        fun _ _ => rfl, fun _ h => h, Nat.le_refl _⟩
  · exact .inr ⟨_, _, rfl, rfl,
      ht.blind (u := fun s => { s with shortColors := parseFlag value s.shortColors })
        fun _ _ => rfl, fun _ h => h, Nat.le_refl _⟩
  · exact .inr ⟨_, _, rfl, rfl,
      ht.blind (u := fun s => { s with reverseColors := parseFlag value s.reverseColors })
        fun _ _ => rfl, fun _ h => h, Nat.le_refl _⟩
  · exact .inl ⟨rfl, rfl⟩

theorem expands_settleOption (pair : Text) :
    C.Expands s (settleOption frame pair) (settleOption frame pair) Any := by
  unfold settleOption
  split
  · exact expands_pure trivial
  · rename_i name value _
    refine (expands_modify fun l hl => ?_).bind fun _ s₁ _ _ => ?_
    · exact ⟨⟨hl.registry.mixins, hl.registry.functions, hl.registry.none_defined⟩, hl.children⟩
    refine expands_getSession_bind fun t ht => ?_
    rcases applyOption_cases ht (lower (trim name)) (trim value) with
      ⟨hs, ht⟩ | ⟨u, v, hs, ht, huv, hlater⟩
    · simp only [hs, ht]
      exact expands_report _ _ _
    · simp only [hs, ht]
      exact expands_setSession huv hlater

theorem expands_settleOptions (t : Text) :
    C.Expands s (settleOptions frame t) (settleOptions frame t) Any :=
  .forM fun pair _ _ _ => expands_settleOption pair

theorem expands_setDebug (t : Text) :
    C.Expands s (Engine.setDebug frame t) (Engine.setDebug frame t) Any :=
  (expands_modifySession (fun _ _ => rfl) ⟨fun _ h => h, Nat.le_refl _⟩).bind
    fun _ _ _ _ => expands_report _ _ _

/-! ### Definitions -/

/-- A definition may be added if its body may be expanded. A function is counted in the
session that it is added in. -/
theorem Known.define {s' : Session} {r : Registry} {c : Callable} (h : C.Known s r)
    (hlater : s.Later s') (hbody : C.Code s' c.body)
    (hcount : c.isFunction = true → s'.userFunctions ≠ 0) : C.Known s' (r.define c) := by
  have hentry {table : List ((Text × Nat) × Callable)} (htable : ∀ e ∈ table, C.Code s e.2.body)
      (e : (Text × Nat) × Callable) (he : e ∈ Registry.insertAll c c.arities table) :
      C.Code s' e.2.body := by
    rcases Registry.mem_insertAll he with rfl | he
    · exact hbody
    · exact (htable e he).mono hlater
  unfold Registry.define
  split_ifs with hfunction
  · exact ⟨fun e he => (h.mixins e he).mono hlater, hentry h.functions,
      fun hnone => absurd hnone (hcount hfunction)⟩
  · exact ⟨hentry h.mixins, fun e he => (h.functions e he).mono hlater,
      (h.mono hlater).none_defined⟩

theorem expands_defineMixin {make : Locals → Callable} (hbody : ∀ l, C.Code s (make l).body)
    (hmixin : ∀ l, (make l).isFunction = false) :
    C.Expands s (modify fun l => { l with registry := l.registry.define (make l) })
      (modify fun l => { l with registry := l.registry.define (make l) }) Any := by
  refine expands_modify fun l hl => ⟨?_, hl.children⟩
  exact hl.registry.define (.refl s) (hbody l) fun h => by simp [hmixin] at h

/-- A function is added and counted. In between there is one that is not counted yet, so
the two changes are one step. -/
theorem expands_defineFunction {make : Locals → Callable}
    (hbody : ∀ l s', C.Code s' (make l).body) :
    C.Expands s
      (do modify fun l => { l with registry := l.registry.define (make l) }
          modifyThe Session fun s => { s with userFunctions := s.userFunctions + 1 })
      (do modify fun l => { l with registry := l.registry.define (make l) }
          modifyThe Session fun s => { s with userFunctions := s.userFunctions + 1 }) Any := by
  intro l hl t ht
  have hlater : s.Later { s with userFunctions := s.userFunctions + 1 } :=
    ⟨fun _ h => h, Nat.le_succ _⟩
  have hrelated := ht.blind (u := fun s => { s with userFunctions := s.userFunctions + 1 })
    fun _ _ => rfl
  refine ⟨rfl, hrelated, hlater, fun r hr => ?_, fun e he => by cases he⟩
  cases hr
  refine ⟨⟨?_, fun p hp => (hl.children p hp).mono hlater⟩, trivial⟩
  exact hl.registry.define hlater (hbody l _) fun _ => Nat.succ_ne_zero _

/-! ### Directives -/

namespace Engines

theorem valueIn (h : C.Engines en en') (t : Text) :
    C.Expands s (en.valueIn frame t) (en'.valueIn frame t) Any :=
  expands_scopeIn.bind fun _ _ _ hscope => .lift (h.calculate hscope t)

theorem textIn (h : C.Engines en en') (t : Text) :
    C.Expands s (en.textIn frame t) (en'.textIn frame t) Any :=
  expands_scopeIn.bind fun _ _ _ hscope => .lift (h.resolveText hscope t)

theorem announce (h : C.Engines en en') (severity : Severity) (t : Text) :
    C.Expands s (en.announce frame severity t) (en'.announce frame severity t) Any :=
  (h.valueIn t).bind fun _ _ _ _ => expands_report _ _ _

theorem bareLine (h : C.Engines en en') (header : Text) :
    C.Expands s (en.bareLine frame header) (en'.bareLine frame header) Any :=
  (h.textIn header).bind fun _ _ _ _ => expands_emit _

theorem load (hC : C.Lawful) (name : Text) :
    C.Expands s (Engine.load C.left frame name) (Engine.load C.right frame name) Any := by
  have hsame : Engine.load C.right frame name = Engine.load C.left frame name := by
    rw [hC.right_eq]
    rfl
  rw [hsame]
  unfold Engine.load
  dsimp only
  split
  · split
    · exact expands_pure trivial
    · exact (expands_report _ _ _).bind fun _ _ _ _ => expands_pure trivial
  · split
    · exact expands_pure trivial
    · exact (expands_report _ _ _).bind fun _ _ _ _ => expands_pure trivial

/-- The text of an import may be expanded once it is recorded; an imbalance in it is
placed in its file and stays one. -/
theorem expandLoaded (h : C.Engines en en') (src : Loaded) :
    C.Expands s (en.expandLoaded frame src) (en'.expandLoaded frame src) Any := by
  refine (expands_modify fun l hl => ?_).bind fun _ s₁ _ _ => ?_
  · exact ⟨⟨hl.registry.mixins, hl.registry.functions, hl.registry.none_defined⟩, hl.children⟩
  refine (expands_recordImport _).bind fun _ s₂ _ hrecorded => ?_
  refine .tryCatch ((h.expand (.inr hrecorded)).bind fun _ _ _ _ => expands_pure trivial)
    fun e s₃ _ he => ?_
  cases e with
  | exhausted => exact expands_throw he
  | unbalanced e => exact expands_throw fun _ => he (by simp)

/-- Importing does the same if the options are those of both sides. -/
theorem importOne (h : C.Engines en en') (hC : C.Lawful) (name : Text) :
    C.Expands s (en.importOne C.left frame name) (en'.importOne C.right frame name) Any := by
  refine (h.textIn name).bind fun t s₁ _ _ => ?_
  dsimp only
  split_ifs
  · exact expands_emit _
  refine (load hC _).bind fun src s₂ _ _ => ?_
  cases src with
  | none => exact expands_pure trivial
  | some src =>
    refine expands_get.bind fun l _ _ _ => ?_
    split_ifs
    · exact expands_pure trivial
    · exact h.expandLoaded src

theorem doImport (h : C.Engines en en') (hC : C.Lawful) (t : Text) :
    C.Expands s (en.doImport C.left frame t) (en'.doImport C.right frame t) Any := by
  unfold Engine.doImport
  split_ifs
  · exact expands_report _ _ _
  · exact .forM fun name _ _ _ => h.importOne hC name

theorem define (h : C.Engines en en') {body : Text} (hbody : C.base body) (isFunction : Bool)
    (header : Text) : C.Expands s (en.define frame isFunction header body)
      (en'.define frame isFunction header body) Any := by
  refine (h.textIn _).bind fun t s₁ _ _ => ?_
  dsimp only
  split_ifs with hname hfunction
  · exact expands_report _ _ _
  · refine expands_defineFunction ?_
    exact fun _ _ => .inl hbody
  · have hmixin : isFunction = false := by simpa using hfunction
    refine Expands.bind (Q := Any) (expands_defineMixin ?_ ?_) fun _ _ _ _ => expands_pure trivial
    · exact fun _ => .inl hbody
    · exact fun _ => hmixin

theorem includeArgs (h : C.Engines en en') (texts : List Text) :
    C.Expands s (en.includeArgs frame texts) (en'.includeArgs frame texts) Any := by
  refine .foldlM fun d a _ s' _ => ?_
  dsimp only
  split
  · exact (h.valueIn _).bind fun _ _ _ _ => expands_pure trivial
  · exact (h.valueIn _).bind fun _ _ _ _ => expands_pure trivial

theorem doInclude (h : C.Engines en en') (header : Text) :
    C.Expands s (en.doInclude frame header) (en'.doInclude frame header) Any := by
  refine (h.textIn _).bind fun t s₁ _ _ => ?_
  refine (h.includeArgs _).bind fun args s₂ _ _ => ?_
  refine expands_get.bind fun l s₃ _ hl => ?_
  cases hm : Engine.findMixin l.registry (trim t) args.1 args.2 with
  | none => exact expands_report _ _ _
  | some found =>
    obtain ⟨m, positional⟩ := found
    -- A mixin that is found is one of the registry, whose bodies are related.
    obtain ⟨e, he, rfl⟩ := Engine.exists_of_findMixin hm
    have hbody := hl.registry.mixins e he
    refine (Expands.lift (h.bindArgs hl.registry e.2 positional args.2)).bind
      fun bound s₄ hlater _ => ?_
    refine Expands.bind (Q := Any) (expands_modify fun l hl => ?_) fun _ s₅ hlater' _ => ?_
    · exact ⟨hl.registry, hl.children⟩
    refine ((h.expand (hbody.mono (hlater.trans hlater'))).bind
      fun _ _ _ _ => expands_pure (Q := Any) trivial).bind fun _ _ _ _ => ?_
    exact expands_modify fun l hl => ⟨hl.registry, hl.children⟩

theorem doIf (h : C.Engines en en') {body : Text} (hbody : C.base body) (cond : Text) :
    C.Expands s (en.doIf frame cond body) (en'.doIf frame cond body) Any := by
  refine (h.valueIn cond).bind fun v s₁ _ _ => ?_
  split_ifs
  · exact (h.expand (.inl hbody)).bind fun _ _ _ _ => expands_pure trivial
  · exact expands_pure trivial

theorem doElse (h : C.Engines en en') {body : Text} (hbody : C.base body) (prev : Branch)
    (rest : Text) : C.Expands s (en.doElse frame prev rest body) (en'.doElse frame prev rest body)
      Any := by
  cases prev with
  | none => exact (expands_report _ _ _).bind fun _ _ _ _ => expands_pure trivial
  | taken => exact expands_pure trivial
  | skipped =>
    unfold Engine.doElse
    dsimp only
    split
    · exact h.doIf hbody _
    · exact (h.expand (.inl hbody)).bind fun _ _ _ _ => expands_pure trivial

/-- A loop, by induction on the items left. -/
theorem repeatBody (h : C.Engines en en') {α : Type} {bindItem : α → ExpandM Unit} {body : Text}
    (hbody : C.base body)
    (hbind : ∀ a (s' : Session), C.Expands s' (bindItem a) (bindItem a) Any) (items : List α) :
    C.Expands s (en.repeatBody frame bindItem body items)
      (en'.repeatBody frame bindItem body items) Any := by
  induction items generalizing s with
  | nil => exact expands_pure trivial
  | cons a rest ih =>
    refine (hbind a s).bind fun _ s₁ _ _ => ?_
    refine (h.expand (.inl hbody)).bind fun signal s₂ _ _ => ?_
    cases signal with
    | done => exact ih
    | returned v => exact expands_pure trivial

theorem doFor (h : C.Engines en en') {body : Text} (hbody : C.base body) (header : Text) :
    C.Expands s (en.doFor frame header body) (en'.doFor frame header body) Any := by
  unfold Engine.doFor
  split
  · exact (expands_report _ _ _).bind fun _ _ _ _ => expands_pure trivial
  · refine (h.valueIn _).bind fun first s₁ _ _ => ?_
    refine (h.valueIn _).bind fun last s₂ _ _ => ?_
    split
    · exact h.repeatBody hbody (fun _ _ => expands_bindVar _ _) _
    · exact (expands_report _ _ _).bind fun _ _ _ _ => expands_pure trivial

theorem bindMember (header : EachHeader) (item : Entry) :
    C.Expands s (Engine.bindMember header item) (Engine.bindMember header item) Any := by
  unfold Engine.bindMember
  cases header.second with
  | none =>
    split_ifs
    · exact (expands_bindVar _ _).bind fun _ _ _ _ => expands_bindVar _ _
    · exact expands_bindVar _ _
  | some second =>
    have hrest (s' : Session) := (@expands_bindVar C s' header.first
      (.plain (without item.1 [ch '$']))).bind fun _ _ _ _ => expands_bindVar second item.2
    split_ifs
    · exact (expands_bindVar _ _).bind fun _ s' _ _ => hrest s'
    · exact hrest s

theorem doEach (h : C.Engines en en') {body : Text} (hbody : C.base body) (header : Text) :
    C.Expands s (en.doEach frame header body) (en'.doEach frame header body) Any := by
  unfold Engine.doEach
  split
  · exact (expands_report _ _ _).bind fun _ _ _ _ => expands_pure trivial
  · rename_i header _
    have hloop (s' : Session) (items : List Entry) :
        C.Expands s' (en.repeatBody frame (Engine.bindMember header) body items)
          (en'.repeatBody frame (Engine.bindMember header) body items) Any :=
      h.repeatBody hbody (fun item _ => bindMember header item) items
    refine expands_scopeIn.bind fun scope s₁ _ hscope => ?_
    refine (Expands.lift (h.evaluate hscope)).bind fun r s₂ _ _ => ?_
    dsimp only
    split_ifs
    · exact (expands_report _ _ _).bind fun _ s' _ _ => hloop s' _
    · exact hloop s₂ _

theorem bindBlock (h : C.Engines en en') {body : Text} (hbody : C.base body) :
    C.Expands s (en.bindBlock frame body) (en'.bindBlock frame body) Any := by
  refine (h.expand (.inl hbody)).bind fun signal _ _ _ => ?_
  cases signal <;> exact expands_pure trivial

theorem media (h : C.Engines en en') {body : Text} (hbody : C.base body) (query : Text) :
    C.Expands s (en.media frame query body) (en'.media frame query body) Any := by
  unfold Engine.media
  split_ifs
  · refine (h.textIn query).bind fun t _ _ _ => ?_
    exact expands_spawn (fun _ _ => .inl hbody) fun _ => rfl
  · exact expands_pure trivial

theorem rawBlock (h : C.Engines en en') (header body : Text) :
    C.Expands s (en.rawBlock frame header body) (en'.rawBlock frame header body) Any := by
  have hspawn (s' : Session) (header : Text) : C.Expands s'
      (do let t ← en.textIn frame body
          spawn frame fun p => { p with selectors := [], raw := some ⟨header, trim t⟩ })
      (do let t ← en'.textIn frame body
          spawn frame fun p => { p with selectors := [], raw := some ⟨header, trim t⟩ }) Any := by
    refine (h.textIn body).bind fun t _ _ _ => ?_
    exact expands_spawn (fun _ hraw => by cases hraw) fun _ => rfl
  unfold Engine.rawBlock
  split_ifs
  · refine (h.textIn header).bind fun t s₁ _ _ => ?_
    exact (expands_report _ _ _).bind fun _ s' _ _ => hspawn s' _
  · exact (h.textIn header).bind fun t s₁ _ _ => hspawn s₁ _
  · exact expands_pure trivial

/-! ### Blocks -/

theorem blockDirective (h : C.Engines en en') {body : Text} (hbody : C.base body) (prev : Branch)
    (code name header : Text) : C.Expands s (en.blockDirective frame prev code name header body)
      (en'.blockDirective frame prev code name header body) Any := by
  unfold Engine.blockDirective
  refine expands_ite ?_ (expands_ite ?_ (expands_ite ?_ (expands_ite ?_ (expands_ite ?_
    (expands_ite ?_ (expands_ite ?_ (expands_ite ?_ ?_)))))))
  · exact h.doIf hbody name
  · exact h.doElse hbody prev name
  · exact (h.doFor hbody name).bind fun _ _ _ _ => expands_pure trivial
  · exact (h.doEach hbody name).bind fun _ _ _ _ => expands_pure trivial
  · exact (h.bindBlock hbody).bind fun _ _ _ _ => expands_pure trivial
  · exact (h.define hbody false name).bind fun _ _ _ _ => expands_pure trivial
  · exact (h.define hbody true name).bind fun _ _ _ _ => expands_pure trivial
  · exact (h.media hbody name).bind fun _ _ _ _ => expands_pure trivial
  · exact (h.rawBlock header body).bind fun _ _ _ _ => expands_pure trivial

/-- A directive takes no account of a body on both sides or on none. -/
theorem lineDirective? (h : C.Engines en en') (hC : C.Lawful) (frame : Frame)
    (code name : Text) : Option.Rel (fun x y => ∀ s : Session, C.Expands s x y Any)
      (en.lineDirective? C.left frame code name) (en'.lineDirective? C.right frame code name) := by
  have hdone {x y : ExpandM Unit} (hxy : ∀ s : Session, C.Expands s x y Any) (s : Session) :
      C.Expands s (do x; return Signal.done) (do y; return Signal.done) Any :=
    (hxy s).bind fun _ _ _ _ => expands_pure trivial
  have hite {c : Prop} [Decidable c] {x x' y y' : Option (ExpandM Signal)}
      (hx : Option.Rel (fun x y => ∀ s : Session, C.Expands s x y Any) x x')
      (hy : Option.Rel (fun x y => ∀ s : Session, C.Expands s x y Any) y y') :
      Option.Rel (fun x y => ∀ s : Session, C.Expands s x y Any) (if c then x else y)
        (if c then x' else y') := by
    by_cases hc : c
    · rwa [if_pos hc, if_pos hc]
    · rwa [if_neg hc, if_neg hc]
  unfold Engine.lineDirective?
  -- One case for each directive, in the order they are tried.
  refine hite ?_ (hite ?_ (hite ?_ (hite ?_ (hite ?_ (hite ?_ (hite ?_ (hite ?_ (hite ?_ ?_))))))))
  · exact .some (hdone fun _ => h.announce _ _)
  · exact .some (hdone fun _ => h.announce _ _)
  · exact .some (hdone fun _ => expands_emit _)
  · exact .some (hdone fun _ => expands_setDebug _)
  · exact .some (hdone fun _ => expands_settleOptions _)
  · exact .some (hdone fun _ => h.doImport hC _)
  · exact .some (hdone fun _ => (h.textIn _).bind fun _ _ _ _ => expands_addParents _)
  · exact .some (hdone fun _ => h.doInclude _)
  · refine .some fun _ => expands_scopeIn.bind fun scope _ _ hscope => ?_
    exact (Expands.lift (h.returnValue hC hscope _)).bind fun _ _ _ _ => expands_pure trivial
  · exact .none

theorem directive (h : C.Engines en en') (hC : C.Lawful) {body : Option Text}
    (hbody : ∀ t, body = some t → C.base t) (prev : Branch) (header : Text) :
    C.Expands s (en.directive C.left frame prev header body)
      (en'.directive C.right frame prev header body) Any := by
  unfold Engine.directive
  dsimp only
  have hline := h.lineDirective? hC frame (splitDirective header).1 (splitDirective header).2
  generalize en.lineDirective? C.left frame _ _ = left at hline
  generalize en'.lineDirective? C.right frame _ _ = right at hline
  cases hline with
  | some hxy => exact (hxy s).bind fun _ _ _ _ => expands_pure trivial
  | none =>
    cases body with
    | none => exact (h.bareLine header).bind fun _ _ _ _ => expands_pure trivial
    | some t => exact h.blockDirective (hbody t rfl) prev _ _ header

theorem assignVar (h : C.Engines en en') (name t : Text) :
    C.Expands s (en.assignVar frame name t) (en'.assignVar frame name t) Any := by
  unfold Engine.assignVar
  dsimp only
  split_ifs
  · refine expands_get.bind fun l _ _ _ => ?_
    split_ifs
    · exact (h.valueIn _).bind fun _ _ _ _ => expands_bindVar _ _
    · exact expands_pure trivial
  · exact (h.valueIn _).bind fun _ _ _ _ => expands_bindVar _ _

theorem declaration (h : C.Engines en en') (header : Text) :
    C.Expands s (en.declaration frame header) (en'.declaration frame header) Any := by
  unfold Engine.declaration
  split
  · refine (h.textIn header).bind fun t _ _ _ => ?_
    dsimp only
    split_ifs
    · exact expands_emit _
    · exact expands_pure trivial
  · dsimp only
    split_ifs
    · exact expands_pure trivial
    · exact h.assignVar _ _
    · refine (h.textIn _).bind fun t _ _ _ => ?_
      exact (h.valueIn _).bind fun _ _ _ _ => expands_emit _

theorem namespaceBlock (h : C.Engines en en') {body : Text} (hbody : C.base body) (name : Text) :
    C.Expands s (en.namespaceBlock frame name body) (en'.namespaceBlock frame name body) Any :=
  (h.textIn name).bind fun _ _ _ _ => h.expand (.inl hbody)

theorem nest (h : C.Engines en en') {body : Text} (hbody : C.base body) (header : Text) :
    C.Expands s (en.nest frame header body) (en'.nest frame header body) Any := by
  unfold Engine.nest
  split_ifs
  · exact h.expand (.inl hbody)
  · exact expands_pure trivial
  · refine (h.textIn header).bind fun t _ _ _ => ?_
    dsimp only
    split_ifs
    · refine Expands.bind (Q := Any) ?_ fun _ _ _ _ => expands_pure trivial
      exact expands_spawn (fun _ _ => .inl hbody) fun _ => rfl
    · exact expands_pure trivial

/-- Coupled engines do the same at a block. -/
theorem block (h : C.Engines en en') (hC : C.Lawful) {b : Block}
    (hbody : ∀ t, b.body = some t → C.base t) (prev : Branch) :
    C.Expands s (en.block C.left frame prev b) (en'.block C.right frame prev b) Any := by
  unfold Engine.block
  cases hb : b.body with
  | none =>
    dsimp only
    split_ifs
    · exact h.directive hC (fun t ht => by cases ht) prev _
    · exact (h.declaration _).bind fun _ _ _ _ => expands_pure trivial
  | some body =>
    have hbase := hbody body hb
    dsimp only
    split_ifs
    · refine h.directive hC (fun t ht => ?_) prev _
      cases ht
      exact hbase
    · exact (h.namespaceBlock hbase _).bind fun _ _ _ _ => expands_pure trivial
    · exact (h.nest hbase _).bind fun _ _ _ _ => expands_pure trivial
    · exact expands_pure trivial

/-- The blocks of a text, by induction on those left. The failure at their end is that
of a text that may be expanded. -/
theorem blocks (h : C.Engines en en') (hC : C.Lawful) {failure : Option StructuralError}
    {code : Text} (hcode : C.Code s code) (hfailure : failure ≠ none → (locate code).2 ≠ none)
    {found : List Block} (hfound : found ⊆ (locate code).1) (prev : Branch) :
    C.Expands s (en.blocks C.left frame failure prev found)
      (en'.blocks C.right frame failure prev found) Any := by
  induction found generalizing s prev with
  | nil =>
    cases failure with
    | none => exact expands_pure trivial
    | some e => exact expands_throw fun _ => ⟨code, hcode, hfailure (by simp)⟩
  | cons b rest ih =>
    have hb : b ∈ (locate code).1 := hfound List.mem_cons_self
    refine (h.block hC (fun t ht => hC.base_body hb ht) prev).bind fun r s₁ hlater _ => ?_
    obtain ⟨signal, branch⟩ := r
    cases signal with
    | returned v => exact expands_pure trivial
    | done => exact ih (hcode.mono hlater) (fun c hc => hfound (List.mem_cons_of_mem b hc)) branch

theorem expandWith (h : C.Engines en en') (hC : C.Lawful) {code : Text} (hcode : C.Code s code) :
    C.Expands s (en.expandWith C.left frame code) (en'.expandWith C.right frame code) Any :=
  h.blocks hC hcode id (fun _ hb => hb) .none

end Engines

/-! ### Stylesheets -/

/-- Engines with the same fuel are coupled. -/
theorem Lawful.engines (hC : C.Lawful) (fuel : Nat) :
    C.Engines (engine C.left fuel) (engine C.right fuel) := by
  induction fuel with
  | zero =>
    exact ⟨fun _ => expands_throw fun h => absurd rfl h, fun _ => alike_throw fun h => absurd rfl h⟩
  | succ fuel ih =>
    exact ⟨fun hcode => ih.expandWith hC hcode, fun hscope => ih.evaluateWith hC hscope _⟩

/-- A fragment that waits is expanded alike, and its children wait. -/
theorem Engines.expandPending (h : C.Engines en en') {p : Pending} (hp : C.Waits s p)
    (order : Nat) : C.Alike s (expandPending en order p) (expandPending en' order p)
      fun s' r => ∀ q ∈ r.2, C.Waits s' q := by
  unfold Stylesheet.expandPending
  dsimp only
  split_ifs with hraw
  · exact alike_pure (by simp)
  · have hcode := hp.code (by simpa using hraw)
    refine (h.expand hcode _ ⟨hp.registry, by simp⟩).bind fun r _ _ hr => ?_
    exact alike_pure hr.1.children

/-- The fragments of a stylesheet, by induction on the fuel: the fragments that wait are
those spawned before, whose children are put before them. -/
theorem Engines.drain (h : C.Engines en en') {queue : List Pending}
    (hqueue : ∀ p ∈ queue, C.Waits s p) (fuel order : Nat) :
    C.Alike s (drain en fuel order queue) (drain en' fuel order queue) Any := by
  induction fuel generalizing s queue order with
  | zero =>
    cases queue with
    | nil => exact alike_pure trivial
    | cons p queue => exact alike_throw fun h => absurd rfl h
  | succ fuel ih =>
    cases queue with
    | nil => exact alike_pure trivial
    | cons p queue =>
      refine (h.expandPending (hqueue p List.mem_cons_self) order).bind
        fun r s₁ hlater hchildren => ?_
      refine (ih (fun q hq => ?_) (order + 1)).bind fun _ _ _ _ => alike_pure trivial
      -- A fragment that waits is a new child or was waiting before.
      rcases List.mem_append.mp hq with hq | hq
      · exact hchildren q hq
      · exact (hqueue q (List.mem_cons_of_mem p hq)).mono hlater

/-- Under a lawful coupling a stylesheet is expanded alike. -/
theorem Lawful.expandSource (hC : C.Lawful) {source : Text} (hsource : C.base (normalize source))
    (fuel : Nat) :
    C.Alike s (expandSource fuel C.left source) (expandSource fuel C.right source) Any := by
  have hroot :
      rootFragment C.right (normalize source) = rootFragment C.left (normalize source) := by
    rw [hC.right_eq]
    rfl
  have hfile : C.right.filename = C.left.filename := by rw [hC.right_eq]
  have hdrain : C.Alike s
      (Stylesheet.drain (engine C.left fuel) fuel 0 [rootFragment C.left (normalize source)])
      (Stylesheet.drain (engine C.right fuel) fuel 0 [rootFragment C.right (normalize source)])
      Any := by
    rw [hroot]
    refine (hC.engines fuel).drain (fun p hp => ?_) fuel 0
    obtain rfl := List.mem_singleton.mp hp
    exact ⟨fun _ => .inl hsource, ⟨by simp [rootFragment], by simp [rootFragment], fun _ => rfl⟩⟩
  -- What is caught is placed in the file and thrown again, the same on both sides.
  refine hdrain.tryCatch fun e s' _ he => ?_
  cases e with
  | exhausted => exact alike_throw he
  | unbalanced e =>
    dsimp only
    rw [hfile]
    exact alike_throw fun _ => he (by simp)

end Coupling

/-- What comes of a compilation whose expansion ends in this way. -/
def Outcome.ofExpansion : Except Halt (List Fragment) × Session → Outcome
  | (.error halt, s) => ⟨.error halt, s.diagnostics⟩
  | (.ok fragments, s) =>
    let (compiled, warnings) := finishFragments s.style fragments
    ⟨.ok compiled, s.diagnostics ++ warnings⟩

theorem compileWith_eq (fuel : Nat) (opts : Options) (source : Text) :
    compileWith fuel opts source =
      .ofExpansion (outcome (expandSource fuel opts source) opts.session) := by
  unfold compileWith outcome
  rcases StateT.run _ _ with ⟨r, s⟩
  cases r <;> rfl

/-- Expansions that end alike give the same result and the same diagnostics. -/
theorem Coupling.Ends.ofExpansion_eq {C : Coupling} {s : Session}
    {Q : Session → List Fragment → Prop} {o o' : Except Halt (List Fragment) × Session}
    (h : C.Ends s Q o o') : Outcome.ofExpansion o = .ofExpansion o' := by
  obtain ⟨r, t⟩ := o
  obtain ⟨r', t'⟩ := o'
  obtain rfl : r = r' := h.same
  have hrest : t' = { t with cache := t'.cache } := h.related.rest
  have hdiagnostics : t'.diagnostics = t.diagnostics := by rw [hrest]
  have hstyle : t'.style = t.style := by
    rw [hrest]
    rfl
  cases r with
  | error halt => simp only [Outcome.ofExpansion, hdiagnostics]
  | ok fragments => simp only [Outcome.ofExpansion, hdiagnostics, hstyle]

end Stylesheet
