import Stylesheet.Proofs.Compile.Watched

/-!
# What expansion does with imports

The expansion of a text calls on the engine for the bodies of its blocks, which are shorter, and
for imports, after which there is one path less to import. This file goes through the directives
and shows that with an engine that serves for these the expansion of the text converges.

## Main definitions

* `Loaded.Bounded` — imports with a path within bounds
* `Serves` — engines that expand shorter texts, and any text once more is imported

## Main results

* `load_cases`, `load_of_found` — what a load finds, and which files it cannot read
* `Serves.expandLoaded` — an import
* `Serves.blocks` — the blocks of a text
-/

namespace Stylesheet

open Text

variable {α β : Type} {opts : Options} {size : Nat} {chain : List Text} {file dir : Text}
  {l : Locals}

/-! ### Imports -/

/-- What a load finds: a path within bounds, and a text in which nothing is defined or included. -/
structure Loaded.Bounded (opts : Options) (src : Loaded) : Prop where
  file : src.file.length ≤ opts.pathBound
  dir : Path.ascents src.dir ≤ opts.ascents
  straight : Straight (src.text.map (·.1))

/-- A load finds an import within bounds, or reports why there is none. -/
theorem load_cases (hopts : opts.Straight) {frame : Frame}
    (hdir : Path.ascents frame.dir ≤ opts.ascents) (name : Text) :
    (∃ src : Loaded, Engine.load opts frame name = pure (some src) ∧ src.Bounded opts) ∨
      ∃ message, Engine.load opts frame name =
        (do report .warning frame.file message; return none) := by
  unfold Engine.load
  dsimp only
  generalize (if opts.filename.isEmpty then of "." else Path.dir opts.filename) = root
  cases hfound : (Resolver.standard root opts.loadPaths).resolve opts.tree name frame.dir with
  | error e =>
    refine .inr ⟨e.message, ?_⟩
    simp [hopts.magic]
  | ok found =>
    dsimp only
    cases hread : opts.tree.read found.path with
    | error e => exact .inr ⟨_, rfl⟩
    | ok content =>
      refine .inl ⟨_, rfl, ?_⟩
      have hpaths : ∀ q ∈ opts.loadPaths, Path.ascents q ≤ opts.ascents := fun q hq =>
        Nat.le_trans (List.le_sum_of_mem (List.mem_map.mpr ⟨q, hq, rfl⟩)) (Nat.le_add_left _ _)
      obtain ⟨d, n, hpath, hascents⟩ :=
        Resolver.ascents_le_of_resolve hopts.cwd hpaths hdir hfound
      refine ⟨?_, Nat.le_trans (Path.ascents_dir_le _) hascents, ?_⟩
      · rw [hpath] at hread hascents ⊢
        refine Nat.le_trans (FileTree.length_le_of_read hopts.cwd hread) ?_
        exact Nat.add_le_add_right (Nat.add_le_add_left (Nat.mul_le_mul_left 3 hascents) _) 1
      · exact hopts.files _ (FileTree.mem_files_of_read hread)

/-- An import for which there is a file gives the text of that, unless it cannot be read: then it
is reported with the path and the reason, and gives nothing. -/
theorem load_of_found {frame : Frame} {name : Text} {found : Resolved}
    (hfound : (Resolver.standard (if opts.filename.isEmpty then of "." else Path.dir opts.filename)
      opts.loadPaths).resolve opts.tree name frame.dir = .ok found) :
    (opts.tree.key found.path ∈ opts.tree.unreadable → Engine.load opts frame name = (do
      report .warning frame.file (of "cannot read " ++ found.path ++ of ": " ++
        opts.tree.describe (.denied (opts.tree.shown found.path)))
      return none)) ∧
    (opts.tree.key found.path ∉ opts.tree.unreadable → ∃ content,
      opts.tree.read found.path = .ok content ∧ Engine.load opts frame name =
        pure (some ⟨normalizeTracked content, found.path, Path.dir found.path⟩)) := by
  obtain ⟨hdenied, hread⟩ := FileTree.read_of_isFile (Resolver.isFile_of_resolve hfound)
  unfold Engine.load
  dsimp only
  rw [hfound]
  dsimp only
  refine ⟨fun hmem => ?_, fun hmem => ?_⟩
  · rw [hdenied hmem]
  · obtain ⟨content, hcontent⟩ := hread hmem
    exact ⟨content, hcontent, by rw [hcontent]⟩

/-- An import converges if the expansion of its text does. -/
theorem Converges.expandLoaded {en : Nat → Engine} {frame : Frame} {src : Loaded}
    {P : Locals → Prop}
    (h : Converges (fun n => ((en n).expand { frame with file := src.file, dir := src.dir }
        (src.text.map (·.1))).run
          { l with registry := { l.registry with imported := src.file :: l.registry.imported } })
      fun r => P r.2) :
    Converges (fun n => ((en n).expandLoaded frame src).run l) fun r => P r.2 := by
  intro s
  obtain ⟨n, o, ho, hne, hP⟩ := h { s with imports := src.text.map (·.1) :: s.imports }
  have hend (m : Nat) (hm : m ≥ n) := outcome_expandLoaded (en m) frame src l s
  simp only [ge_iff_le] at hend ho
  obtain ⟨(e | _) | ⟨signal, l'⟩, s'⟩ := o
  · let placed := placeError e src.file (originOf (src.text.map (·.2)))
    exact ⟨n, (.error (.unbalanced placed), s'),
      fun m hm => (hend m hm).trans (by rw [ho m hm]), nofun, nofun⟩
  · exact absurd rfl hne
  · refine ⟨n, (.ok ((), l'), s'), fun m hm => (hend m hm).trans (by rw [ho m hm]), nofun, ?_⟩
    intro a ha
    cases ha
    exact hP _ rfl

/-- Engines that expand texts shorter than `size`, and any text once more imports are known than
those of the chain. -/
structure Serves (opts : Options) (chain : List Text) (size : Nat) (en : Nat → Engine) : Prop where
  expand : ∀ {frame : Frame} {body : Text} {l : Locals}, Straight body →
    Site opts frame.file frame.dir l.registry → chain <:+ l.registry.imported →
    chain.length < l.registry.imported.length ∨ body.length < size →
    Converges (fun n => ((en n).expand frame body).run l) fun r => l.Follows opts body.length r.2
  evaluate : ∀ {scope : Scope}, scope.registry.functions = [] → ∀ t,
    Converges (fun n => (en n).evaluate scope t) fun _ => True

/-- A block in a text of length `size` that defines and includes nothing. -/
structure Block.Straight (size : Nat) (b : Block) : Prop where
  keyword : (splitDirective (expandShorthand b.header)).1 ∉
    [of "@mixin", of "@function", of "@include"]
  straight : ∀ body, b.body = some body → Stylesheet.Straight body
  shorter : ∀ body, b.body = some body → body.length < size

theorem Straight.blocks {code : Text} (h : Straight code) :
    ∀ b ∈ (locate code).1, b.Straight code.length := by
  obtain ⟨keywords, bodies⟩ := h
  exact fun b hb => ⟨keywords b hb, bodies b hb, fun body hbody => length_lt_of_mem_locate hb hbody⟩

namespace Serves

variable {en : Nat → Engine} {frame : Frame}

/-- The body of a block, in a frame that differs neither in its file nor in its directory. -/
theorem body (h : Serves opts chain size en) {b : Block} (hb : b.Straight size) {body : Text}
    (hbody : b.body = some body) (frame : Frame) :
    Runs opts chain frame.file frame.dir size fun n => (en n).expand frame body := by
  intro l hsite hchain
  have hshorter := hb.shorter body hbody
  refine (h.expand (hb.straight body hbody) hsite hchain (.inr hshorter)).mono fun r hr => ?_
  exact hr.mono (Nat.le_of_lt hshorter)

theorem valueIn (h : Serves opts chain size en) (t : Text) :
    Runs opts chain file dir size fun n => (en n).valueIn frame t :=
  .inScope fun _ hnone => .lift (h.evaluate hnone t).calculate

theorem resolveText (h : Serves opts chain size en) {scope : Scope}
    (hnone : scope.registry.functions = []) (t : Text) :
    Converges (fun n => (en n).resolveText scope t) fun _ => True :=
  (Converges.interpolate fun e _ => h.evaluate hnone e).bind fun _ _ => converges_pure trivial

theorem textIn (h : Serves opts chain size en) (t : Text) :
    Runs opts chain file dir size fun n => (en n).textIn frame t :=
  .inScope fun _ hnone => .lift (h.resolveText hnone t)

/-- An import that is not known yet is expanded in place; it is known from then on. -/
theorem expandLoaded (h : Serves opts chain size en) {src : Loaded} (hsrc : src.Bounded opts)
    (hsite : Site opts frame.file frame.dir l.registry) (hchain : chain <:+ l.registry.imported)
    (hnew : src.file ∉ l.registry.imported) :
    Converges (fun n => ((en n).expandLoaded frame src).run l)
      fun r => l.Follows opts size r.2 := by
  let l₁ : Locals :=
    { l with registry := { l.registry with imported := src.file :: l.registry.imported } }
  have hsite₁ : Site opts src.file src.dir l₁.registry := by
    refine ⟨⟨hsite.tame.functions, ?_, ?_⟩, ?_, hsrc.dir⟩
    · exact List.nodup_cons.mpr ⟨hnew, hsite.tame.nodup⟩
    · exact List.forall_mem_cons.mpr ⟨hsrc.file, hsite.tame.bounded⟩
    · exact List.mem_cons_of_mem _ List.mem_cons_self
  have hchain₁ : chain <:+ l₁.registry.imported := hchain.trans (List.suffix_cons _ _)
  have hlonger : chain.length < l₁.registry.imported.length :=
    Nat.lt_succ_of_le hchain.length_le
  let inner : Frame := { frame with file := src.file, dir := src.dir }
  have hexpand : Converges (fun n => ((en n).expand inner (src.text.map (·.1))).run l₁)
      fun r => l₁.Follows opts (src.text.map (·.1)).length r.2 :=
    h.expand hsrc.straight hsite₁ hchain₁ (.inl hlonger)
  exact (Converges.expandLoaded hexpand).mono fun r hr => hr.of_import

theorem importOne (h : Serves opts chain size en) (hopts : opts.Straight) (name : Text) :
    Runs opts chain frame.file frame.dir size fun n => (en n).importOne opts frame name := by
  refine (h.textIn name).bind fun t => Runs.ite (runs_emit _) ?_
  intro l hsite hchain
  rcases load_cases hopts hsite.near (dequote (restore t)) with
    ⟨src, hload, hbounded⟩ | ⟨message, hload⟩
  · simp only [hload, pure_bind]
    refine Runs.get (fun l hsite hchain => ?_) l hsite hchain
    by_cases himported : l.registry.imported.contains src.file = true
    · simp only [himported, if_true]
      exact runs_pure () l hsite hchain
    · simp only [himported]
      exact h.expandLoaded hbounded hsite hchain (by simpa using himported)
  · simp only [hload, bind_assoc, pure_bind]
    exact ((runs_report _ _ _).bind fun _ => runs_pure ()) l hsite hchain

theorem doImport (h : Serves opts chain size en) (hopts : opts.Straight) (t : Text) :
    Runs opts chain frame.file frame.dir size fun n => (en n).doImport opts frame t :=
  .ite (runs_report _ _ _) (.forM (fun name => h.importOne hopts name) _)

/-! ### Directives -/

theorem doIf (h : Serves opts chain size en) {b : Block} (hb : b.Straight size) {body : Text}
    (hbody : b.body = some body) (cond : Text) :
    Runs opts chain frame.file frame.dir size fun n => (en n).doIf frame cond body :=
  (h.valueIn cond).bind fun _ =>
    .ite ((h.body hb hbody frame).bind fun _ => runs_pure _) (runs_pure _)

theorem doElse (h : Serves opts chain size en) {b : Block} (hb : b.Straight size) {body : Text}
    (hbody : b.body = some body) (prev : Branch) (rest : Text) :
    Runs opts chain frame.file frame.dir size fun n => (en n).doElse frame prev rest body := by
  unfold Engine.doElse
  cases prev with
  | none => exact (runs_report _ _ _).bind fun _ => runs_pure _
  | taken => exact runs_pure _
  | skipped =>
    dsimp only
    split
    · exact h.doIf hb hbody _
    · exact (h.body hb hbody frame).bind fun _ => runs_pure _

/-- A loop, by induction on the items left. -/
theorem repeatBody (h : Serves opts chain size en) {b : Block} (hb : b.Straight size) {body : Text}
    (hbody : b.body = some body) {bindItem : α → ExpandM Unit}
    (hitem : ∀ a, Runs opts chain frame.file frame.dir size fun _ => bindItem a) (items : List α) :
    Runs opts chain frame.file frame.dir size fun n =>
      (en n).repeatBody frame bindItem body items := by
  induction items with
  | nil => exact runs_pure _
  | cons a items ih =>
    refine (hitem a).bind fun _ => (h.body hb hbody frame).bind fun signal => ?_
    cases signal with
    | returned v => exact runs_pure _
    | done => exact ih

theorem doFor (h : Serves opts chain size en) {b : Block} (hb : b.Straight size) {body : Text}
    (hbody : b.body = some body) (header : Text) :
    Runs opts chain frame.file frame.dir size fun n => (en n).doFor frame header body := by
  unfold Engine.doFor
  split
  · exact (runs_report _ _ _).bind fun _ => runs_pure _
  · refine (h.valueIn _).bind fun first => (h.valueIn _).bind fun last => ?_
    split
    · exact h.repeatBody hb hbody (fun _ => runs_bindVar _ _) _
    · exact (runs_report _ _ _).bind fun _ => runs_pure _

theorem bindMember (header : EachHeader) (item : Entry) :
    Runs opts chain file dir size fun _ => Engine.bindMember header item := by
  unfold Engine.bindMember
  cases header.second with
  | none => exact .ite ((runs_bindVar _ _).bind fun _ => runs_bindVar _ _) (runs_bindVar _ _)
  | some second =>
    let both : ExpandM Unit := do
      Stylesheet.bindVar header.first (.plain (without item.1 [ch '$']))
      Stylesheet.bindVar second item.2
    have hboth : Runs opts chain file dir size fun _ => both :=
      (runs_bindVar _ _).bind fun _ => runs_bindVar _ _
    exact .ite ((runs_bindVar _ _).bind fun _ => hboth) hboth

theorem doEach (h : Serves opts chain size en) {b : Block} (hb : b.Straight size) {body : Text}
    (hbody : b.body = some body) (header : Text) :
    Runs opts chain frame.file frame.dir size fun n => (en n).doEach frame header body := by
  unfold Engine.doEach
  split
  · exact (runs_report _ _ _).bind fun _ => runs_pure _
  · next header _ =>
    refine .inScope fun scope hnone => (Runs.lift (h.evaluate hnone _)).bind fun r => ?_
    have hloop : Runs opts chain frame.file frame.dir size fun n =>
        (en n).repeatBody frame (Engine.bindMember header) body r.1.toEntries.2 :=
      h.repeatBody hb hbody (fun item => bindMember header item) _
    exact .ite ((runs_report _ _ _).bind fun _ => hloop) hloop

theorem bindBlock (h : Serves opts chain size en) {b : Block} (hb : b.Straight size) {body : Text}
    (hbody : b.body = some body) :
    Runs opts chain frame.file frame.dir size fun n => (en n).bindBlock frame body := by
  refine (h.body hb hbody { frame with binds := true }).bind fun signal => ?_
  cases signal <;> exact runs_pure _

/-! ### Fragments -/

/-- A fragment is spawned with a body shorter than the text, and knows the imports known
here. -/
theorem runs_spawn {make : Pending → Pending}
    (hplace : ∀ p, (make p).file = p.file ∧ (make p).dir = p.dir ∧ (make p).registry = p.registry)
    (hcode : ∀ p, (make p).raw = none → Straight (make p).code ∧ (make p).code.length < size) :
    Runs opts chain frame.file frame.dir size fun _ => spawn frame make := by
  intro l hsite _ s
  refine ⟨0, _, fun _ _ => rfl, nofun, fun r hr => ?_⟩
  cases hr
  refine ⟨hsite.tame, List.suffix_rfl, _, rfl, fun c hc => ?_⟩
  obtain rfl := List.mem_singleton.mp hc
  obtain ⟨hfile, hdir, hregistry⟩ := hplace
    { id := s.nextId, file := frame.file, dir := frame.dir, selectors := frame.selectors,
      media := frame.media, context := l.vars, registry := l.registry }
  refine ⟨?_, ?_, fun hraw => (hcode _ hraw).1, fun hraw => .inr (hcode _ hraw).2⟩
  · rw [hfile, hdir, hregistry]
    exact hsite
  · rw [hregistry]

theorem media (h : Serves opts chain size en) {b : Block} (hb : b.Straight size) {body : Text}
    (hbody : b.body = some body) (query : Text) :
    Runs opts chain frame.file frame.dir size fun n => (en n).media frame query body := by
  refine .ite ((h.textIn query).bind fun t => runs_spawn ?_ ?_) (runs_pure _)
  · exact fun _ => ⟨rfl, rfl, rfl⟩
  · exact fun _ _ => ⟨hb.straight body hbody, hb.shorter body hbody⟩

/-- An at-rule that is copied is not expanded. -/
theorem rawBlock (h : Serves opts chain size en) (header body : Text) :
    Runs opts chain frame.file frame.dir size fun n => (en n).rawBlock frame header body := by
  have hraw (header : Text) : Runs opts chain frame.file frame.dir size fun n => (do
      let body := trim (← (en n).textIn frame body)
      spawn frame fun p => { p with selectors := [], raw := some ⟨header, body⟩ } : ExpandM Unit) :=
    (h.textIn body).bind fun t => runs_spawn (fun _ => ⟨rfl, rfl, rfl⟩) nofun
  refine .ite ((h.textIn header).bind fun t => ?_) (runs_pure _)
  exact .ite ((runs_report _ _ _).bind fun _ => hraw _) (hraw _)

/-! ### Blocks -/

theorem blockDirective (h : Serves opts chain size en) {b : Block} (hb : b.Straight size)
    {body : Text} (hbody : b.body = some body) (prev : Branch) {code : Text}
    (hcode : (splitDirective (expandShorthand b.header)).1 = code) (name header : Text) :
    Runs opts chain frame.file frame.dir size fun n =>
      (en n).blockDirective frame prev code name header body := by
  have hkeyword := hb.keyword
  rw [hcode] at hkeyword
  have hmixin : code ≠ of "@mixin" := fun h => hkeyword (by simp [h])
  have hfunction : code ≠ of "@function" := fun h => hkeyword (by simp [h])
  unfold Engine.blockDirective
  simp only [hmixin, hfunction, if_false]
  refine .ite ?_ (.ite ?_ (.ite ?_ (.ite ?_ (.ite ?_ (.ite ?_ ?_)))))
  · exact h.doIf hb hbody name
  · exact h.doElse hb hbody prev name
  · exact (h.doFor hb hbody name).bind fun _ => runs_pure _
  · exact (h.doEach hb hbody name).bind fun _ => runs_pure _
  · exact (h.bindBlock hb hbody).bind fun _ => runs_pure _
  · exact (h.media hb hbody name).bind fun _ => runs_pure _
  · exact (h.rawBlock header body).bind fun _ => runs_pure _

theorem runs_setDebug (t : Text) :
    Runs opts chain file dir size fun _ => Engine.setDebug frame t :=
  (Runs.lift (converges_modify _)).bind fun _ => runs_report _ _ _

theorem runs_settleOption (pair : Text) :
    Runs opts chain file dir size fun _ => settleOption frame pair := by
  unfold settleOption
  split
  · exact runs_pure _
  · refine .bind (runs_modify ?_ ?_) fun _ => (Runs.lift converges_get).bind fun s => ?_
    · exact fun _ => ⟨rfl, rfl⟩
    · exact fun _ => rfl
    split
    · exact .lift (converges_modify _)
    · exact runs_report _ _ _

theorem returnValue (h : Serves opts chain size en) {scope : Scope}
    (hnone : scope.registry.functions = []) (t : Text) :
    Converges (fun n => (en n).returnValue opts scope t) fun _ => True := by
  refine .ite ((converges_evalText hnone opts.functions _).bind fun r _ => ?_)
    (h.evaluate hnone _).calculate
  cases r with
  | ok v => exact converges_pure trivial
  | error e => exact (h.evaluate hnone _).calculate

/-- The directives that take no account of a body. Whether there is one for a keyword does not
depend on the fuel. -/
theorem lineDirective? (h : Serves opts chain size en) (hopts : opts.Straight) (frame : Frame)
    {b : Block} (hb : b.Straight size) {code : Text}
    (hcode : (splitDirective (expandShorthand b.header)).1 = code) (name : Text) :
    (∀ n, (en n).lineDirective? opts frame code name = none) ∨
      ∃ x, (∀ n, (en n).lineDirective? opts frame code name = some (x n)) ∧
        Runs opts chain frame.file frame.dir size x := by
  have hinclude : code ≠ of "@include" := by
    intro hinclude
    exact hb.keyword (by simp [hcode, hinclude])
  have hdone {x : Nat → ExpandM Unit} (hx : Runs opts chain frame.file frame.dir size x) :
      Runs opts chain frame.file frame.dir size fun n => (do x n; return Signal.done) :=
    hx.bind fun _ => runs_pure _
  have hite {c : Prop} [Decidable c] {o o' : Nat → Option (ExpandM Signal)}
      (ho : ∃ x, (∀ n, o n = some (x n)) ∧ Runs opts chain frame.file frame.dir size x)
      (ho' : (∀ n, o' n = none) ∨
        ∃ x, (∀ n, o' n = some (x n)) ∧ Runs opts chain frame.file frame.dir size x) :
      (∀ n, (if c then o n else o' n) = none) ∨
        ∃ x, (∀ n, (if c then o n else o' n) = some (x n)) ∧
          Runs opts chain frame.file frame.dir size x := by
    split_ifs
    · exact .inr ho
    · exact ho'
  -- the directives in the order in which they are looked for
  unfold Engine.lineDirective?
  simp only [hinclude, if_false]
  refine hite ⟨_, fun _ => rfl, hdone ?_⟩ (hite ⟨_, fun _ => rfl, hdone ?_⟩
    (hite ⟨_, fun _ => rfl, hdone ?_⟩ (hite ⟨_, fun _ => rfl, hdone ?_⟩
    (hite ⟨_, fun _ => rfl, hdone ?_⟩ (hite ⟨_, fun _ => rfl, hdone ?_⟩
    (hite ⟨_, fun _ => rfl, hdone ?_⟩ (hite ⟨_, fun _ => rfl, ?_⟩ (.inl fun _ => rfl))))))))
  · exact (h.valueIn name).bind fun _ => runs_report _ _ _
  · exact (h.valueIn name).bind fun _ => runs_report _ _ _
  · exact runs_emit _
  · exact runs_setDebug name
  · exact .forM runs_settleOption _
  · exact h.doImport hopts name
  · exact (h.textIn name).bind fun _ => runs_modify (fun _ => ⟨rfl, rfl⟩) fun _ => rfl
  · exact .inScope fun scope hnone =>
      (Runs.lift (h.returnValue hnone name)).bind fun _ => runs_pure _

theorem directive (h : Serves opts chain size en) (hopts : opts.Straight) {b : Block}
    (hb : b.Straight size) (prev : Branch) :
    Runs opts chain frame.file frame.dir size fun n =>
      (en n).directive opts frame prev (expandShorthand b.header) b.body := by
  unfold Engine.directive
  dsimp only
  rcases h.lineDirective? hopts frame hb rfl (splitDirective (expandShorthand b.header)).2 with
    hline | ⟨x, hline, hx⟩
  · simp only [hline]
    cases hbody : b.body with
    | none => exact ((h.textIn _).bind fun _ => runs_emit _).bind fun _ => runs_pure _
    | some body => exact h.blockDirective hb hbody prev rfl _ _
  · simp only [hline]
    exact hx.bind fun _ => runs_pure _

theorem assignVar (h : Serves opts chain size en) (name t : Text) :
    Runs opts chain file dir size fun n => (en n).assignVar frame name t := by
  have hbind (t : Text) : Runs opts chain file dir size fun n => (do
      bindVar name (← (en n).valueIn frame t) : ExpandM Unit) :=
    (h.valueIn t).bind fun v => runs_bindVar name v
  exact .ite (.get fun l => Runs.ite (hbind _) (runs_pure _) l) (hbind t)

theorem declaration (h : Serves opts chain size en) (header : Text) :
    Runs opts chain file dir size fun n => (en n).declaration frame header := by
  unfold Engine.declaration
  split
  · exact (h.textIn header).bind fun t => .ite (runs_emit _) (runs_pure _)
  · refine .ite (runs_pure _) (.ite (h.assignVar _ _) ?_)
    exact (h.textIn _).bind fun t => (h.valueIn _).bind fun v => runs_emit _

theorem namespaceBlock (h : Serves opts chain size en) {b : Block} (hb : b.Straight size)
    {body : Text} (hbody : b.body = some body) (name : Text) :
    Runs opts chain frame.file frame.dir size fun n => (en n).namespaceBlock frame name body :=
  (h.textIn name).bind fun t =>
    h.body hb hbody { frame with stem := frame.stem ++ trim t ++ [ch '-'] }

theorem nest (h : Serves opts chain size en) {b : Block} (hb : b.Straight size) {body : Text}
    (hbody : b.body = some body) (header : Text) :
    Runs opts chain frame.file frame.dir size fun n => (en n).nest frame header body := by
  refine .ite (h.body hb hbody frame) (.ite (runs_pure _) ?_)
  refine (h.textIn header).bind fun t => .ite (.bind (runs_spawn ?_ ?_) fun _ => ?_) (runs_pure _)
  · exact fun _ => ⟨rfl, rfl, rfl⟩
  · exact fun _ _ => ⟨hb.straight body hbody, hb.shorter body hbody⟩
  · exact runs_pure _

theorem block (h : Serves opts chain size en) (hopts : opts.Straight) {b : Block}
    (hb : b.Straight size) (prev : Branch) :
    Runs opts chain frame.file frame.dir size fun n => (en n).block opts frame prev b := by
  refine .ite (h.directive hopts hb prev) ?_
  cases hbody : b.body with
  | none => exact (h.declaration _).bind fun _ => runs_pure _
  | some body =>
    refine .ite ((h.namespaceBlock hb hbody _).bind fun _ => runs_pure _) ?_
    exact .ite ((h.nest hb hbody _).bind fun _ => runs_pure _) (runs_pure _)

/-- The blocks of a text, by induction on those left. -/
theorem blocks (h : Serves opts chain size en) (hopts : opts.Straight)
    (failure : Option StructuralError) {found : List Block} (hfound : ∀ b ∈ found, b.Straight size)
    (prev : Branch) :
    Runs opts chain frame.file frame.dir size fun n =>
      (en n).blocks opts frame failure prev found := by
  induction found generalizing prev with
  | nil =>
    cases failure with
    | none => exact runs_pure _
    | some e => exact runs_throw _
  | cons b rest ih =>
    obtain ⟨hb, hrest⟩ := List.forall_mem_cons.mp hfound
    refine (h.block hopts hb prev).bind fun r => ?_
    obtain ⟨signal, branch⟩ := r
    cases signal with
    | returned v => exact runs_pure _
    | done => exact ih hrest branch

end Serves

end Stylesheet
