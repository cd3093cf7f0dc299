import Stylesheet.Proofs.Compile.Cache
import Stylesheet.Proofs.Compile.Fuel
import Stylesheet.Proofs.Compile.Rules
import Stylesheet.Proofs.Compile.Settings
import Stylesheet.Proofs.Output.Concatenation
import Stylesheet.Proofs.Source.Joined
import Stylesheet.Proofs.Source.Sequel

/-!
# Stylesheets one after the other

Two stylesheets are put one after the other, with a line end between them. If the first has
rules and media blocks only, then nothing it does outlasts its blocks: it binds no variable and
defines nothing at the top level, it remembers no value that is not the same for the second,
and the pass over the text forgets it with its last brace. So the blocks of both are those of
the one and those of the other, the root of both does what the second root does alone, and the
fragments below it are those of the first and then those of the second, at other places. If
nothing is extended they are written in this order, and if those next to each other where the
stylesheets meet share neither a media block nor a rule, the text of the one ends where that of
the other starts.

Values that are remembered are dealt with at the end: with and without them a stylesheet is
expanded alike, and without them what is expanded earlier leaves no trace.

One thing outlasts the first stylesheet even so. A backslash at its end, in a comment there,
escapes the line end that follows, and a quote that was left open before is closed in the
second.

## Main definitions

* `Leading` — stylesheets that another can be put after
* `Separate` — two stylesheets that are compiled on their own

## Main results

* `expandPending_append` — what the root of both does
* `exists_walk_append` — the fragments of both
* `expandSource_append` — the same of sources, comments and all
* `compileWith_append` — separate stylesheets are compiled one after the other
-/

namespace Stylesheet

open Text

variable {en : Engine} {opts : Options} {frame : Frame} {l l' : Locals} {s s' : Session}

/-! ### Blocks, wherever they are found -/

/-- Where a block was found is no concern of what it does. -/
theorem Engine.block_congr {b b' : Block} (h : b.parts = b'.parts) (prev : Branch) :
    en.block opts frame prev b = en.block opts frame prev b' := by
  obtain ⟨header, body, offset⟩ := b
  obtain ⟨header', body', offset'⟩ := b'
  obtain ⟨rfl, rfl⟩ := Prod.mk.inj h
  rfl

theorem Engine.blocks_congr {found found' : List Block}
    (h : found.map Block.parts = found'.map Block.parts) (failure : Option StructuralError)
    (prev : Branch) :
    en.blocks opts frame failure prev found = en.blocks opts frame failure prev found' := by
  induction found generalizing found' prev with
  | nil =>
    obtain rfl := List.map_eq_nil_iff.mp h.symm
    rfl
  | cons b found ih =>
    obtain ⟨b', found', rfl, hb, hrest⟩ := List.map_eq_cons_iff.mp h.symm
    rw [Engine.blocks, Engine.blocks, Engine.block_congr hb.symm]
    congr 1
    funext r
    obtain ⟨signal, branch⟩ := r
    cases signal with
    | returned v => rfl
    | done => exact ih hrest.symm branch

/-- What the imbalance after some blocks is matters only if it is come to. -/
theorem outcome_blocks_failure {failure failure' : Option StructuralError}
    (hnone : failure = none → failure' = none) {found : List Block} {prev : Branch}
    {signal : Signal}
    (h : outcome ((en.blocks opts frame failure prev found).run l) s = (.ok (signal, l'), s')) :
    outcome ((en.blocks opts frame failure' prev found).run l) s = (.ok (signal, l'), s') := by
  induction found generalizing prev l s with
  | nil =>
    cases failure with
    | none => rwa [hnone rfl]
    | some e => cases h
  | cons b found ih =>
    rw [Engine.blocks, StateT.run_bind, outcome_bind] at h ⊢
    rcases hblock : outcome ((en.block opts frame prev b).run l) s with
      ⟨e | ⟨⟨sig, branch⟩, l₁⟩, s₁⟩
    · rw [hblock] at h
      cases h
    · rw [hblock] at h
      cases sig with
      -- a block that returns ends the pass over the rest, imbalance and all
      | returned v => exact h
      | done => exact ih h

/-! ### The root -/

variable {fuel : Nat} {a b : Text} {signal signal' : Signal} {t : Session}

/-- A text after a stylesheet of rules is expanded to what it is expanded to alone, after the
fragments of the rules. -/
theorem outcome_expand_append (hcache : opts.disableCache = true) (ha : RuleSheet a)
    (hlast : a.getLast? = some (ch '\x7d')) {lA lB : Locals} {sA sB : Session}
    (hrules : l.OfRules) (hnew : l.children = [])
    (hA : outcome (((engine opts fuel).expand frame a).run l) s = (.ok (signal, lA), sA))
    (hB : outcome (((engine opts fuel).expand frame b).run l) s = (.ok (signal', lB), sB)) :
    lA.properties = l.properties ∧
      ∃ new t, outcome (((engine opts fuel).expand frame (a ++ ch '\n' :: b)).run l) s =
          (.ok (signal', { lB with children := lA.children ++ new }), t) ∧
        new.map Pending.unnumbered = lB.children.map Pending.unnumbered ∧ s.Alongside sA sB t := by
  have hagrees := ((mild_engine opts fuel).expand frame ha.rules l s hrules).1
  rw [hA] at hagrees
  cases fuel with
  | zero => cases hA
  | succ fuel =>
    change outcome (((engine opts fuel).blocks opts frame (locate a).2 .none
      (locate a).1).run l) s = _ at hA
    change outcome (((engine opts fuel).blocks opts frame (locate b).2 .none
      (locate b).1).run l) s = _ at hB
    have hadd : ∀ c ∈ (locate a).1, ∀ prev, Additive (· = (Signal.done, Branch.none))
        ((engine opts fuel).block opts frame prev c) := fun c hc prev => ha.additive hc prev
    obtain ⟨⟨-, hok⟩, hlocals⟩ := additive_blocks hadd _ _ l s signal lA sA hA
    obtain ⟨hparts, hnone⟩ := locate_append hlast hok ha.bodies b
    rw [hok] at hA
    -- the blocks of both, the last of which are those of the second text from where the first ends
    have hexpand : outcome (((engine opts (fuel + 1)).expand frame (a ++ ch '\n' :: b)).run l) s =
        outcome (((engine opts fuel).blocks opts frame (locate (a ++ ch '\n' :: b)).2 .none
          (locate b).1).run lA) sA := by
      rw [← outcome_blocks_append hadd hA, ← Engine.blocks_congr (by rw [hparts, List.map_append])]
      rfl
    -- they do there what they do alone, with the fragments of the rules waiting already
    have hB := outcome_blocks_failure hnone.mpr hB
    have hportable := permeating_portable hcache
    have hblocks : Portable frame.spawns ((engine opts fuel).blocks opts frame
        (locate (a ++ ch '\n' :: b)).2 .none (locate b).1) :=
      hportable.blocks (hportable.engine (fun _ => trivial) fuel 0) _
        (hportable.fits fun h : False => h.elim) _
    have hmoved := hblocks l [] lA.children s sA hagrees
    rw [← hlocals, ← hnew, hB] at hmoved
    refine ⟨by rw [hlocals], ?_⟩
    rw [hexpand]
    obtain ⟨htwins, halong⟩ := hmoved
    generalize outcome (((engine opts fuel).blocks opts frame (locate (a ++ ch '\n' :: b)).2 .none
      (locate b).1).run lA) sA = o at htwins halong ⊢
    obtain ⟨r, t⟩ := o
    cases htwins with
    | ok _ l₁ new new' hsame _ => exact ⟨new', t, rfl, by rw [hnew]; exact hsame, halong⟩

/-! ### Runs -/

theorem expandPending_depth {order : Nat} {p : Pending} {f : Fragment} {children : List Pending}
    (hen : Fertile en) (h : outcome (expandPending en order p) s = (.ok (f, children), s')) :
    s'.depth = s.depth := by
  rcases expandPending_cases h with ⟨-, -, -, rfl⟩ | ⟨-, signal, l, hexpand, -, -⟩
  · rfl
  · have hyields := hen.expand p.frame p.code p.locals s
    rw [hexpand] at hyields
    exact hyields.depth (by simp)

theorem expandPending_raw {order : Nat} {p : Pending} {f : Fragment} {children : List Pending}
    (h : outcome (expandPending en order p) s = (.ok (f, children), s')) : f.raw = p.raw := by
  rcases expandPending_cases h with ⟨-, rfl, -⟩ | ⟨-, _, _, -, rfl, -⟩ <;> rfl

theorem Session.agrees_of_settings (hdepth : s'.depth = s.depth)
    (hsettings : s'.settings = s.settings) : s.Agrees s' := by
  obtain ⟨hdebug, hstyle⟩ := Prod.mk.inj hsettings
  exact ⟨hdepth.symm, hdebug.symm, hstyle.symm⟩

/-- A fragment that changes no settings keeps what expansion looks at. -/
theorem agrees_of_expandPending {order : Nat} {p : Pending} {f : Fragment} {children : List Pending}
    (h : outcome (expandPending (engine opts fuel) order p) s = (.ok (f, children), s'))
    (hp : p.Unswitched) (hend : s'.Unswitched) : s.Agrees s' :=
  Session.agrees_of_settings (expandPending_depth (fertile_engine opts fuel) h)
    ((expandPending_keeps h).1.settings hp hend)

namespace Walk

variable {order : Nat} {queue : List Pending} {log : SpawnLog}

theorem depth_eq (hen : Fertile en) (h : Walk en order s queue log s') : s'.depth = s.depth := by
  induction h with
  | done => rfl
  | step hexpand _ ih => exact ih.trans (expandPending_depth hen hexpand)

/-- Fragments that change no settings keep what expansion looks at. -/
theorem agrees_of_unswitched (h : Walk (engine opts fuel) order s queue log s')
    (hqueue : ∀ p ∈ queue, p.Unswitched) (hend : s'.Unswitched) : s.Agrees s' :=
  Session.agrees_of_settings (h.depth_eq (fertile_engine opts fuel)) (h.settings_eq hqueue hend)

/-- A fragment starts without positions it must not come after. -/
theorem deps_eq (h : Walk en order s queue log s') : ∀ e ∈ log, e.1.deps = [] := by
  induction h with
  | done => exact List.forall_mem_nil _
  | step hexpand _ ih =>
    refine List.forall_mem_cons.mpr ⟨?_, ih⟩
    rcases expandPending_cases hexpand with ⟨-, rfl, -⟩ | ⟨-, _, _, -, rfl, -⟩ <;> rfl

end Walk

/-- What is reported where the second of two runs starts after the root of the first, and the
rest of the first comes between the root of the second and its rest. -/
theorem Session.Alongside.perm_reported {sA₀ sA sB₀ sB s₀ s₁ t : Session}
    (hroot : s.Alongside sA₀ sB₀ s₀) (hstart : s.diagnostics = [])
    (hA : sA₀.Alongside s₀ sA s₁) (hB : sB₀.Alongside s₁ sB t) :
    t.diagnostics.Perm (sA.diagnostics ++ sB.diagnostics) := by
  obtain ⟨first, hsB₀, hs₀⟩ := hroot.reported
  obtain ⟨below, hsA, hs₁⟩ := hA.reported
  obtain ⟨below', hsB, ht⟩ := hB.reported
  rw [hstart, List.nil_append] at hsB₀
  rw [ht, hs₁, hs₀, hsA, hsB, hsB₀, List.append_assoc, List.append_assoc, List.append_assoc]
  refine List.Perm.append_left sA₀.diagnostics ?_
  rw [← List.append_assoc, ← List.append_assoc]
  exact List.Perm.append_right below' List.perm_append_comm

/-- The root of a text after a stylesheet of rules does what the root of the text does alone,
after the root of the rules, and has nothing of its own to write. -/
theorem expandPending_append (hcache : opts.disableCache = true) (ha : RuleSheet a)
    (hlast : a.getLast? = some (ch '\x7d')) {f g : Fragment} {cA cB : List Pending}
    {sA sB : Session}
    (hA : outcome (expandPending (engine opts fuel) 0 (rootFragment opts a)) s =
      (.ok (f, cA), sA))
    (hB : outcome (expandPending (engine opts fuel) 0 (rootFragment opts b)) s =
      (.ok (g, cB), sB)) :
    f.properties = [] ∧
      ∃ new t, outcome (expandPending (engine opts fuel) 0
          (rootFragment opts (a ++ ch '\n' :: b))) s = (.ok (g, cA ++ new), t) ∧
        new.map Pending.unnumbered = cB.map Pending.unnumbered ∧ s.Alongside sA sB t := by
  rcases expandPending_cases hA with ⟨hraw, -⟩ | ⟨-, signal, lA, hrootA, rfl, rfl⟩
  · cases hraw
  rcases expandPending_cases hB with ⟨hraw, -⟩ | ⟨-, signal', lB, hrootB, rfl, rfl⟩
  · cases hraw
  have hlocals : (rootFragment opts a).locals.OfRules := ⟨rfl, List.forall_mem_nil _⟩
  obtain ⟨hproperties, new, t, hroots, hnew, halong⟩ :=
    outcome_expand_append hcache ha hlast hlocals rfl hrootA hrootB
  have hexpand := outcome_expandPending (p := rootFragment opts (a ++ ch '\n' :: b)) rfl hroots 0
  exact ⟨hproperties, new, t, hexpand, hnew, halong⟩

/-- The run through a text after a stylesheet of rules: its root does what that of the text
does alone, and the fragments below the rules come before those below it. -/
theorem exists_walk_append (hcache : opts.disableCache = true) (ha : RuleSheet a)
    (hlast : a.getLast? = some (ch '\x7d')) (hb : Unswitched b) {f g : Fragment}
    {cA cB : List Pending} {logA logB : SpawnLog} {sA sB : Session}
    (hA : Walk (engine opts fuel) 0 s [rootFragment opts a] ((f, cA) :: logA) sA)
    (hB : Walk (engine opts fuel) 0 s [rootFragment opts b] ((g, cB) :: logB) sB)
    (hend : sB.Unswitched) (hstart : s.diagnostics = []) :
    ∃ c logA' logB' t,
      Walk (engine opts fuel) 0 s [rootFragment opts (a ++ ch '\n' :: b)]
        ((g, c) :: (logA' ++ logB')) t ∧
      f.properties = [] ∧
      logA'.map (·.1.unranked) = logA.map (·.1.unranked) ∧
      logB'.map (·.1.unranked) = logB.map (·.1.unranked) ∧
      s.Agrees sA ∧ s.Agrees sB ∧ s.Agrees t ∧
      t.diagnostics.Perm (sA.diagnostics ++ sB.diagnostics) := by
  have hroot : (rootFragment opts b).Unswitched :=
    ⟨fun _ => hb, by simp [rootFragment], by simp [rootFragment]⟩
  have hrules : (rootFragment opts a).OfRules := ⟨ha.rules, rfl⟩
  have hen := portable_engine hcache fuel
  cases hA with
  | @step _ _ sA₀ _ _ _ _ _ _ hexpandA hrestA =>
  cases hB with
  | @step _ _ sB₀ _ _ _ _ _ _ hexpandB hrestB =>
  rw [List.append_nil] at hrestA hrestB
  -- what each root does to the session alone
  obtain ⟨hagreesA, hchildrenA⟩ := expandPending_agrees hrules hexpandA
  have hendB : sB₀.Unswitched := hend.mono hrestB.imports_subset
  have hagreesB := agrees_of_expandPending hexpandB hroot hendB
  have hchildrenB := (expandPending_keeps hexpandB).2 hroot hendB
  -- the root of both
  obtain ⟨hproperties, new, s₀, hexpand, hnew, halong⟩ :=
    expandPending_append hcache ha hlast hexpandA hexpandB
  -- the fragments below the rules, then those below the other text
  have hmeetA : sA₀.Agrees s₀ := hagreesA.symm.trans (hagreesB.trans halong.agrees)
  obtain ⟨logA', s₁, hwalkA, hlogA, halongA⟩ := hrestA.elsewhere hen rfl hmeetA 1
  have hmeetB : sB₀.Agrees s₁ :=
    hagreesB.symm.trans (hagreesA.trans ((hrestA.agrees hchildrenA).trans halongA.agrees))
  obtain ⟨logB', t, hwalkB, hlogB, halongB⟩ :=
    hrestB.elsewhere hen hnew hmeetB (1 + logA'.length)
  have hlastB := hagreesB.trans (hrestB.agrees_of_unswitched hchildrenB hend)
  refine ⟨_, logA', logB', t, .step hexpand ?_, hproperties, hlogA, hlogB,
    hagreesA.trans (hrestA.agrees hchildrenA), hlastB, hlastB.trans halongB.agrees, ?_⟩
  · rw [List.append_nil]
    exact hwalkA.append hwalkB
  · exact halong.perm_reported hstart halongA halongB

/-! ### Stylesheets -/

/-- A stylesheet that another can be put after: all its comments end, it does not end in a
backslash, and it is made of rules and media blocks, a block being the last of it. -/
structure Leading (a : Text) : Prop where
  comments : commentsEnd 0 (0, 0, 0) a = true
  unescaped : a.getLast? ≠ some (ch '\\')
  rules : RuleSheet (normalize a)
  last : (normalize a).getLast? = some (ch '\x7d')

theorem outcome_expandSource {source : Text} {fs : List Fragment}
    (h : outcome (drain (engine opts fuel) fuel 0 [rootFragment opts (normalize source)]) s =
      (.ok fs, s')) : outcome (expandSource fuel opts source) s = (.ok fs, s') := by
  unfold expandSource
  dsimp only
  rw [outcome_tryCatch]
  change outcome (drain (engine opts fuel) fuel 0
    [rootFragment opts ((normalizeTracked source).map (·.1))]) s = _ at h
  rw [h]

/-- Fragments that differ in their numbers and places alone are written alike. -/
theorem map_unranked_emittedOf {fs gs : List Fragment}
    (h : fs.map Fragment.unranked = gs.map Fragment.unranked) :
    (emittedOf fs).map Fragment.unranked = (emittedOf gs).map Fragment.unranked := by
  have hcomm (fs : List Fragment) :
      (emittedOf fs).map Fragment.unranked = emittedOf (fs.map Fragment.unranked) := by
    rw [emittedOf, emittedOf, List.filter_map]
    rfl
  rw [hcomm, hcomm, h]

theorem parents_eq_nil_of_unranked {fs gs : List Fragment}
    (h : fs.map Fragment.unranked = gs.map Fragment.unranked) (hgs : ∀ g ∈ gs, g.parents = []) :
    ∀ f ∈ fs, f.parents = [] := by
  intro f hf
  have hmem : f.unranked ∈ gs.map Fragment.unranked := h ▸ List.mem_map_of_mem hf
  obtain ⟨g, hg, hsame⟩ := List.mem_map.mp hmem
  rw [← hgs g hg]
  exact (congrArg Fragment.parents hsame).symm

/-- A fragment with nothing to write before others. -/
theorem emittedOf_cons_of_silent {f : Fragment} (hraw : f.raw = none)
    (hproperties : f.properties = []) (fs : List Fragment) :
    emittedOf (f :: fs) = emittedOf fs :=
  List.filter_cons_of_neg (by simp [Fragment.isEmitted, hraw, hproperties])

/-- What is expanded of a stylesheet after one of rules. -/
theorem expandSource_append (hcache : opts.disableCache = true) {a b : Text} (ha : Leading a)
    (hb : Unswitched (normalize b)) {fs gs : List Fragment} {sA sB : Session}
    (hA : outcome (expandSource fuel opts a) opts.session = (.ok fs, sA))
    (hB : outcome (expandSource fuel opts b) opts.session = (.ok gs, sB))
    (hfuel : fs.length + gs.length ≤ fuel) (hend : sB.Unswitched)
    (hroot : ∀ g ∈ gs.head?, g.properties = []) (hparents : ∀ f ∈ fs ++ gs, f.parents = []) :
    ∃ hs t, outcome (expandSource fuel opts (a ++ ch '\n' :: b)) opts.session = (.ok hs, t) ∧
      (emittedOf hs).map Fragment.unranked = (emittedOf fs ++ emittedOf gs).map Fragment.unranked ∧
      (∀ h ∈ hs, h.parents = []) ∧
      opts.session.Agrees sA ∧ opts.session.Agrees sB ∧ opts.session.Agrees t ∧
      t.diagnostics.Perm (sA.diagnostics ++ sB.diagnostics) := by
  obtain ⟨logA, hwalkA, rfl⟩ := exists_walk_of_expandSource hA
  obtain ⟨logB, hwalkB, rfl⟩ := exists_walk_of_expandSource hB
  cases hwalkA with
  | @step _ _ sA₀ _ _ _ cA f logA hexpandA hrestA =>
  cases hwalkB with
  | @step _ _ sB₀ _ _ _ cB g logB hexpandB hrestB =>
  obtain ⟨c, logA', logB', t, hwalk, hf, hlogA, hlogB, hagreesA, hagreesB, hagrees, hperm⟩ :=
    exists_walk_append hcache ha.rules ha.last hb (.step hexpandA hrestA) (.step hexpandB hrestB)
      hend rfl
  rw [← normalize_append ha.unescaped ha.comments] at hwalk
  -- the root is expanded once, not twice, so the fuel of both is more than enough
  have hlength : ((g, c) :: (logA' ++ logB')).length ≤ fuel := by
    have hlengthA := congrArg List.length hlogA
    have hlengthB := congrArg List.length hlogB
    simp only [List.length_map, List.length_cons, List.length_append] at hfuel hlengthA hlengthB ⊢
    omega
  -- up to numbers and places: the second root, what is below the first and what is below it
  have hsame : (((g, c) :: (logA' ++ logB')).map (·.1)).map Fragment.unranked =
      (g :: (logA.map (·.1) ++ logB.map (·.1))).map Fragment.unranked := by
    simp only [List.map_cons, List.map_append, List.map_map]
    exact congrArg _ (congr (congrArg _ hlogA) hlogB)
  refine ⟨_, t, outcome_expandSource (hwalk.outcome_drain hlength), ?_,
    parents_eq_nil_of_unranked hsame ?_, hagreesA, hagreesB, hagrees, hperm⟩
  · have hrawA : f.raw = none := expandPending_raw hexpandA
    have hrawB : g.raw = none := expandPending_raw hexpandB
    have hsilent := hroot g rfl
    rw [map_unranked_emittedOf hsame, List.map_cons, List.map_cons,
      emittedOf_cons_of_silent hrawA hf, emittedOf_cons_of_silent hrawB hsilent,
      emittedOf_cons_of_silent hrawB hsilent, emittedOf, List.filter_append]
    rfl
  · intro x hx
    refine hparents x ?_
    simp only [List.map_cons, List.mem_append, List.mem_cons] at hx ⊢
    rcases hx with rfl | hx | hx
    · exact .inr (.inl rfl)
    · exact .inl (.inr hx)
    · exact .inr (.inr hx)

/-! ### Output -/

/-- Where nothing is extended, the fragments are written in the order in which they were come
upon, and nothing more is reported. -/
theorem compileWith_of_extends_nothing {source : Text} {fs : List Fragment}
    (h : outcome (expandSource fuel opts source) opts.session = (.ok fs, s))
    (hparents : ∀ f ∈ fs, f.parents = []) :
    compileWith fuel opts source =
      ⟨.ok ⟨restore (s.style.print fs), emittedOf (fs.map Fragment.rank)⟩, s.diagnostics⟩ := by
  obtain ⟨log, hwalk, rfl⟩ := exists_walk_of_expandSource h
  have hperm := List.mergeSort_perm (log.map (·.1)) fun f g => f.id ≤ g.id
  have hdeps : ∀ f ∈ log.map (·.1), f.deps = [] :=
    List.forall_mem_map.mpr hwalk.deps_eq
  have hposition : ∀ f ∈ log.map (·.1), f.position = f.order :=
    List.forall_mem_map.mpr fun e he => (hwalk.order_eq e he).symm
  have horder : (log.map (·.1)).Pairwise fun f g => f.order < g.order := by
    have hsorted : log.Pairwise fun e e' => e.1.position < e'.1.position := by
      rw [← List.pairwise_map, hwalk.positions]
      exact List.pairwise_lt_range'
    refine List.pairwise_map.mpr (hsorted.imp_of_mem fun he he' hlt => ?_)
    rwa [hwalk.order_eq _ he, hwalk.order_eq _ he']
  have hwriting : ((log.map (·.1)).map Fragment.rank).map Fragment.writing =
      (log.map (·.1)).map Fragment.writing := by
    rw [List.map_map]
    rfl
  rw [compileWith_eq, h, Outcome.ofExpansion, finishFragments,
    resolveExtends_eq_self fun f hf => hparents f (hperm.mem_iff.mp hf)]
  dsimp only
  rw [orderFragments_eq hperm hdeps hposition horder, s.style.print_congr hwriting, List.append_nil]

/-- Only the fragments that have something to write are written. -/
theorem Style.print_emittedOf (style : Style) (fs : List Fragment) :
    style.print (emittedOf fs) = style.print fs := by
  rw [Style.print, Style.print, emittedOf, emittedOf, List.filter_filter]
  simp

/-- A stylesheet after one of rules is written after it, if neither extends anything. -/
theorem compileWith_append_of_disableCache (hcache : opts.disableCache = true) {a b : Text}
    (ha : Leading a) (hb : Unswitched (normalize b)) {fs gs : List Fragment} {sA sB : Session}
    (hA : outcome (expandSource fuel opts a) opts.session = (.ok fs, sA))
    (hB : outcome (expandSource fuel opts b) opts.session = (.ok gs, sB))
    (hfuel : fs.length + gs.length ≤ fuel) (hend : sB.Unswitched)
    (hroot : ∀ g ∈ gs.head?, g.properties = []) (hparents : ∀ f ∈ fs ++ gs, f.parents = [])
    (hapart : ∀ f ∈ (emittedOf fs).getLast?, ∀ g ∈ (emittedOf gs).head?, f.Apart g) :
    ∃ z, (compileWith fuel opts (a ++ ch '\n' :: b)).result = .ok z ∧
      z.css = restore (sA.style.print fs) ++ restore (sB.style.print gs) ∧
      (compileWith fuel opts (a ++ ch '\n' :: b)).diagnostics.Perm
        (sA.diagnostics ++ sB.diagnostics) := by
  obtain ⟨hs, t, hjoined, hemitted, hparents', hagreesA, hagreesB, hagrees, hperm⟩ :=
    expandSource_append hcache ha hb hA hB hfuel hend hroot hparents
  rw [compileWith_of_extends_nothing hjoined hparents']
  refine ⟨_, rfl, ?_, hperm⟩
  have hwriting : (emittedOf hs).map Fragment.writing =
      (emittedOf fs ++ emittedOf gs).map Fragment.writing := by
    have h := congrArg (List.map Fragment.writing) hemitted
    rwa [List.map_map, List.map_map] at h
  have hemittedOf (xs : List Fragment) : emittedOf (emittedOf xs) = emittedOf xs := by
    rw [emittedOf, emittedOf, List.filter_filter]
    simp
  dsimp only
  rw [← hagrees.style, ← hagreesA.style, ← hagreesB.style, ← Style.print_emittedOf,
    Style.print_congr _ hwriting, Style.restore_print_append, Style.print_emittedOf,
    Style.print_emittedOf]
  rwa [hemittedOf, hemittedOf]

/-! ### Any compilation -/

/-- A compilation that remembers values and one that does not are expanded alike. -/
theorem ends_disableCache (hcache : opts.disableCache = false) (fuel : Nat) (source : Text) :
    (Coupling.remembering opts).Ends opts.session Coupling.Any
      (outcome (expandSource fuel opts source) opts.session)
      (outcome (expandSource fuel { opts with disableCache := true } source) opts.session) := by
  have hoff : { opts with disableCache := false } = opts := by
    rw [← hcache]
  have hstart : (Coupling.remembering opts).Related opts.session opts.session :=
    ⟨fun _ _ hfound => (by cases hfound), rfl⟩
  have hends := (Coupling.lawful_remembering opts).expandSource
    (show (Coupling.remembering opts).base (normalize source) from trivial) fuel _ hstart
  rwa [Coupling.remembering_left, Coupling.remembering_right, hoff] at hends

/-- Expansion that remembers no values finds the same fragments. -/
theorem expandSource_disableCache {source : Text} {fs : List Fragment}
    (h : outcome (expandSource fuel opts source) opts.session = (.ok fs, s)) :
    ∃ cache, outcome (expandSource fuel { opts with disableCache := true } source) opts.session =
      (.ok fs, { s with cache }) := by
  cases hcache : opts.disableCache with
  | true =>
    refine ⟨s.cache, ?_⟩
    rwa [← hcache]
  | false =>
    have hends := ends_disableCache hcache fuel source
    rw [h] at hends
    generalize outcome (expandSource fuel { opts with disableCache := true } source)
      opts.session = o at hends ⊢
    obtain ⟨r, t⟩ := o
    obtain rfl := hends.same
    exact ⟨t.cache, congrArg _ hends.related.rest⟩

theorem compileWith_disableCache (fuel : Nat) (opts : Options) (source : Text) :
    compileWith fuel { opts with disableCache := true } source = compileWith fuel opts source := by
  cases hcache : opts.disableCache with
  | true => rw [← hcache]
  | false =>
    rw [compileWith_eq, compileWith_eq]
    exact (ends_disableCache hcache fuel source).ofExpansion_eq.symm

/-- A compilation that succeeds has found fragments, no more of them than its fuel allows. -/
theorem exists_expandSource {source : Text} {x : Compiled}
    (h : (compileWith fuel opts source).result = .ok x) :
    ∃ fs s, outcome (expandSource fuel opts source) opts.session = (.ok fs, s) ∧
      fs.length ≤ fuel := by
  rw [compileWith_eq] at h
  rcases hout : outcome (expandSource fuel opts source) opts.session with ⟨e | fs, s⟩
  · rw [hout] at h
    cases h
  · obtain ⟨log, -, rfl, hlength⟩ := exists_walk_of_drain (outcome_drain_of_expandSource hout)
    exact ⟨_, s, rfl, by rwa [List.length_map]⟩

/-- Two stylesheets that are compiled on their own, of which neither extends anything. -/
structure Separate (opts : Options) (m n : Nat) (a b : Text) (x y : Compiled) : Prop where
  first : (compileWith m opts a).result = .ok x
  second : (compileWith n opts b).result = .ok y
  /-- Each comment of the first has an end. -/
  comments : commentsEnd 0 (0, 0, 0) a = true
  /-- The first has rules and media blocks only. -/
  rules : RuleSheet (normalize a)
  /-- Without its comments the first ends in a block. -/
  last : (normalize a).getLast? = some (ch '\x7d')
  /-- The second changes no setting. -/
  steady : Unswitched (normalize b)
  parents : ∀ fs s, outcome (expandSource m opts a) opts.session = (.ok fs, s) →
    ∀ f ∈ fs, f.parents = []
  /-- The root of the second has no declarations, and its imports change no setting. -/
  trailing : ∀ gs t, outcome (expandSource n opts b) opts.session = (.ok gs, t) →
    (∀ g ∈ gs, g.parents = []) ∧ (∀ g ∈ gs.head?, g.properties = []) ∧ t.Unswitched
  /-- What is written last of the first shares neither a media block nor a rule with what is
  written first of the second. -/
  apart : ∀ f ∈ x.fragments.getLast?, ∀ g ∈ y.fragments.head?, f.Apart g

/-- Separate stylesheets one after the other are compiled to what each is compiled to, one
after the other, and the same is reported, unless the first ends in a backslash. -/
theorem compileWith_append {opts : Options} {m n k : Nat} {a b : Text} {x y : Compiled}
    (h : Separate opts m n a b x y) (hescape : a.getLast? ≠ some (ch '\\')) (hk : m + n ≤ k) :
    ∃ z, (compileWith k opts (a ++ ch '\n' :: b)).result = .ok z ∧ z.css = x.css ++ y.css ∧
      (compileWith k opts (a ++ ch '\n' :: b)).diagnostics.Perm
        ((compileWith m opts a).diagnostics ++ (compileWith n opts b).diagnostics) := by
  obtain ⟨fs, s, hA, hlengthA⟩ := exists_expandSource h.first
  obtain ⟨gs, t, hB, hlengthB⟩ := exists_expandSource h.second
  have hparentsA := h.parents fs s hA
  obtain ⟨hparentsB, hroot, hend⟩ := h.trailing gs t hB
  have hcompiledA := compileWith_of_extends_nothing hA hparentsA
  have hcompiledB := compileWith_of_extends_nothing hB hparentsB
  obtain rfl := Except.ok.inj ((congrArg Outcome.result hcompiledA).symm.trans h.first)
  obtain rfl := Except.ok.inj ((congrArg Outcome.result hcompiledB).symm.trans h.second)
  -- both with the fuel of the whole, and without values remembered
  have hA' := outcome_expandSource_of_le (show m ≤ k by omega) (by rw [hA]; simp)
  have hB' := outcome_expandSource_of_le (show n ≤ k by omega) (by rw [hB]; simp)
  obtain ⟨cache, hA''⟩ := expandSource_disableCache (hA'.trans hA)
  obtain ⟨cache', hB''⟩ := expandSource_disableCache (hB'.trans hB)
  -- fragments are apart whatever their ranks
  have hapart : ∀ f ∈ (emittedOf fs).getLast?, ∀ g ∈ (emittedOf gs).head?, f.Apart g := by
    have hrank (xs : List Fragment) :
        emittedOf (xs.map Fragment.rank) = (emittedOf xs).map Fragment.rank := by
      rw [emittedOf, emittedOf, List.filter_map]
      rfl
    have hranked := h.apart
    dsimp only at hranked
    rw [hrank, hrank, List.getLast?_map, List.head?_map] at hranked
    intro f hf g hg
    exact hranked f.rank (Option.mem_map_of_mem _ hf) g.rank (Option.mem_map_of_mem _ hg)
  have hleading : Leading a := ⟨h.comments, hescape, h.rules, h.last⟩
  have hcache : ({ opts with disableCache := true } : Options).disableCache = true := rfl
  have hjoined := compileWith_append_of_disableCache hcache hleading h.steady hA'' hB''
    (by omega) hend hroot
    (fun f hf => (List.mem_append.mp hf).elim (hparentsA f) (hparentsB f)) hapart
  rw [compileWith_disableCache] at hjoined
  rw [hcompiledA, hcompiledB]
  exact hjoined

theorem exists_of_toOption {α : Type} {x : SessionM α} {a : α}
    (h : (outcome x s).1.toOption = some a) : ∃ t, outcome x s = (.ok a, t) := by
  generalize outcome x s = o at h
  obtain ⟨r, t⟩ := o
  cases r with
  | error e => cases h
  | ok a' =>
    obtain rfl := Option.some.inj h
    exact ⟨t, rfl⟩

/-- What a compilation gives whose fragments are known and extend nothing. -/
theorem result_of_toOption {source : Text} {fs : List Fragment}
    (h : (outcome (expandSource fuel opts source) opts.session).1.toOption = some fs)
    (hparents : ∀ f ∈ fs, f.parents = []) :
    (compileWith fuel opts source).result = .ok
      ⟨restore ((outcome (expandSource fuel opts source) opts.session).2.style.print fs),
        emittedOf (fs.map Fragment.rank)⟩ := by
  obtain ⟨s, hs⟩ := exists_of_toOption h
  rw [compileWith_of_extends_nothing hs hparents, hs]

/-- With any fuel that is enough a stylesheet is compiled to the same. -/
theorem result_eq_of_fuel {source : Text} {m k : Nat} {x z : Compiled}
    (hx : (compileWith m opts source).result = .ok x)
    (hz : (compileWith k opts source).result = .ok z) : z = x := by
  have hm := @compileWith_of_le m (max m k) opts source (Nat.le_max_left m k) (by rw [hx]; simp)
  have hk := @compileWith_of_le k (max m k) opts source (Nat.le_max_right m k) (by rw [hz]; simp)
  rw [← hk, hm, hx] at hz
  exact (Except.ok.inj hz).symm

/-- The fragments of a stylesheet of one rule with one declaration. -/
def oneRule (selector name value : Text) : List Fragment :=
  [{ id := 0, selectors := [[]] },
    { id := 1, selectors := [selector], properties := [⟨name, some value⟩],
      position := 1, order := 1 }]

/-- A rule with a quoted value. -/
def quotedRule : Text := of ".b\x7bcontent:'z'\x7d"

theorem unswitched_quotedRule : Unswitched (normalize quotedRule) := by
  have hblocks : ∀ b ∈ (locate (normalize quotedRule)).1,
      b.body = some (of "content:'z'") := by decide
  refine .intro (by decide) fun b hb body hbody => ?_
  obtain rfl := Option.some.inj ((hblocks b hb).symm.trans hbody)
  refine .intro (by decide) fun d hd body hbody => ?_
  have hbare : ∀ d ∈ (locate (of "content:'z'")).1, d.body = none := by decide
  rw [hbare d hd] at hbody
  cases hbody

theorem expandSource_quotedRule :
    (outcome (expandSource 3 {} quotedRule) (Options.session {})).1.toOption =
        some (oneRule (of ".b") (of "content") (of "'z'")) ∧
      (outcome (expandSource 3 {} quotedRule) (Options.session {})).2.imports = [] ∧
      (outcome (expandSource 3 {} quotedRule) (Options.session {})).2.style = {} := by
  decide +kernel

/-- A stylesheet of one rule with the selector `.a` is separate from the quoted rule. -/
theorem separate_quotedRule {a body value : Text}
    (hA : (outcome (expandSource 3 {} a) (Options.session {})).1.toOption =
      some (oneRule (of ".a") (of "x") value))
    (hstyle : (outcome (expandSource 3 {} a) (Options.session {})).2.style = {})
    (hblocks : (locate (normalize a)).1 = [⟨of ".a", some body, 0⟩])
    (hbare : ∀ d ∈ (locate body).1, d.InRules ∧ d.body = none)
    (hcomments : commentsEnd 0 (0, 0, 0) a = true)
    (hlast : (normalize a).getLast? = some (ch '\x7d')) :
    ∃ x y, Separate {} 3 3 a quotedRule x y ∧ y.css = quotedRule ∧
      x.css = restore (Style.print {} (oneRule (of ".a") (of "x") value)) := by
  obtain ⟨hB, himports, hstyle'⟩ := expandSource_quotedRule
  have hnone (selector name value : Text) :
      ∀ f ∈ oneRule selector name value, f.parents = [] := by simp [oneRule]
  have hfirst := result_of_toOption hA (hnone _ _ _)
  have hsecond := result_of_toOption hB (hnone _ _ _)
  rw [hstyle] at hfirst
  rw [hstyle'] at hsecond
  refine ⟨_, _, ⟨hfirst, hsecond, hcomments, ?_, hlast, unswitched_quotedRule, ?_, ?_, ?_⟩, ?_, rfl⟩
  · -- the header is that of a rule, and the body has a declaration in it
    have hat : starts (expandShorthand (of ".a")) [ch '@'] = false := by decide
    have hcolon : ends (expandShorthand (of ".a")) [ch ':'] = false := by decide
    have hself : trim (expandShorthand (of ".a")) ≠ of "self" := by decide
    exact .of_rule hblocks rfl
      ⟨fun h => absurd (hat.symm.trans h) Bool.false_ne_true, fun _ => hcolon⟩ hself hbare
  · intro fs s h
    rw [h] at hA
    obtain rfl := Option.some.inj hA
    exact hnone _ _ _
  · -- the second text extends nothing, and imports nothing
    intro gs t h
    rw [h] at hB himports
    obtain rfl := Option.some.inj hB
    refine ⟨hnone _ _ _, by simp [oneRule], fun u hu => ?_⟩
    rw [himports] at hu
    cases hu
  · intro f hf g hg
    obtain rfl := Option.some.inj hf
    obtain rfl := Option.some.inj hg
    have hkeys : of ".a" ≠ of ".b" := by decide
    exact .inr ⟨rfl, rfl, hkeys⟩
  · decide +kernel

/-- A rule with a short value. -/
def shortRule : Text := of ".a\x7bx:y\x7d"

theorem shortRule_append_quotedRule :
    ∃ x y, Separate {} 3 3 shortRule quotedRule x y ∧ shortRule.getLast? ≠ some (ch '\\') ∧
      3 + 3 ≤ 6 ∧
      ∃ z, (compileWith 6 {} (shortRule ++ ch '\n' :: quotedRule)).result = .ok z ∧
        z.css = x.css ++ y.css ∧
        (compileWith 6 {} (shortRule ++ ch '\n' :: quotedRule)).diagnostics.Perm
          ((compileWith 3 {} shortRule).diagnostics ++
            (compileWith 3 {} quotedRule).diagnostics) := by
  have hA : (outcome (expandSource 3 {} shortRule) (Options.session {})).1.toOption =
      some (oneRule (of ".a") (of "x") (of "y")) ∧
        (outcome (expandSource 3 {} shortRule) (Options.session {})).2.style = {} := by
    decide +kernel
  have hblocks : (locate (normalize shortRule)).1 = [⟨of ".a", some (of "x:y"), 0⟩] := by decide
  obtain ⟨x, y, hseparate, -⟩ :=
    separate_quotedRule hA.1 hA.2 hblocks (by decide) (by decide) (by decide)
  have hescape : shortRule.getLast? ≠ some (ch '\\') := by decide
  have hfuel : 3 + 3 ≤ 6 := by decide
  exact ⟨x, y, hseparate, hescape, hfuel, compileWith_append hseparate hescape hfuel⟩

/-- A rule with a quote that is left open at a line end, before a comment that ends in a
backslash. -/
def openEnded : Text := of ".a\x7bx:'foo\nbar'\x7d//\\"

/-- The backslash escapes the line end, so a quote that was left open goes on into the second
stylesheet, and all of that is part of the value. -/
theorem openEnded_append_quotedRule :
    ∃ x y, Separate {} 3 3 openEnded quotedRule x y ∧ ∀ k z,
      (compileWith k {} (openEnded ++ ch '\n' :: quotedRule)).result = .ok z →
        z.css = openEnded ++ ch '\n' :: quotedRule ∧ z.css ≠ x.css ++ y.css := by
  have hA : (outcome (expandSource 3 {} openEnded) (Options.session {})).1.toOption =
      some (oneRule (of ".a") (of "x") (of "'foo\nbar'")) ∧
        (outcome (expandSource 3 {} openEnded) (Options.session {})).2.style = {} := by
    decide +kernel
  have hblocks : (locate (normalize openEnded)).1 = [⟨of ".a", some (of "x:'foo\nbar'"), 0⟩] := by
    decide
  obtain ⟨x, y, hseparate, hy, hx⟩ :=
    separate_quotedRule hA.1 hA.2 hblocks (by decide) (by decide) (by decide)
  -- the one rule of both is written as it stands
  have hjoined : (outcome (expandSource 3 {} (openEnded ++ ch '\n' :: quotedRule))
      (Options.session {})).1.toOption.map
        (fun fs => ((fs.map Fragment.parents).flatten, restore (Style.print {} fs))) =
      some ([], openEnded ++ ch '\n' :: quotedRule) := by decide +kernel
  have hstyle : (outcome (expandSource 3 {} (openEnded ++ ch '\n' :: quotedRule))
      (Options.session {})).2.style = {} := by decide +kernel
  obtain ⟨hs, hfs, hcss⟩ := Option.map_eq_some_iff.mp hjoined
  obtain ⟨hnone, hcss⟩ := Prod.mk.inj hcss
  have hparents : ∀ f ∈ hs, f.parents = [] := by simpa using hnone
  refine ⟨x, y, hseparate, fun k z hz => ?_⟩
  obtain rfl := result_eq_of_fuel (result_of_toOption hfs hparents) hz
  dsimp only
  rw [hstyle, hcss, hx, hy]
  exact ⟨rfl, by decide +kernel⟩

end Stylesheet
