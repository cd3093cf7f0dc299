import Stylesheet.Proofs.Compile.Serving

/-!
# Imports come to an end

Where nothing is defined and included, a text is expanded again only if it is imported again, and
then a compilation comes to an end however the files import each other. The induction is on the
paths not yet imported first, and on the length of the text second: an import makes the paths
fewer, and the bodies of blocks are shorter than the text they are in. Fragments wait with what
was imported where they were spawned, so the same goes for them.

## Main results

* `converges_watched` — expansion converges, and no path is imported twice along a chain
* `Drains.cons` — so do the fragments waiting
* `carries_watched` — watching makes no difference but to give up
* `compileWith_terminates` — a compilation comes to an end
-/

namespace Stylesheet

open Text

variable {opts : Options}

/-! ### Expansion -/

/-- Expansion of a text from a place on a chain of imports converges, with every check on the
way passed. The texts expanded inside are imported, so that fewer paths are left to import, or
shorter with no fewer left. -/
theorem converges_watched (hopts : opts.Straight) (chain : List Text) (frame : Frame) {code : Text}
    {l : Locals} (hcode : Straight code) (hsite : Site opts frame.file frame.dir l.registry)
    (hchain : chain <:+ l.registry.imported) :
    Converges (fun n => ((watched opts n chain).expand frame code).run l)
      fun r => l.Follows opts code.length r.2 := by
  -- Texts found inside this one are shorter, and a file is entered once: what is expanded next is
  -- smaller in the order the recursion is on.
  have hserves : Serves opts l.registry.imported code.length
      (watched opts · l.registry.imported) := by
    refine ⟨fun {frame' body l'} hbody hsite' hchain' hless => ?_, fun hnone t => ?_⟩
    · exact converges_watched hopts l.registry.imported frame' hbody hsite' hchain'
    · exact converges_evaluate (fun _ => rfl) hnone t
  have hlinked : l.Linked opts chain frame := ⟨hchain, hsite.tame.nodup, hsite.entered⟩
  refine .of_succ ?_
  have hrun (n : Nat) : ((watched opts (n + 1) chain).expand frame code).run l =
      ((watched opts n l.registry.imported).expandWith opts frame code).run l >>= fun r =>
        (if l.Handed r.2 then pure r.1 else throw .exhausted : ExpandM Signal).run r.2 := by
    change (if l.Linked opts chain frame then _ else _ : ExpandM Signal).run l = _
    rw [if_pos hlinked]
    rfl
  simp only [hrun]
  have hblocks : Runs opts l.registry.imported frame.file frame.dir code.length fun n =>
      (watched opts n l.registry.imported).expandWith opts frame code :=
    hserves.blocks hopts (locate code).2 hcode.blocks .none
  refine (hblocks l hsite List.suffix_rfl).bind fun r hr => ?_
  -- The fragments spawned know the files imported so far, which is what the watch asks for.
  have hhanded : l.Handed r.2 := by
    obtain ⟨new, hnew, hoffspring⟩ := hr.children
    intro c hc
    rw [hnew, List.drop_left] at hc
    exact (hoffspring c hc).imported
  simp only [hhanded, if_true]
  exact converges_pure hr
termination_by (opts.pathCount - l.registry.imported.length, code.length)
decreasing_by
  have hle := hchain'.length_le
  have hbound := hsite'.tame.length_le
  simp only [Prod.lex_def]
  omega

/-! ### Waiting fragments -/

/-- A fragment that may wait to be expanded. -/
structure Pending.Launched (opts : Options) (p : Pending) : Prop where
  site : Site opts p.file p.dir p.registry
  straight : p.raw = none → Straight p.code

/-- A fragment is expanded in the end. Only one that is not copied spawns others. -/
theorem converges_expandPending (hopts : opts.Straight) {p : Pending} (hp : p.Launched opts)
    (order : Nat) :
    Converges (fun n => expandPending (watched opts n []) order p) fun r => ∀ c ∈ r.2,
      p.raw = none ∧ Offspring opts p.code.length p.registry.imported c := by
  unfold expandPending
  dsimp only
  cases hraw : p.raw with
  | some raw => exact converges_pure nofun
  | none =>
    have hexpand : Converges (fun n => ((watched opts n []).expand p.frame p.code).run p.locals)
        fun r => p.locals.Follows opts p.code.length r.2 :=
      converges_watched hopts [] p.frame (hp.straight hraw) hp.site List.nil_suffix
    refine hexpand.bind fun r hr => converges_pure fun c hc => ⟨rfl, ?_⟩
    obtain ⟨new, hnew, hoffspring⟩ := hr.children
    rw [hnew] at hc
    exact hoffspring c hc

/-- The fragments waiting are expanded in the end, with whatever fuel more. -/
def Drains (opts : Options) (queue : List Pending) : Prop :=
  ∀ more order,
    Converges (fun n => drain (watched opts (n + more) []) n order queue) fun _ => True

theorem drains_nil : Drains opts [] := by
  intro more order
  refine .of_succ ?_
  exact converges_pure trivial

theorem drains_cons (hopts : opts.Straight) {p : Pending} (hp : p.Launched opts)
    {queue : List Pending}
    (h : ∀ children : List Pending, (∀ c ∈ children,
      p.raw = none ∧ Offspring opts p.code.length p.registry.imported c) →
      Drains opts (children ++ queue)) :
    Drains opts (p :: queue) := by
  intro more order
  refine .of_succ ?_
  have hshift (n : Nat) : n + 1 + more = n + (more + 1) := by omega
  simp only [hshift, drain]
  refine ((converges_expandPending hopts hp order).add (more + 1)).bind fun r hr => ?_
  exact (h r.2 hr (more + 1) (order + 1)).bind fun _ _ => converges_pure trivial

/-- A fragment is expanded and all that it spawns, by induction on the paths left to import there
and on the length of its text. -/
theorem Drains.cons (hopts : opts.Straight) {p : Pending} (hp : p.Launched opts)
    {queue : List Pending} (hqueue : Drains opts queue) : Drains opts (p :: queue) := by
  -- The children wait before the rest of the queue, so they are drained first, one by one.
  refine drains_cons hopts hp fun children hchildren => ?_
  induction children with
  | nil => exact hqueue
  | cons c children ih =>
    obtain ⟨⟨-, hc⟩, hchildren⟩ := List.forall_mem_cons.mp hchildren
    have hlaunched : c.Launched opts := ⟨hc.site, hc.straight⟩
    cases hraw : c.raw with
    | some raw =>
      -- what is copied spawns nothing
      refine drains_cons hopts hlaunched fun spawned hspawned => ?_
      cases spawned with
      | nil => exact ih hchildren
      | cons d _ => exact absurd (hspawned d List.mem_cons_self).1 (by simp [hraw])
    | none =>
      have hsmaller := hc.smaller hraw
      exact Drains.cons hopts hlaunched (ih hchildren)
termination_by (opts.pathCount - p.registry.imported.length, p.code.length)
decreasing_by
  have hle := hc.imported.length_le
  have hbound := hc.site.tame.length_le
  simp only [Prod.lex_def]
  omega

theorem launched_rootFragment {code : Text} (hcode : Straight code) :
    (rootFragment opts code).Launched opts := by
  refine ⟨⟨⟨rfl, List.nodup_nil, nofun⟩, List.mem_cons_self, ?_⟩, fun _ => hcode⟩
  unfold rootFragment
  dsimp only
  split_ifs
  · exact Nat.zero_le _
  · exact Nat.le_trans (Path.ascents_dir_le _) (Nat.le_add_right _ _)

/-! ### Compilations -/

/-- Expansion does what watched expansion does, unless that gives up. -/
theorem carries_watched (opts : Options) (fuel : Nat) (chain : List Text) :
    Permeating.Carries (fun _ => True) (fun _ => True) (fun _ _ x y => Persists x y)
      (fun _ _ _ x y => ∀ l, Persists (x.run l) (y.run l)) (watched opts fuel chain)
      (engine opts fuel) := by
  have h := permeating_persists opts
  induction fuel generalizing chain with
  | zero => exact ⟨trivial, fun _ _ _ _ => persists_exhausted _, fun _ _ => persists_exhausted _⟩
  | succ fuel ih =>
    refine ⟨trivial, fun {fine} frame code hcode l => ?_, fun hscope t => ?_⟩
    · change Persists ((if l.Linked opts chain frame then _ else _ : ExpandM Signal).run l) _
      -- Where the watch steps in, the run is exhausted, of which nothing is asked.
      split_ifs
      · have hblocks : Persists
            (((watched opts fuel l.registry.imported).expandWith opts frame code).run l)
            (((engine opts fuel).expandWith opts frame code).run l) :=
          h.blocks (ih l.registry.imported) (locate code).2 (h.fits hcode) .none l
        change Persists _ (((engine opts fuel).expandWith opts frame code).run l)
        rw [← bind_pure (((engine opts fuel).expandWith opts frame code).run l)]
        refine hblocks.bind fun r => ?_
        change Persists ((if l.Handed r.2 then _ else _ : ExpandM Signal).run r.2) _
        split_ifs
        · exact persists_refl _
        · exact persists_exhausted _
      · exact persists_exhausted _
    · exact h.evaluateWith (ih chain) hscope t

/-- Placing an imbalance in the source is not running out of fuel. -/
theorem expandSource_ended {fuel : Nat} {source : Text} {s : Session}
    (h : (outcome (expandRoot (engine opts fuel) fuel opts source) s).1 ≠ .error .exhausted) :
    (outcome (expandSource fuel opts source) s).1 ≠ .error .exhausted := by
  unfold expandRoot at h
  unfold expandSource
  dsimp only at h ⊢
  rw [outcome_tryCatch]
  generalize outcome (drain (engine opts fuel) fuel 0
    [rootFragment opts ((normalizeTracked source).map (·.1))]) s = o at h ⊢
  obtain ⟨r, s'⟩ := o
  cases r with
  | ok fragments => exact h
  | error e =>
    cases e with
    | exhausted => exact absurd rfl h
    | unbalanced e =>
      intro hexhausted
      cases hexhausted

/-- Where nothing is defined and included, compilation comes to an end, however the files import
each other: with enough fuel the outcome is the same, and not for want of fuel. Watching every
chain of frames and fragments for a path that is imported twice makes no difference, so there
is none. -/
theorem compileWith_terminates (hopts : opts.Straight) {source : Text}
    (hsource : Straight ((normalizeTracked source).map (·.1))) :
    ∃ enough, ∀ fuel ≥ enough,
      (compileWith fuel opts source).result ≠ .error .exhausted ∧
      compileWith fuel opts source = compileWith enough opts source ∧
      (outcome (expandRoot (watched opts fuel []) fuel opts source) opts.session).1 ≠
        .error .exhausted ∧
      outcome (expandRoot (watched opts fuel []) fuel opts source) opts.session =
        outcome (expandRoot (engine opts fuel) fuel opts source) opts.session := by
  obtain ⟨n, o, ho, hne, -⟩ :=
    drains_nil.cons hopts (launched_rootFragment hsource) 0 0 opts.session
  -- The watched run ends with a result, and what it ends with the plain run ends with too.
  have hwatched (fuel : Nat) (hfuel : fuel ≥ n) :
      outcome (expandRoot (watched opts fuel []) fuel opts source) opts.session = o :=
    ho fuel hfuel
  have hplain (fuel : Nat) (hfuel : fuel ≥ n) :
      outcome (expandRoot (engine opts fuel) fuel opts source) opts.session = o := by
    have hcarries := carries_watched opts fuel []
    have hpersists : Persists (expandRoot (watched opts fuel []) fuel opts source)
        (expandRoot (engine opts fuel) fuel opts source) :=
      persists_drain (fun frame _ => hcarries.expand frame fun h : False => h.elim) fuel 0 0 _
    rw [← hwatched fuel hfuel]
    refine hpersists opts.session ?_
    rw [hwatched fuel hfuel]
    exact hne
  have hended (fuel : Nat) (hfuel : fuel ≥ n) :
      (compileWith fuel opts source).result ≠ .error .exhausted := by
    have hne' := expandSource_ended (by rw [hplain fuel hfuel]; exact hne)
    rw [compileWith_eq]
    generalize outcome (expandSource fuel opts source) opts.session = o' at hne'
    obtain ⟨r, s⟩ := o'
    cases r with
    | ok fragments =>
      intro hexhausted
      cases hexhausted
    | error e =>
      intro hexhausted
      cases hexhausted
      exact hne' rfl
  refine ⟨n, fun fuel hfuel => ⟨hended fuel hfuel, ?_, ?_, ?_⟩⟩
  · exact compileWith_of_le hfuel (hended n (Nat.le_refl n))
  · rw [hwatched fuel hfuel]
    exact hne
  · rw [hwatched fuel hfuel, hplain fuel hfuel]

/-- Two files that import each other, one of them inside a rule. -/
def mutualImports : Options where
  tree := { files := [
    (of "a.scss", of "@import \"b\";"),
    (of "b.scss", of "p\x7b@import \"a\";\x7d")] }

theorem compileWith_terminates_mutualImports :
    mutualImports.Straight ∧ ∃ enough, ∀ fuel ≥ enough,
      (compileWith fuel mutualImports (of "@import \"a\";")).result ≠ .error .exhausted ∧
      compileWith fuel mutualImports (of "@import \"a\";") =
        compileWith enough mutualImports (of "@import \"a\";") ∧
      (outcome (expandRoot (watched mutualImports fuel []) fuel mutualImports
        (of "@import \"a\";")) mutualImports.session).1 ≠ .error .exhausted ∧
      outcome (expandRoot (watched mutualImports fuel []) fuel mutualImports
          (of "@import \"a\";")) mutualImports.session =
        outcome (expandRoot (engine mutualImports fuel) fuel mutualImports
          (of "@import \"a\";")) mutualImports.session := by
  have hfirst : Straight ((normalizeTracked (of "@import \"b\";")).map (·.1)) :=
    straight_of_bare (by decide)
  have hnested : Straight ((normalizeTracked (of "p\x7b@import \"a\";\x7d")).map (·.1)) := by
    refine .intro (by decide) fun b hb body hbody => ?_
    have hbodies : ∀ b ∈ (locate ((normalizeTracked (of "p\x7b@import \"a\";\x7d")).map (·.1))).1,
        b.body = some (of "@import \"a\";") := by decide
    obtain rfl : of "@import \"a\";" = body := Option.some.inj ((hbodies b hb).symm.trans hbody)
    exact straight_of_bare (by decide)
  have hopts : mutualImports.Straight := by
    refine ⟨rfl, rfl, fun f hf => ?_⟩
    rcases List.mem_pair.mp hf with rfl | rfl
    · exact hfirst
    · exact hnested
  exact ⟨hopts, compileWith_terminates hopts (straight_of_bare (by decide))⟩

end Stylesheet
