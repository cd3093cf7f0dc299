import Stylesheet.Proofs.Plain.FixedPoint
import Stylesheet.Proofs.Source.Strands

/-!
# Quoted literals are written as they are

A rule whose one declaration has a quoted literal for its value is compiled to that rule,
with the literal byte for byte as it was. Nothing inside the literal is taken for
structure, for a comment, for a reference or for something to shorten.

There are two ways through the middle of a compilation. A literal that is an expression has
a value that is written like it. One that ends in an escaped backslash is none, since the
reader of expressions takes its last mark for an escaped one; then it stands for itself with
its references replaced, and there are no variables to replace them with.

## Main results

* `normalize_literal` — the literal in a source has its structural bytes protected
* `evaluateExpr_literal` — a literal has a value that is written like it
* `compileWith_literal` — a literal is written as it is
-/

namespace Stylesheet

open Text

variable {w : Text} {opts : Options}

/-! ### Normalizing -/

theorem normalizeFrom_quiet_append {t : Text} (ht : ∀ c ∈ t, IsQuiet c) (b : Behind) (i : Nat)
    (rest : Text) : ∃ b', normalizeFrom 0 b i (t ++ rest) =
      keepFrom i t ++ normalizeFrom 0 b' (i + t.length) rest := by
  induction t generalizing b i with
  | nil => exact ⟨b, rfl⟩
  | cons c r ih =>
    obtain ⟨hquote, hslash⟩ := ht c List.mem_cons_self
    have hspan : spanAt b c (r ++ rest) = .byte := by simp [spanAt, hquote, hslash]
    obtain ⟨b', hb'⟩ := ih (fun d hd => ht d (List.mem_cons_of_mem c hd)) (c, b.1, b.2.1) (i + 1)
    refine ⟨b', ?_⟩
    rw [List.cons_append, normalizeFrom, hspan, keepFrom, List.length_cons,
      show i + (r.length + 1) = i + 1 + r.length by omega]
    exact congrArg ((c, i) :: ·) hb'

/-- The literal of a source has its structural bytes protected, and the rest is kept. -/
theorem normalize_literal (hw : IsLiteral w) (hplain : ¬Interpolated w) {t u : Text}
    (ht : ∀ c ∈ t, IsQuiet c) (hu : ∀ c ∈ u, IsQuiet c) :
    normalize (t ++ w ++ u) = t ++ protectText w ++ u := by
  obtain ⟨q, r, rfl, hq, hr⟩ := isLiteral_iff.mp hw
  obtain ⟨b, hfirst⟩ := normalizeFrom_quiet_append ht (0, 0, 0) 0 (q :: r ++ u)
  have hliteral := normalizeFrom_literal hq hr b (0 + t.length) u
  rw [normalize, normalizeTracked, List.append_assoc, hfirst, List.cons_append, hliteral,
    normalizeFrom_quiet hu]
  simp only [List.map_append, map_fst_keepFrom, map_fst_protectFrom (a := []) hplain,
    List.append_assoc]

/-! ### Blocks -/

theorem IsLiteral.snug (hw : IsLiteral w) : Snug w := by
  obtain ⟨q, r, rfl, hq, hr⟩ := isLiteral_iff.mp hw
  have hblank : blank1 q = false := by
    rcases isQuote_cases hq with rfl | rfl <;> decide
  obtain ⟨t, rfl⟩ := hr.exists_concat
  refine ⟨List.cons_ne_nil _ _, spaceWidth_ascii (ascii_of_isQuote hq) hblank _, ?_⟩
  rw [List.reverse_cons, List.reverse_append]
  exact spaceWidthRev_ascii (ascii_of_isQuote hq) hblank _

/-- The text of a rule with one declaration in it. -/
def literalRule (w : Text) : Text := of ".a \x7b content: " ++ w ++ of "; \x7d"

/-- The declaration of the rule. -/
def literalDeclaration (w : Text) : Text := of "content: " ++ w

theorem snug_literalDeclaration (hw : IsLiteral w) : Snug (literalDeclaration w) := by
  have hname : Snug (of "content") := by constructor <;> decide
  exact hname.append hw.snug (u := of ": ") (by decide) (by decide)

/-- What stands between the braces of the rule. -/
theorem trim_literalBody (hw : IsLiteral w) :
    trim (of " content: " ++ w ++ of "; ") = literalDeclaration w ++ [ch ';'] := by
  have hpad := ((snug_literalDeclaration hw).snoc (d := ch ';') (by decide) (by decide)).trim_pad
    (w := [ch ' ']) (v := [ch ' ']) (by decide) (by decide)
  have hinside : of " content: " ++ w ++ of "; " =
      [ch ' '] ++ (literalDeclaration w ++ [ch ';']) ++ [ch ' '] := by
    simp only [literalDeclaration, List.append_assoc]
    rfl
  rw [hinside, hpad]

/-- The rule is one block. -/
theorem locate_literalRule (hw : IsLiteral w) :
    locate (literalRule w) =
      ([⟨of ".a", some (literalDeclaration w ++ [ch ';']), 0⟩], none) := by
  let inside : Text := of " content: " ++ w ++ of "; "
  -- the rule as it is cut for the body and for the header
  have hsrc : literalRule w = of ".a \x7b" ++ inside ++ [ch '\x7d'] := by
    simp only [literalRule, inside, List.append_assoc]
    rfl
  have htext : literalRule w = of ".a " ++ ch '\x7b' :: (of " content: " ++
      (w ++ (of "; " ++ [ch '\x7d']))) := by
    simp only [literalRule, List.append_assoc]
    rfl
  have hend : 4 + (of " content: ").length + w.length + (of "; ").length =
      (of ".a \x7b" ++ inside).length := by
    have hopen : (of ".a \x7b").length = 4 := rfl
    simp only [inside, List.length_append, hopen]
    omega
  have hparens : parensBalanced 0 (of ".a ") = true := by decide
  obtain ⟨safe, hheading⟩ := Scan.run_heading (literalRule w) 0 0 0 0 0
    (ch '\x7b' :: (of " content: " ++ (w ++ (of "; " ++ [ch '\x7d'])))) (by decide) hparens
  have hheader : slice (literalRule w) 0 3 = of ".a " := slice_middle (a := []) htext
  have hbody : slice (literalRule w) 4 (of ".a \x7b" ++ inside).length = inside :=
    slice_middle hsrc
  have hfinished : (Scan.inside 3 0 safe 1).finished (literalRule w)
      (of ".a \x7b" ++ inside).length =
        [⟨of ".a", some (literalDeclaration w ++ [ch ';']), 0⟩] := by
    simp only [Scan.finished, Scan.inside, hheader, hbody, inside, trim_literalBody hw]
    rfl
  have hrest : Scan.run (literalRule w)
      (Scan.between 3 ((of ".a \x7b" ++ inside).length + 1))
        ((of ".a \x7b" ++ inside).length + 1) [] = ([], none) := by
    have hlength : (literalRule w).length = (of ".a \x7b" ++ inside).length + 1 := by
      rw [hsrc, List.length_append, List.length_singleton]
    rw [← hlength]
    exact congrArg (·, none) (Scan.looseBlocks_self (literalRule w) (literalRule w).length)
  calc locate (literalRule w)
    _ = Scan.run (literalRule w) (Scan.heading 0 0 0 safe 0) 3
          (ch '\x7b' :: (of " content: " ++ (w ++ (of "; " ++ [ch '\x7d'])))) := by
      rw [locate]
      nth_rewrite 2 [htext]
      exact hheading
    _ = Scan.run (literalRule w) (Scan.inside 3 0 safe 1) 4
          (of " content: " ++ (w ++ (of "; " ++ [ch '\x7d']))) := by
      rw [Scan.run_openBrace (Nat.le_refl 0) rfl, Scan.looseBlocks_self, List.nil_append]
    -- the literal leaves the state of the pass as it is
    _ = Scan.run (literalRule w) (Scan.inside 3 0 safe 1) (of ".a \x7b" ++ inside).length
          [ch '\x7d'] := by
      rw [Scan.run_inside (by decide), Scan.run_literal hw rfl rfl,
        Scan.run_inside (by decide), hend]
    _ = _ := by
      rw [Scan.run_closeBrace, hfinished, hrest, List.append_nil]

/-- The body of the rule is one declaration. -/
theorem locate_literalDeclaration (hw : IsLiteral w) (hsemicolon : ch ';' ∉ w) :
    ∃ b : Block, locate (literalDeclaration w ++ [ch ';']) = ([b], none) ∧
      b.header = literalDeclaration w ∧ b.body = none := by
  have hname : ch ';' ∉ of "content: " := by decide
  have hparts : ∀ u ∈ [literalDeclaration w], Snug u ∧ ch ';' ∉ u := by
    intro u hu
    rw [List.mem_singleton.mp hu]
    exact ⟨snug_literalDeclaration hw, by simp [literalDeclaration, hname, hsemicolon]⟩
  have hlocate : locate (literalDeclaration w ++ [ch ';']) =
      (looseParts 0 (split (ch ';') (literalDeclaration w ++ [ch ';'])), none) := by
    have hparens : parensBalanced 0 (of "content: ") = true := by decide
    obtain ⟨safe, hheading⟩ := Scan.run_heading (literalDeclaration w ++ [ch ';']) 0 0 0 0 0
      (w ++ [ch ';']) (by decide) hparens
    have hslice : slice (literalDeclaration w ++ [ch ';']) 0
        (literalDeclaration w ++ [ch ';']).length = literalDeclaration w ++ [ch ';'] := by
      simp [slice]
    calc locate (literalDeclaration w ++ [ch ';'])
      _ = Scan.run (literalDeclaration w ++ [ch ';']) (Scan.heading 0 0 0 safe 0)
            (0 + (of "content: ").length) (w ++ [ch ';']) := by
        rw [← hheading, ← List.append_assoc]
        rfl
      _ = _ := by
        rw [Scan.run_literal hw rfl rfl, Scan.run_loose rfl rfl rfl (by decide)]
        exact congrArg (fun t => (looseParts 0 (split (ch ';') t), none)) hslice
  have hfound := looseParts_split (w := []) (v := []) hparts
    (List.forall_mem_nil _) (List.forall_mem_nil _) (.inr rfl) 0
  rw [List.nil_append, join_singleton] at hfound
  obtain ⟨b, rest, hb, hrest, hloose⟩ := List.forall₂_cons_left_iff.mp hfound
  rw [List.forall₂_nil_left_iff.mp hrest] at hloose
  exact ⟨b, by rw [hlocate, hloose], hb⟩

/-! ### Values -/

/-- Without variables no reference is replaced. -/
theorem substitute_nil (shown : Value → Text) (t : Text) : substitute [] shown t = t := by
  have h (k : Nat) : substituteFrom (fun name => (([] : Context).lookup name).map shown) k t =
      t.drop k := by
    induction t generalizing k with
    | nil => simp [substituteFrom]
    | cons c r ih =>
      cases k with
      | succ k => exact ih k
      | zero =>
        rw [substituteFrom, leadingVar?]
        split_ifs with hvar
        · have hname : (r.takeWhile isName) ++ r.drop (r.takeWhile isName).length = r := by
            nth_rewrite 3 [← List.takeWhile_append_dropWhile (p := isName) (l := r)]
            rw [List.drop_left, List.takeWhile_append_dropWhile]
          dsimp only
          rw [ih]
          exact congrArg (c :: ·) hname
        · exact congrArg (c :: ·) (ih 0)
  exact h 0

/-- A literal is an expression for a value that is written like it, or none. -/
theorem evalText_literal {m : Type → Type} [Monad m] (hw : IsLiteral w) (env : Env m) :
    (∃ v : Value, evalText env w = pure (.ok v) ∧ v.text = w) ∨
      ∃ cause, evalText env w = pure (.error (.malformed cause)) := by
  rcases parse_literal hw with ⟨cause, hparse⟩ | ⟨v, hparse, hv⟩
  · exact .inr ⟨cause, by rw [evalText, evalTextWith, hparse]⟩
  · exact .inl ⟨v, by simp [evalText, evalTextWith, hparse, Expr.eval], hv⟩

/-- A literal has a value that is written like it, and nothing is reported. -/
theorem evaluateExpr_literal (opts : Options) (hw : IsLiteral w) (en : Engine) {scope : Scope}
    (hvars : scope.vars = []) {s : Session} (hcache : s.cache = []) (hdebug : s.debug = false) :
    ∃ v isExpr cache, outcome (en.evaluateExpr opts scope w) s =
      (.ok (v, isExpr), { s with cache }) ∧ v.text = w := by
  have hlookup : (if Engine.cacheable opts.disableCache s.userFunctions w then s.cache.lookup w
      else none) = none := by
    rw [hcache]
    exact ite_self _
  rw [Engine.evaluateExpr, outcome_bind, outcome_get]
  dsimp only
  rw [hlookup]
  dsimp only
  rcases evalText_literal hw (en.env opts.functions scope) with ⟨v, heval, hv⟩ | ⟨cause, heval⟩
  · rw [heval, pure_bind]
    dsimp only
    split_ifs with hkeep
    · exact ⟨v, true, (w, v) :: s.cache, rfl, hv⟩
    · exact ⟨v, true, s.cache, rfl, hv⟩
  · refine ⟨.plain w, false, s.cache, ?_, rfl⟩
    have hreport : outcome (Engine.reportFailure scope.file w (.malformed cause)) s =
        (.ok (), s) := by
      rw [Engine.reportFailure]
      · simp [outcome_bind, hdebug]
      · exact nofun
    rw [heval, pure_bind, hvars, substitute_nil]
    dsimp only
    rw [outcome_bind, hreport]
    rfl

theorem isPlain_literal (hw : IsLiteral w) : isPlain w = false := by
  obtain ⟨q, r, rfl, hq, -⟩ := isLiteral_iff.mp hw
  have hquote : isPlainByte q = false := by rcases isQuote_cases hq with rfl | rfl <;> decide
  simp [isPlain, hquote]

/-- The value of the declaration is written like the literal. -/
theorem valueIn_literal (opts : Options) (hw : IsLiteral w) (hbrace : ch '\x7b' ∉ w)
    (frame : Frame) {l : Locals} (hvars : l.vars = []) {s : Session} (hcache : s.cache = [])
    (hdebug : s.debug = false) (fuel : Nat) :
    ∃ (v : Value) (cache : _), v.text = w ∧
      outcome (((engine opts (fuel + 1)).valueIn frame w).run l) s =
        (.ok (v, l), { s with cache }) := by
  obtain ⟨v, isExpr, cache, heval, hv⟩ := evaluateExpr_literal opts hw (engine opts fuel)
    (show (⟨l.vars, l.registry, frame.file⟩ : Scope).vars = [] from hvars) hcache hdebug
  refine ⟨v, cache, hv, ?_⟩
  -- nothing is interpolated, and no plain word stands for itself: the literal is an expression
  have hevaluate (scope : Scope) : (engine opts (fuel + 1)).evaluate scope w =
      (engine opts fuel).evaluateExpr opts scope w := by
    change (engine opts fuel).evaluateWith opts scope w = _
    rw [Engine.evaluateWith, hw.snug.trim_eq, Engine.interpolate_eq hbrace, pure_bind,
      isPlain_literal hw, if_neg Bool.false_ne_true]
  have hcalculate : outcome ((engine opts (fuel + 1)).calculate
      ⟨l.vars, l.registry, frame.file⟩ w) s = (.ok v, { s with cache }) := by
    rw [Engine.calculate, hevaluate, outcome_bind, heval]
    rfl
  have hscope : outcome ((scopeIn frame).run l) s =
      (.ok (⟨l.vars, l.registry, frame.file⟩, l), s) := rfl
  rw [Engine.valueIn, outcome_run_bind hscope, outcome_run_lift hcalculate]

/-- The declaration emits the literal as it is. -/
theorem declaration_literal (opts : Options) (hw : IsLiteral w) (hbrace : ch '\x7b' ∉ w)
    {frame : Frame} (hframe : frame.IsOpen) {l : Locals} (hvars : l.vars = []) {s : Session}
    (hcache : s.cache = []) (hdebug : s.debug = false) (fuel : Nat) :
    ∃ cache, outcome (((engine opts (fuel + 1)).declaration frame (literalDeclaration w)).run l) s =
      (.ok ((), { l with properties := l.properties ++ [⟨of "content", some w⟩] }),
        { s with cache }) := by
  have hsplit : literalDeclaration w = of "content" ++ ch ':' :: ([ch ' '] ++ w) := rfl
  have htrim : trim ([ch ' '] ++ w) = w := by
    have hpad := hw.snug.trim_pad (w := [ch ' ']) (v := []) (by decide) (List.forall_mem_nil _)
    rwa [List.append_nil] at hpad
  obtain ⟨v, cache, hv, hvalue⟩ := valueIn_literal opts hw hbrace frame hvars hcache hdebug fuel
  refine ⟨cache, ?_⟩
  rw [hsplit, Engine.declaration_property hframe (by decide) (by decide) (by decide), htrim,
    outcome_run_bind hvalue, hv]
  rfl

/-! ### Expansion -/

/-- The rule spawns a fragment with its selector. -/
theorem block_literalRule {en : Engine} {frame : Frame} (hframe : frame.IsOpen)
    (hselectors : frame.selectors = [[]]) (prev : Branch) (body : Text) (offset : Nat) :
    en.block opts frame prev ⟨of ".a", some body, offset⟩ =
      (do
        spawn frame fun p => { p with code := body, selectors := [of ".a"], parents := [] }
        return (.done, .none)) := by
  have hsort : sortUnique [of ".a"] = [of ".a"] :=
    sortUnique_eq_self (List.pairwise_singleton _ _) (List.nodup_singleton _)
  have hparse : parseSelectors (of ".a") = ([of ".a"], []) := by
    have hown : splitExtends (of ".a") = (of ".a", []) := by decide
    have hselector : ((split (ch ',') (of ".a")).map collapse).filter (fun s => !s.isEmpty) =
        [of ".a"] := by decide
    rw [parseSelectors, hown]
    dsimp only
    rw [hselector, hsort]
    rfl
  have hnested : nestSelectors [[]] [of ".a"] = [of ".a"] := hsort
  have hnest : en.nest frame (of ".a") body =
      (do
        spawn frame fun p => { p with code := body, selectors := [of ".a"], parents := [] }
        return .done) := by
    rw [Engine.nest, if_neg (by decide), if_neg (by simp [hframe.spawns]),
      Engine.textIn_eq (by decide) (by decide), pure_bind, hparse]
    dsimp only
    rw [if_pos (by simp), hselectors, hnested]
  have hshorthand : expandShorthand (of ".a") = of ".a" := expandShorthand_eq (by decide)
  have hends : ends (of ".a") [ch ':'] = false := by decide
  rw [Engine.block, hshorthand, if_neg (by decide)]
  dsimp only
  rw [hends, if_neg Bool.false_ne_true, hframe.stem, if_pos List.isEmpty_nil, hnest]
  simp only [bind_assoc, pure_bind]

/-- The fragment of the rule, as it is expanded. -/
def literalFragment (opts : Options) (w : Text) : Fragment where
  id := 1
  file := opts.filename
  selectors := [of ".a"]
  properties := [⟨of "content", some w⟩]
  position := 1
  order := 1

/-- The fragment of the whole stylesheet. -/
def literalRoot (opts : Options) : Fragment where
  id := 0
  file := opts.filename
  selectors := [[]]

/-- The fragment of the rule, as it waits to be expanded. -/
def literalPending (opts : Options) (w : Text) : Pending :=
  { rootFragment opts (literalDeclaration w ++ [ch ';']) with id := 1, selectors := [of ".a"] }

/-- The whole stylesheet has the rule for its child. -/
theorem expandPending_literalRule (opts : Options) (hw : IsLiteral w) (fuel : Nat) :
    outcome (expandPending (engine opts (fuel + 1)) 0 (rootFragment opts (literalRule w)))
      opts.session =
        (.ok (literalRoot opts, [literalPending opts w]), { opts.session with nextId := 2 }) := by
  have hexpand (frame : Frame) (hframe : frame.IsOpen) (hselectors : frame.selectors = [[]]) :
      (engine opts (fuel + 1)).expand frame (literalRule w) =
        (do
          spawn frame fun p => { p with
            code := literalDeclaration w ++ [ch ';'], selectors := [of ".a"], parents := [] }
          return .done) := by
    change (engine opts fuel).expandWith opts frame (literalRule w) = _
    rw [Engine.expandWith, locate_literalRule hw]
    simp only [Engine.blocks, block_literalRule hframe hselectors, bind_assoc, pure_bind]
  have hrun : outcome (((engine opts (fuel + 1)).expand (rootFragment opts (literalRule w)).frame
      (literalRule w)).run (rootFragment opts (literalRule w)).locals) opts.session =
      (.ok (.done, { (rootFragment opts (literalRule w)).locals with
        children := [literalPending opts w] }), { opts.session with nextId := 2 }) := by
    rw [hexpand _ ⟨rfl, rfl, rfl⟩ rfl]
    rfl
  have hpending := outcome_expandPending (p := rootFragment opts (literalRule w)) rfl hrun 0
  exact hpending

/-- The rule has the declaration for its property. -/
theorem expandPending_literalDeclaration (hw : IsLiteral w) (hbrace : ch '\x7b' ∉ w)
    (hsemicolon : ch ';' ∉ w) (hpresets : opts.presets = []) (fuel : Nat) {s : Session}
    (hcache : s.cache = []) (hdebug : s.debug = false) :
    ∃ cache, outcome (expandPending (engine opts (fuel + 2)) 1 (literalPending opts w)) s =
      (.ok (literalFragment opts w, []), { s with cache }) := by
  obtain ⟨b, hlocate, hheader, hbody⟩ := locate_literalDeclaration hw hsemicolon
  have hshorthand : expandShorthand (literalDeclaration w) = literalDeclaration w :=
    expandShorthand_eq (by change ch 'c' ∉ _; decide)
  have hstarts : starts (literalDeclaration w) [ch '@'] = false :=
    starts_singleton_eq_false (by change ch 'c' ≠ _; decide)
  have hvars : (literalPending opts w).locals.vars = [] := by
    change seedContext opts.presets = []
    rw [hpresets]
    rfl
  obtain ⟨cache, hdeclaration⟩ := declaration_literal opts hw hbrace
    (show (literalPending opts w).frame.IsOpen from ⟨rfl, rfl, rfl⟩) hvars hcache hdebug fuel
  have hexpand : (engine opts (fuel + 2)).expand (literalPending opts w).frame
      (literalPending opts w).code =
        (do
          (engine opts (fuel + 1)).declaration (literalPending opts w).frame (literalDeclaration w)
          return .done) := by
    change (engine opts (fuel + 1)).expandWith opts _ (literalDeclaration w ++ [ch ';']) = _
    rw [Engine.expandWith, hlocate]
    simp only [Engine.blocks, Engine.block, hheader, hbody, hshorthand, hstarts, bind_assoc,
      pure_bind, Bool.false_eq_true, if_false]
  have hrun : outcome (((engine opts (fuel + 2)).expand (literalPending opts w).frame
      (literalPending opts w).code).run (literalPending opts w).locals) s =
      (.ok (.done, { (literalPending opts w).locals with
        properties := [⟨of "content", some w⟩] }), { s with cache }) := by
    rw [hexpand, outcome_run_bind hdeclaration]
    rfl
  have hpending := outcome_expandPending (p := literalPending opts w) rfl hrun 1
  exact ⟨cache, hpending⟩

/-- Expanding the stylesheet gives the fragments of the whole and of the rule. -/
theorem expandSource_literalRule (hw : IsLiteral w) (hplain : ¬Interpolated w)
    (hpresets : opts.presets = []) (fuel : Nat) :
    ∃ cache, outcome (expandSource (fuel + 2) opts (literalRule w)) opts.session =
      (.ok [literalRoot opts, literalFragment opts (protectText w)],
        { opts.session with nextId := 2, cache }) := by
  have hquiet : (∀ c ∈ of ".a \x7b content: ", isQuote c = false ∧ c ≠ ch '/') ∧
      ∀ c ∈ of "; \x7d", isQuote c = false ∧ c ≠ ch '/' := by decide
  have hnormal : normalize (literalRule w) = literalRule (protectText w) :=
    normalize_literal hw hplain hquiet.1 hquiet.2
  have hnone {c : UInt8} (hc : privateByte? c ≠ none) : c ∉ protectText w :=
    fun hmem => hc (privateByte?_of_mem_protectText hmem)
  have hroot := expandPending_literalRule opts hw.protectText (fuel + 1)
  obtain ⟨cache, hrule⟩ := expandPending_literalDeclaration hw.protectText
    (hnone (by decide)) (hnone (by decide)) hpresets fuel
    (s := { opts.session with nextId := 2 }) rfl rfl
  refine ⟨cache, ?_⟩
  rw [expandSource, outcome_tryCatch, ← normalize, hnormal, outcome_drain_cons hroot,
    List.append_nil, outcome_drain_cons hrule, List.append_nil, drain]
  rfl

/-! ### Printing -/

/-- The rule as it is written. -/
def literalCss (compress : Bool) (w : Text) : Text :=
  if compress then of ".a\x7bcontent:" ++ w ++ of "\x7d"
  else of ".a \x7b\n  content: " ++ w ++ of ";\n\x7d\n"

/-- An ASCII text that a protected text starts with is what the text starts with. -/
theorem prefix_of_prefix_protectText {p : Text} (hp : ∀ c ∈ p, c < 0x80)
    (h : p <+: protectText w) : p <+: w := by
  induction p generalizing w with
  | nil => exact List.nil_prefix
  | cons c p ih =>
    obtain ⟨hc, hp⟩ := List.forall_mem_cons.mp hp
    obtain ⟨t, ht⟩ := h
    obtain ⟨d, r, rfl, ⟨rfl, hrest⟩ | rfl⟩ := exists_of_protectText_eq_cons ht.symm
    · exact List.cons_prefix_cons.mpr ⟨rfl, ih hp ⟨t, hrest⟩⟩
    · exact absurd hc (by decide)

/-- Characters that are neither structural nor private are found in a protected text only
where they were. -/
theorem infix_of_infix_protectText {p : Text} (hne : p ≠ []) (hp : ∀ c ∈ p, c < 0x80)
    (h : p <:+: protectText w) : p <:+: w := by
  -- Inside a private character no ASCII text starts.
  have hprivate {c : UInt8} {r : Text} (hc : 0x80 ≤ c) : ¬p <+: c :: r := by
    intro hstart
    obtain ⟨d, p, rfl⟩ := List.exists_cons_of_ne_nil hne
    exact ne_of_high hc (hp d List.mem_cons_self) (List.cons_prefix_cons.mp hstart).1.symm
  induction w with
  | nil => exact h
  | cons c r ih =>
    have hstart := prefix_of_prefix_protectText hp (w := c :: r)
    rw [protectText_cons] at h hstart
    rw [List.infix_cons_iff]
    rcases protectByte_cases c with ⟨hc, -⟩ | ⟨b, hc, hb, -⟩
    · rw [hc, List.singleton_append] at h hstart
      exact (List.infix_cons_iff.mp h).imp hstart ih
    · rw [hc, List.cons_append, List.cons_append, List.cons_append, List.nil_append,
        List.infix_cons_iff, List.infix_cons_iff, List.infix_cons_iff] at h
      rcases h with h | h | h | h
      · exact absurd h (hprivate (by decide))
      · exact absurd h (hprivate (by decide))
      · exact absurd h (hprivate hb)
      · exact .inr (ih h)

/-- A text is not found before the first byte it starts with. -/
theorem infix_of_infix_append {c : UInt8} {p t u : Text} (hc : c ∉ t) (h : c :: p <:+: t ++ u) :
    c :: p <:+: u := by
  induction t with
  | nil => exact h
  | cons d t ih =>
    rw [List.cons_append, List.infix_cons_iff] at h
    refine h.elim (fun hstart => ?_) (ih fun ht => hc (List.mem_cons_of_mem d ht))
    exact absurd ((List.cons_prefix_cons.mp hstart).1 ▸ List.mem_cons_self) hc

theorem lines_literal (hw : IsLiteral w) (hmark : has w (of "!default") = false) (style : Style) :
    style.lines [] [] [⟨of "content", some (protectText w)⟩] =
      [of "content:" ++ style.space ++ protectText w] := by
  have htext : style.declaration ⟨of "content", some (protectText w)⟩ =
      of "content:" ++ style.space ++ protectText w := by
    have hname : of "content:" = of "content" ++ [ch ':'] := rfl
    rw [Style.declaration]
    dsimp only
    rw [style.shorten_literal hw.protectText, hname]
    simp only [List.append_assoc, List.cons_append, List.nil_append]
  have hdefault : has (of "content:" ++ style.space ++ protectText w) (of "!default") = false := by
    refine Bool.eq_false_iff.mpr fun h => Bool.eq_false_iff.mp hmark (has_iff.mpr ?_)
    have hword : of "!default" = ch '!' :: of "default" := rfl
    have hbefore : ch '!' ∉ of "content:" ++ style.space := by
      unfold Style.space
      cases style.compress <;> decide
    rw [hword] at h ⊢
    have hinfix := infix_of_infix_append hbefore (has_iff.mp h)
    exact infix_of_infix_protectText (List.cons_ne_nil _ _) (by decide) hinfix
  have hne : of "content:" ++ style.space ++ protectText w ≠ [] :=
    List.append_ne_nil_of_left_ne_nil (List.append_ne_nil_of_left_ne_nil (by decide) _) _
  rw [Style.lines, htext, hdefault, Bool.false_and, Bool.false_or, if_neg Bool.false_ne_true,
    if_neg (by simpa using hne), Style.lines]

/-- The rule is written with its one declaration. -/
theorem print_literalFragment (hw : IsLiteral w) (hmark : has w (of "!default") = false)
    (style : Style) :
    style.print [(literalRoot opts).rank, (literalFragment opts (protectText w)).rank] =
      literalCss style.compress (protectText w) := by
  have hgroups : MediaGroup.ofFragments (emittedOf
      [(literalRoot opts).rank, (literalFragment opts (protectText w)).rank]) =
      [⟨[], [.rule [of ".a"] [⟨of "content", some (protectText w)⟩]]⟩] := rfl
  have hkey : (join [ch ','] [of ".a"]).isEmpty = false := rfl
  rw [Style.print, hgroups, List.flatMap_singleton, Style.group, if_pos List.isEmpty_nil,
    List.flatMap_singleton, Style.item, hkey, if_neg Bool.false_ne_true, join_singleton,
    Style.declarations, lines_literal hw hmark, List.flatMap_singleton, Style.block, literalCss]
  unfold Style.line Style.space
  cases style.compress with
  | true =>
    simp only [if_true, List.append_nil]
    rw [withoutEnd_concat]
    simp only [List.append_assoc]
    rfl
  | false =>
    simp only [Bool.false_eq_true, if_false, List.append_assoc]
    rfl

theorem restore_literalCss (hw : Public w) (compress : Bool) :
    restore (literalCss compress (protectText w)) = literalCss compress w := by
  have hlasting {t u : Text} {c : UInt8} (ht : ∀ d ∈ t, d < 0x80) (hu : ∀ d ∈ c :: u, d < 0x80) :
      restore (t ++ protectText w ++ c :: u) = t ++ w ++ c :: u := by
    obtain ⟨hc, hu⟩ := List.forall_mem_cons.mp hu
    rw [List.append_assoc, lasting_of_ascii ht, restore_append_ascii hc, restore_protectText hw,
      (lasting_of_ascii hu).restore_eq, List.append_assoc]
  unfold literalCss
  cases compress with
  | true => exact hlasting (u := []) (by decide) (by decide)
  | false => exact hlasting (u := of "\n\x7d\n") (by decide) (by decide)

/-- A literal without interpolations and private characters is written as it is. -/
theorem compileWith_literal (hw : IsLiteral w) (hplain : ¬Interpolated w) (hpublic : Public w)
    (hmark : has w (of "!default") = false) (hpresets : opts.presets = []) {fuel : Nat}
    (hfuel : 2 ≤ fuel) :
    ∃ fragments, compileWith fuel opts (of ".a \x7b content: " ++ w ++ of "; \x7d") =
      ⟨.ok ⟨if opts.compress then of ".a\x7bcontent:" ++ w ++ of "\x7d"
        else of ".a \x7b\n  content: " ++ w ++ of ";\n\x7d\n", fragments⟩, []⟩ := by
  obtain ⟨depth, rfl⟩ : ∃ depth, fuel = depth + 2 := ⟨fuel - 2, by omega⟩
  obtain ⟨cache, hexpand⟩ := expandSource_literalRule hw hplain hpresets depth
  let fs : List Fragment := [literalRoot opts, literalFragment opts (protectText w)]
  have hsort : fs.mergeSort (fun f g => f.id ≤ g.id) = fs :=
    List.mergeSort_of_pairwise (by simp [fs, literalRoot, literalFragment])
  have hlinked : resolveExtends fs = (fs, []) :=
    resolveExtends_eq_self (by simp [fs, literalRoot, literalFragment])
  have hordered : orderFragments fs = fs.map Fragment.rank :=
    orderFragments_eq (.refl fs) (by simp [fs, literalRoot, literalFragment])
      (by simp [fs, literalRoot, literalFragment]) (by simp [fs, literalRoot, literalFragment])
  have hstyle : ({ opts.session with nextId := 2, cache } : Session).style =
      ⟨opts.compress, opts.shortColors, opts.reverseColors⟩ := rfl
  refine ⟨emittedOf (fs.map Fragment.rank), ?_⟩
  rw [compileWith_eq, ← literalRule, hexpand, Outcome.ofExpansion, finishFragments, hsort, hlinked]
  dsimp only
  rw [hordered, hstyle, show fs.map Fragment.rank = [_, _] from rfl,
    print_literalFragment hw hmark, restore_literalCss hpublic]
  rfl

/-- A literal with structure, a comment, a reference and escapes in it, and an escaped
backslash at its end. -/
def sampleLiteral : Text := of "'\x7b a: 1; \x7d // $b \\' /* \\\\'"

theorem sampleLiteral_compiles :
    IsLiteral sampleLiteral ∧ ¬Interpolated sampleLiteral ∧ Public sampleLiteral ∧
      ∃ fragments, compileWith 2 {} (of ".a \x7b content: " ++ sampleLiteral ++ of "; \x7d") =
        ⟨.ok ⟨of ".a\x7bcontent:" ++ sampleLiteral ++ of "\x7d", fragments⟩, []⟩ := by
  have hliteral : IsLiteral sampleLiteral := by decide
  have hplain : ¬Interpolated sampleLiteral := by
    rintro ⟨a, b, c, h⟩
    have hhash : ch '#' ∈ sampleLiteral := by
      rw [h]
      simp
    exact absurd hhash (by decide)
  have hpublic : Public sampleLiteral := by decide
  exact ⟨hliteral, hplain, hpublic, compileWith_literal hliteral hplain hpublic
    (by decide) rfl (Nat.le_refl 2)⟩

end Stylesheet
