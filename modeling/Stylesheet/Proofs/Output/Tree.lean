import Stylesheet.Proofs.Plain.Print
import Stylesheet.Proofs.Source.Passages

/-!
# Trees of CSS, written and read

A stylesheet as a tree: lines, and blocks under selectors or a media query with more of
the same in them. A tree is written in a style, and a text is decoded into a tree by
taking it apart into blocks again and again, down to the declarations. Decoding undoes
writing in every style, as long as nothing in the tree looks like its own punctuation.

## Main definitions

* `CssHeading`, `CssNode` — the tree
* `Style.forest` — how a tree is written
* `decode` — the tree of a text
* `CssNode.Tidy` — trees whose texts have no punctuation in them

## Main results

* `length_lt_of_mem_locate` — the body of a block is shorter than the text it is found in
* `CssNode.Tidy.passage` — what is written for a node is read as the node
* `decode_forest` — decoding undoes writing
-/

namespace Stylesheet

open Text

/-- What stands before the brace of a block. -/
inductive CssHeading where
  | rule (selectors : List Text)
  | media (query : Text)
  deriving DecidableEq

/-- A declaration or bare line, or a block. -/
inductive CssNode where
  | line (p : Property)
  | block (heading : CssHeading) (content : List CssNode)

/-! ### Writing -/

namespace Style

variable (s : Style)

/-- The text of a heading. -/
def heading : CssHeading → Text
  | .rule selectors => join (ch ',' :: s.space) selectors
  | .media query => of "@media " ++ query

mutual

/-- The text of a node at a level of indentation. -/
def node : (level : Nat) → CssNode → Text
  | level, .line p => s.line level (s.declaration p ++ [ch ';'])
  | level, .block heading content =>
    s.block level (s.heading heading) (forest (level + 1) content)

/-- The text of nodes at a level of indentation. -/
def forest : (level : Nat) → List CssNode → Text
  | _, [] => []
  | level, n :: rest => node level n ++ forest level rest

end

theorem forest_append (level : Nat) (ns ns' : List CssNode) :
    s.forest level (ns ++ ns') = s.forest level ns ++ s.forest level ns' := by
  induction ns with
  | nil => rw [List.nil_append, forest, List.nil_append]
  | cons n ns ih => rw [List.cons_append, forest, forest, ih, List.append_assoc]

theorem forest_singleton (level : Nat) (n : CssNode) : s.forest level [n] = s.node level n := by
  rw [forest, forest, List.append_nil]

theorem forest_flatMap {α : Type} (level : Nat) (f : α → List CssNode) (items : List α) :
    s.forest level (items.flatMap f) = items.flatMap fun i => s.forest level (f i) := by
  induction items with
  | nil => rw [List.flatMap_nil, forest, List.flatMap_nil]
  | cons i items ih => rw [List.flatMap_cons, forest_append, ih, List.flatMap_cons]

end Style

/-! ### Reading -/

/-- The heading that a header is. -/
def CssHeading.read (t : Text) : CssHeading :=
  match t.after? (of "@media") with
  | some query => .media (trim query)
  | none => .rule ((split (ch ',') t).map trim)

/-- The declaration that a text is, split at its first colon, or else the bare line. -/
def Property.read (t : Text) : Property :=
  match cut (ch ':') t with
  | some (name, value) => ⟨trim name, some (trim value)⟩
  | none => ⟨trim t, none⟩

theorem length_trim_le (t : Text) : (trim t).length ≤ t.length := by
  obtain ⟨w, v, ht, -⟩ := exists_trim_eq t
  have hlength := congrArg List.length ht
  simp only [List.length_append] at hlength
  omega

theorem Scan.length_lt_of_mem_finished {src : Text} {s : Scan} {i : Nat} {b : Block} {body : Text}
    (hb : b ∈ s.finished src i) (hbody : b.body = some body) (hi : i < src.length) :
    body.length < src.length := by
  simp only [finished] at hb
  split_ifs at hb
  · simp at hb
  · obtain rfl := List.mem_singleton.mp hb
    obtain rfl := Option.some.inj hbody
    refine Nat.lt_of_le_of_lt (length_trim_le _) (Nat.lt_of_le_of_lt ?_ hi)
    simp only [slice, List.length_drop, List.length_take]
    omega

/-- The pass over the rest of a text: a block ends before the text does. -/
theorem Scan.length_lt_of_mem_run {src rest : Text} {s : Scan} {i : Nat} {b : Block} {body : Text}
    (hb : b ∈ (Scan.run src s i rest).1) (hbody : b.body = some body)
    (hi : i + rest.length = src.length) : body.length < src.length := by
  induction rest generalizing s i with
  | nil => simp [body_of_mem_finish hb] at hbody
  | cons c rest ih =>
    rw [List.length_cons] at hi
    rw [Scan.run] at hb
    cases hstep : s.step src i c with
    | error e => simp [hstep] at hb
    | ok r =>
      obtain ⟨s', found⟩ := r
      simp only [hstep, List.mem_append] at hb
      rcases hb with hb | hb
      · -- Only a closing brace yields a block with a body.
        rcases step_cases hstep with ⟨rfl, -⟩ | ⟨-, -, hopen⟩ | ⟨-, -, -, hclose⟩
        · cases hb
        · have hnone : b.body = none := body_of_mem_openBrace (s := s) (by rwa [hopen])
          simp [hnone] at hbody
        · unfold closeBrace at hclose
          split_ifs at hclose
          · obtain ⟨-, rfl⟩ := Prod.mk.inj hclose
            cases hb
          · obtain ⟨-, rfl⟩ := Prod.mk.inj hclose
            cases hb
          · obtain ⟨-, rfl⟩ := Prod.mk.inj hclose
            exact length_lt_of_mem_finished hb hbody (by omega)
      · exact ih hb (by omega)

/-- The body of a block is shorter than the text it is found in. -/
theorem length_lt_of_mem_locate {t body : Text} {b : Block} (hb : b ∈ (locate t).1)
    (hbody : b.body = some body) : body.length < t.length :=
  Scan.length_lt_of_mem_run hb hbody (Nat.zero_add _)

/-- The tree of a text: its blocks, with their bodies decoded; nothing if the text is
unbalanced. -/
def decode (t : Text) : Option (List CssNode) :=
  if (locate t).2.isSome then none
  else (locate t).1.attach.mapM fun b =>
    match _hbody : b.1.body with
    | none => some (.line (.read b.1.header))
    | some body => (decode body).map (.block (.read b.1.header))
termination_by t.length
decreasing_by exact length_lt_of_mem_locate b.2 ‹_›

/-- The node that a header with or without a body is. -/
def decodePart : Text × Option Text → Option CssNode
  | (header, none) => some (.line (.read header))
  | (header, some body) => (decode body).map (.block (.read header))

theorem decode_eq {t : Text} (ht : (locate t).2 = none) :
    decode t = ((locate t).1.map Block.parts).mapM decodePart := by
  -- A block is decoded by its parts alone; that it was found in `t` is for termination.
  have hwhole : ((locate t).1.map Block.parts).mapM decodePart =
      (locate t).1.attach.mapM (decodePart ∘ Block.parts ∘ Subtype.val) := by
    rw [← List.mapM_map, ← List.map_map, List.attach_map_subtype_val]
  rw [decode, ht, if_neg (by simp), hwhole]
  congr 1
  funext b
  simp only [Function.comp, Block.parts, decodePart]
  split <;> simp_all [decodePart]

/-! ### Texts without punctuation -/

/-- The bytes that a stylesheet is put together with. -/
def outputMarks : Text :=
  [ch '\x7b', ch '\x7d', ch '(', ch ')', ch ';', ch ',', ch '"', ch '\'', ch '\n']

/-- A text that can stand anywhere in a stylesheet without changing what is around it. -/
structure CleanText (t : Text) : Prop where
  snug : Snug t
  no_mark : ∀ c ∈ t, c ∉ outputMarks
  not_hash : t.getLast? ≠ some (ch '#')

/-- A byte of a clean text. -/
theorem CleanText.byte {t : Text} (ht : CleanText t) {c : UInt8} (hc : c ∈ t) :
    isHeaderByte c = true ∧ c ≠ ch '(' ∧ c ≠ ch ')' ∧ c ≠ ch ',' := by
  have hmark := ht.no_mark c hc
  simp only [outputMarks, List.mem_cons, List.not_mem_nil, not_or, or_false] at hmark
  obtain ⟨hopen, hclose, hleft, hright, hsemicolon, hcomma, hdouble, hsingle, hline⟩ := hmark
  have hquote := isQuote_eq_false hdouble hsingle
  exact ⟨by simp [isHeaderByte, hquote, hopen, hclose, hsemicolon, hline], hleft, hright, hcomma⟩

/-- A header byte that is no parenthesis. -/
theorem unmarked_of_isHeaderByte {t : Text}
    (ht : ∀ c ∈ t, isHeaderByte c = true ∧ c ≠ ch '(' ∧ c ≠ ch ')') :
    Unmarked t ∧ ch ';' ∉ t := by
  constructor
  · intro c hc
    obtain ⟨hbyte, hleft, hright⟩ := ht c hc
    simp only [isHeaderByte, Bool.and_eq_true, Bool.not_eq_true', decide_eq_true_eq] at hbyte
    exact ⟨hbyte.1.1.1.1, hleft, hright, hbyte.1.1.1.2, hbyte.1.1.2⟩
  · exact fun hc => absurd (ht _ hc).1 (by decide)

theorem isHeaderByte_of_mem_space {s : Style} {c : UInt8} (hc : c ∈ s.space) :
    isHeaderByte c = true ∧ c ≠ ch '(' ∧ c ≠ ch ')' := by
  obtain rfl := eq_space_of_mem_gap hc
  decide

theorem cut_append_cons {c : UInt8} {t u : Text} (ht : c ∉ t) :
    cut c (t ++ c :: u) = some (t, u) := by
  simp [cut, indexOf_append_cons ht]

theorem cut_eq_none {c : UInt8} {t : Text} (ht : c ∉ t) : cut c t = none := by
  have hindex : indexOf c t = none := by
    rw [indexOf, List.findIdx?_eq_none_iff]
    intro d hd
    simpa using ne_of_mem_of_not_mem hd ht
  rw [cut, hindex]
  rfl

theorem after?_append (t u : Text) : after? (t ++ u) t = some u := by
  have hstarts : starts (t ++ u) t = true :=
    List.isPrefixOf_iff_prefix.mpr (List.prefix_append t u)
  rw [after?, if_pos hstarts, List.drop_left]

/-- Splitting at a separator and trimming undoes joining with space after the separator. -/
theorem map_trim_split_join {sep : UInt8} {w v : Text} {ts : List Text} (hne : ts ≠ [])
    (hts : ∀ t ∈ ts, Snug t ∧ sep ∉ t) (hw : ∀ c ∈ w, blank1 c = true ∧ c ≠ sep)
    (hv : ∀ c ∈ v, blank1 c = true ∧ c ≠ sep) :
    (split sep (v ++ join (sep :: w) ts)).map trim = ts := by
  induction ts generalizing v with
  | nil => exact absurd rfl hne
  | cons t ts ih =>
    obtain ⟨⟨hsnug, hsep⟩, hts⟩ := List.forall_mem_cons.mp hts
    have hpart : sep ∉ v ++ t := by
      rw [List.mem_append, not_or]
      exact ⟨fun h => (hv sep h).2 rfl, hsep⟩
    have htrim : trim (v ++ t) = t := by
      simpa using hsnug.trim_pad (fun c hc => (hv c hc).1) (List.forall_mem_nil _)
    cases ts with
    | nil =>
      have hlone := split_join (List.cons_ne_nil (v ++ t) [])
        fun u hu => List.mem_singleton.mp hu ▸ hpart
      rw [join_singleton] at hlone ⊢
      rw [hlone, List.map_singleton, htrim]
    | cons u ts =>
      have hsplit : v ++ join (sep :: w) (t :: u :: ts) =
          (v ++ t) ++ sep :: (w ++ join (sep :: w) (u :: ts)) := by
        rw [join_cons_cons]
        simp
      rw [hsplit, split_append_cons hpart, List.map_cons, htrim, ih (List.cons_ne_nil u ts) hts hw]

/-! ### Headings -/

/-- A heading made of clean texts. A selector does not start like an at-rule. -/
def CssHeading.Tidy : CssHeading → Prop
  | .rule selectors => selectors ≠ [] ∧ ∀ t ∈ selectors, CleanText t ∧ head0 t ≠ ch '@'
  | .media query => CleanText query

/-- A header is clean but for commas. -/
structure CleanHeader (t : Text) : Prop where
  snug : Snug t
  byte : ∀ c ∈ t, isHeaderByte c = true ∧ c ≠ ch '(' ∧ c ≠ ch ')'
  not_hash : ∀ u, t ≠ u ++ [ch '#']

theorem not_concat_of_getLast? {t : Text} (h : t.getLast? ≠ some (ch '#')) (u : Text) :
    t ≠ u ++ [ch '#'] := by
  rintro rfl
  exact h List.getLast?_concat

namespace CssHeading.Tidy

variable {style : Style} {h : CssHeading}

theorem cleanHeader (hh : h.Tidy) : CleanHeader (style.heading h) := by
  cases h with
  | media query =>
    have hword : Snug (of "@media") := by constructor <;> decide
    refine ⟨hword.append hh.snug (u := [ch ' ']) (by simp) (by decide), fun c hc => ?_,
      not_concat_of_getLast? ?_⟩
    · rcases List.mem_append.mp hc with hc | hc
      · have hword : ∀ c ∈ of "@media ", isHeaderByte c = true ∧ c ≠ ch '(' ∧ c ≠ ch ')' := by
          decide
        exact hword c hc
      · exact ⟨(hh.byte hc).1, (hh.byte hc).2.1, (hh.byte hc).2.2.1⟩
    · rw [Style.heading, List.getLast?_append_of_ne_nil _ hh.snug.ne_nil]
      exact hh.not_hash
  | rule selectors =>
    obtain ⟨hne, hselectors⟩ := hh
    -- a comma is no byte of a selector, but one of a header
    have hcomma : ∀ c ∈ ch ',' :: style.space,
        isHeaderByte c = true ∧ c ≠ ch '(' ∧ c ≠ ch ')' :=
      List.forall_mem_cons.mpr ⟨by decide, fun c hc => isHeaderByte_of_mem_space hc⟩
    refine ⟨snug_join hne (fun t ht => (hselectors t ht).1.snug) (by simp) ?_, fun c hc => ?_,
      not_concat_of_getLast? ?_⟩
    · refine List.forall_mem_cons.mpr ⟨by decide, fun c hc => ?_⟩
      rw [eq_space_of_mem_gap hc]
      decide
    · rcases mem_join hc with hc | ⟨t, ht, hc⟩
      · exact hcomma c hc
      · have hbyte := (hselectors t ht).1.byte hc
        exact ⟨hbyte.1, hbyte.2.1, hbyte.2.2.1⟩
    · rw [Style.heading, getLast?_join fun t ht => (hselectors t ht).1.snug.ne_nil,
        List.getLast?_eq_some_getLast hne]
      exact (hselectors _ (List.getLast_mem hne)).1.not_hash

/-- The heading of a header is the one it was written for. -/
theorem read_heading (hh : h.Tidy) : CssHeading.read (style.heading h) = h := by
  cases h with
  | media query =>
    have hword : of "@media " = of "@media" ++ [ch ' '] := by decide
    have hafter : (of "@media " ++ query).after? (of "@media") = some ([ch ' '] ++ query) := by
      rw [hword, List.append_assoc]
      exact after?_append _ _
    have htrim : trim ([ch ' '] ++ query ++ []) = query :=
      hh.snug.trim_pad (by decide) (List.forall_mem_nil _)
    rw [List.append_nil] at htrim
    rw [CssHeading.read, Style.heading, hafter]
    exact congrArg CssHeading.media htrim
  | rule selectors =>
    obtain ⟨hne, hselectors⟩ := hh
    -- The first selector does not start like an at-rule, so the header does not.
    have hafter : (join (ch ',' :: style.space) selectors).after? (of "@media") = none := by
      obtain ⟨t, ts, rfl⟩ := List.exists_cons_of_ne_nil hne
      obtain ⟨hclean, hat⟩ := hselectors t List.mem_cons_self
      obtain ⟨c, r, rfl⟩ := List.exists_cons_of_ne_nil hclean.snug.ne_nil
      rw [join_cons, after?, if_neg]
      intro hstarts
      obtain ⟨u, hu⟩ := List.isPrefixOf_iff_prefix.mp hstarts
      exact hat (List.cons.inj hu).1.symm
    have hspace : ∀ c ∈ style.space, blank1 c = true ∧ c ≠ ch ',' := by
      intro c hc
      rw [eq_space_of_mem_gap hc]
      decide
    rw [CssHeading.read, Style.heading, hafter]
    refine congrArg CssHeading.rule ?_
    exact map_trim_split_join (v := []) hne
      (fun t ht => ⟨(hselectors t ht).1.snug, fun hc => ((hselectors t ht).1.byte hc).2.2.2 rfl⟩)
      hspace (List.forall_mem_nil _)

end CssHeading.Tidy

/-! ### Lines -/

/-- A declaration or bare line made of clean texts, which the style writes as they are. -/
structure Property.Tidy (style : Style) (p : Property) : Prop where
  name : CleanText p.name
  no_colon : ch ':' ∉ p.name
  value : ∀ v ∈ p.value, CleanText v ∧ style.shorten v = v
  no_default : has (style.declaration p) (of "!default") = false

namespace Property.Tidy

variable {style : Style} {p : Property}

theorem cleanLine (hp : p.Tidy style) :
    Snug (style.declaration p) ∧
      ∀ c ∈ style.declaration p, isHeaderByte c = true ∧ c ≠ ch '(' ∧ c ≠ ch ')' := by
  obtain ⟨name, value⟩ := p
  have hname {c : UInt8} (hc : c ∈ name) :=
    (⟨(hp.name.byte hc).1, (hp.name.byte hc).2.1, (hp.name.byte hc).2.2.1⟩ :
      isHeaderByte c = true ∧ c ≠ ch '(' ∧ c ≠ ch ')')
  cases value with
  | none => exact ⟨hp.name.snug, fun c hc => hname hc⟩
  | some v =>
    obtain ⟨hv, hshort⟩ := hp.value v rfl
    rw [Style.declaration]
    dsimp only
    rw [hshort]
    constructor
    · refine hp.name.snug.append hv.snug (by simp) ?_
      refine List.forall_mem_cons.mpr ⟨by decide, fun c hc => ?_⟩
      rw [eq_space_of_mem_gap hc]
      decide
    · intro c hc
      simp only [List.append_assoc, List.cons_append, List.mem_append, List.mem_cons] at hc
      rcases hc with hc | rfl | hc | hc
      · exact hname hc
      · decide
      · exact isHeaderByte_of_mem_space hc
      · exact ⟨(hv.byte hc).1, (hv.byte hc).2.1, (hv.byte hc).2.2.1⟩

/-- The line of a text is the one it was written for. -/
theorem read_declaration (hp : p.Tidy style) : Property.read (style.declaration p) = p := by
  obtain ⟨name, value⟩ := p
  cases value with
  | none =>
    rw [Style.declaration, Property.read]
    dsimp only
    rw [cut_eq_none hp.no_colon]
    dsimp only
    rw [hp.name.snug.trim_eq]
  | some v =>
    obtain ⟨hv, hshort⟩ := hp.value v rfl
    have hspace : ∀ c ∈ style.space, blank1 c = true := by
      intro c hc
      rw [eq_space_of_mem_gap hc]
      decide
    have htrim : trim (style.space ++ v) = v := by
      simpa using hv.snug.trim_pad hspace (List.forall_mem_nil _)
    rw [Style.declaration, Property.read]
    dsimp only
    rw [hshort, List.append_assoc, List.cons_append, cut_append_cons hp.no_colon]
    dsimp only
    rw [hp.name.snug.trim_eq, htrim]

end Property.Tidy

/-! ### Trees -/

/-- A tree whose texts have no punctuation in them. -/
inductive CssNode.Tidy (style : Style) : CssNode → Prop
  | line {p : Property} (hp : p.Tidy style) : Tidy style (.line p)
  | block {h : CssHeading} {content : List CssNode} (hh : h.Tidy)
      (hcontent : ∀ n ∈ content, n.Tidy style) : Tidy style (.block h content)

/-- What is written between the braces of a block, and before them. -/
def Style.chunk (s : Style) (level : Nat) (header content : Text) : Chunk :=
  ⟨header, s.space,
    lineEnd s.compress ++ (if s.compress then withoutEnd content [ch ';'] else content) ++
      indent s.compress level⟩

/-- The passage that is written for a node. -/
def Style.passage (s : Style) (level : Nat) : CssNode → Passage
  | .line p => .declaration (s.declaration p)
  | .block h content => .block (s.chunk level (s.heading h) (s.forest (level + 1) content))

section Layout

variable {s : Style} {level : Nat}

theorem isPad_indent (compress : Bool) (level : Nat) : IsPad (indent compress level) :=
  fun _ hc => isPadByte_of_mem_indent hc

theorem isPad_lineEnd (compress : Bool) : IsPad (lineEnd compress) :=
  fun _ hc => isPadByte_of_mem_lineEnd hc

theorem Style.block_eq_chunk (header content : Text) : s.block level header content =
    indent s.compress level ++ (s.chunk level header content).text ++ lineEnd s.compress := by
  rw [Style.block, Style.line_eq, Style.line_eq, Style.chunk, Chunk.text]
  simp

/-- The text of nodes is laid out from their passages. -/
theorem lays_forest (ns : List CssNode) : Lays (ns.map (s.passage level)) (s.forest level ns) := by
  induction ns with
  | nil =>
    rw [Style.forest]
    exact .pad isPad_nil
  | cons n ns ih =>
    have hrest := ih.pad_left (isPad_lineEnd s.compress)
    rw [List.map_cons, Style.forest]
    cases n with
    | line p =>
      have hline : s.node level (.line p) ++ s.forest level ns =
          indent s.compress level ++ s.declaration p ++
            ch ';' :: (lineEnd s.compress ++ s.forest level ns) := by
        rw [Style.node, Style.line_eq]
        simp
      rw [hline]
      exact .declaration (isPad_indent _ _) hrest
    | block h content =>
      rw [Style.node, Style.block_eq_chunk, List.append_assoc]
      exact .block (isPad_indent _ _) hrest

/-- So is what is written between the braces of a block. -/
theorem lays_content {header : Text} {ns : List CssNode}
    (hns : ∀ n ∈ ns, (s.passage (level + 1) n).Sound) :
    Lays (ns.map (s.passage (level + 1)))
      (s.chunk level header (s.forest (level + 1) ns)).content := by
  have hforest : Lays (ns.map (s.passage (level + 1))) (s.forest (level + 1) ns) := lays_forest ns
  refine Lays.pad_right (Lays.pad_left ?_ (isPad_lineEnd _)) (isPad_indent _ _)
  split_ifs
  · exact hforest.withoutEnd (List.forall_mem_map.mpr hns)
  · exact hforest

end Layout

/-- A text that is laid out from passages of nodes is decoded to the nodes. -/
theorem decode_of_lays {t : Text} {ns : List CssNode} {f : CssNode → Passage}
    (h : Lays (ns.map f) t) (hsound : ∀ n ∈ ns, (f n).Sound)
    (hread : ∀ n ∈ ns, decodePart (f n).parts = some n) : decode t = some ns := by
  obtain ⟨hnone, hparts⟩ := locate_of_lays h (List.forall_mem_map.mpr hsound)
  rw [decode_eq hnone, hparts, List.map_map]
  clear h hsound hnone hparts
  induction ns with
  | nil => rfl
  | cons n ns ih =>
    obtain ⟨hn, hns⟩ := List.forall_mem_cons.mp hread
    rw [List.map_cons, List.mapM_cons, Function.comp_apply, hn, ih hns]
    rfl

/-- What is written for a node is sound, and read as the node. The induction is on the
tree: the content of a block is laid out from the passages of its nodes. -/
theorem CssNode.Tidy.passage {style : Style} {n : CssNode} (hn : n.Tidy style) (level : Nat) :
    (style.passage level n).Sound ∧ decodePart (style.passage level n).parts = some n := by
  induction hn generalizing level with
  | line hp =>
    obtain ⟨hsnug, hbytes⟩ := hp.cleanLine
    refine ⟨⟨hsnug, unmarked_of_isHeaderByte hbytes⟩, ?_⟩
    rw [Style.passage, Passage.parts, decodePart, hp.read_declaration]
  | @block h content hh _ ih =>
    have hheader : CleanHeader (style.heading h) := hh.cleanHeader
    have hunmarked := (unmarked_of_isHeaderByte hheader.byte).1
    have hsound : ∀ m ∈ content, (style.passage (level + 1) m).Sound :=
      fun m hm => (ih m hm (level + 1)).1
    have hlays : Lays (content.map (style.passage (level + 1)))
        (style.chunk level (style.heading h) (style.forest (level + 1) content)).content :=
      lays_content hsound
    have hmap := List.forall_mem_map.mpr hsound
    have hparens := parensBalanced_of_forall (fun c hc => (hheader.byte c hc).2) 0 []
    rw [List.append_nil] at hparens
    refine ⟨⟨⟨hheader.snug, fun c hc => (hheader.byte c hc).1, hparens,
      fun c hc => eq_space_of_mem_gap hc, hheader.not_hash, hlays.bracesBalanced hmap⟩,
      hunmarked⟩, ?_⟩
    -- What is found between the braces is trimmed, which keeps the layout.
    have hdecode := decode_of_lays (hlays.trim hmap) hsound fun m hm => (ih m hm (level + 1)).2
    rw [Style.passage, Passage.parts, decodePart, hdecode]
    exact congrArg (some ∘ (CssNode.block · content)) hh.read_heading

/-- Decoding undoes writing. -/
theorem decode_forest {style : Style} {ns : List CssNode} (hns : ∀ n ∈ ns, n.Tidy style)
    (level : Nat) :
    (locate (style.forest level ns)).2 = none ∧ decode (style.forest level ns) = some ns := by
  have hsound : ∀ n ∈ ns, (style.passage level n).Sound := fun n hn => ((hns n hn).passage level).1
  exact ⟨(locate_of_lays (lays_forest ns) (List.forall_mem_map.mpr hsound)).1,
    decode_of_lays (lays_forest ns) hsound fun n hn => ((hns n hn).passage level).2⟩

end Stylesheet
