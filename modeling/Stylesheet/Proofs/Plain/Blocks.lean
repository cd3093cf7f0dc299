import Mathlib.Data.List.Forall2
import Stylesheet.Proofs.Plain.Sheet

/-!
# Plain stylesheets taken apart

The text of a plain stylesheet is taken apart into its rules and media blocks, the body
of a media block into its rules, and the body of a rule into its declarations. There is
nothing to normalize in it.

## Main results

* `normalize_renderSheet` — normalizing leaves a plain stylesheet as it is
* `locate_renderSheet`, `locate_renderRules`, `locate_content` — its blocks
-/

namespace Stylesheet

open Text

variable {compress : Bool} {style : Style}

/-! ### Bytes -/

theorem isPadByte_of_mem_lineEnd {c : UInt8} (hc : c ∈ lineEnd compress) : isPadByte c = true := by
  cases compress with
  | true => exact absurd hc List.not_mem_nil
  | false => exact List.mem_singleton.mp hc ▸ rfl

theorem eq_space_of_mem_gap {c : UInt8} (hc : c ∈ gap compress) : c = ch ' ' := by
  cases compress with
  | true => exact absurd hc List.not_mem_nil
  | false => exact List.mem_singleton.mp hc

theorem isPadByte_of_mem_indent {level : Nat} {c : UInt8} (hc : c ∈ indent compress level) :
    isPadByte c = true := by
  cases compress with
  | true => exact absurd hc List.not_mem_nil
  | false => exact List.eq_of_mem_replicate hc ▸ rfl

/-- A line end with the indentation after it is padding. -/
theorem isPadByte_of_mem_lineEnd_indent {level : Nat} {c : UInt8}
    (hc : c ∈ lineEnd compress ++ indent compress level) : isPadByte c = true := by
  rcases List.mem_append.mp hc with hc | hc
  · exact isPadByte_of_mem_lineEnd hc
  · exact isPadByte_of_mem_indent hc

/-- A byte that opens and closes nothing, and starts no comment. -/
structure Inert (c : UInt8) : Prop where
  quote : isQuote c = false
  left : c ≠ ch '('
  right : c ≠ ch ')'
  opening : c ≠ ch '\x7b'
  closing : c ≠ ch '\x7d'
  slash : c ≠ ch '/'

theorem inert_of_isPadByte {c : UInt8} (hc : isPadByte c = true) : Inert c := by
  rcases eq_of_isPadByte hc with rfl | rfl <;> constructor <;> decide

theorem isQuote_eq_false {c : UInt8} (hdouble : c ≠ ch '"') (hsingle : c ≠ ch '\'') :
    isQuote c = false := by
  simp [isQuote, hdouble, hsingle]

/-- A byte of a plain selector: only the space is white space. -/
theorem PlainSelector.byte {s : Text} (hs : PlainSelector s) {c : UInt8} (hc : c ∈ s) :
    Inert c ∧ c ≠ ch ';' ∧ c ≠ ch ',' ∧ c ≠ ch '&' ∧ c ≠ ch '$' ∧ c ≠ ch '\n' := by
  have hmark := hs.no_mark c hc
  simp only [selectorMarks, List.mem_cons, List.not_mem_nil, not_or, or_false] at hmark
  obtain ⟨hopen, hclose, hleft, hright, hsemicolon, hcomma, hdouble, hsingle, hand, hdollar,
    hslash⟩ := hmark
  refine ⟨⟨isQuote_eq_false hdouble hsingle, hleft, hright, hopen, hclose, hslash⟩, hsemicolon,
    hcomma, hand, hdollar, fun hline => ?_⟩
  have hspace := eq_space_of_collapse_eq hs.collapsed hc (by rw [hline]; decide)
  exact absurd (hline.symm.trans hspace) (by decide)

theorem PlainSelector.snug {s : Text} (hs : PlainSelector s) : Snug s :=
  snug_of_collapse_eq hs.ne_nil hs.collapsed

/-- A byte of a plain query. -/
theorem PlainQuery.byte {q : Text} (hq : PlainQuery q) {c : UInt8} (hc : c ∈ q) :
    isHeaderByte c = true ∧ c ≠ ch '/' ∧ c ≠ ch '$' ∧ c ≠ ch '#' := by
  have hmark := hq.no_mark c hc
  simp only [queryMarks, List.mem_cons, List.not_mem_nil, not_or, or_false] at hmark
  obtain ⟨hopen, hclose, hsemicolon, hdouble, hsingle, hdollar, hhash, hslash⟩ := hmark
  have hline : c ≠ ch '\n' := by
    rintro rfl
    exact absurd (eq_space_of_collapse_eq hq.collapsed hc (by decide)) (by decide)
  refine ⟨?_, hslash, hdollar, hhash⟩
  simp [isHeaderByte, isQuote_eq_false hdouble hsingle, hopen, hclose, hsemicolon, hline]

theorem PlainQuery.snug {q : Text} (hq : PlainQuery q) : Snug q :=
  snug_of_collapse_eq hq.ne_nil hq.collapsed

theorem PlainQuery.snug_header {q : Text} (hq : PlainQuery q) : Snug (of "@media " ++ q) := by
  have hword : Snug (of "@media") := by constructor <;> decide
  exact hword.append hq.snug (u := [ch ' ']) (by simp) (by decide)

/-- A byte of a property name. -/
theorem PlainDeclaration.name_byte {d : Text × Text} (hd : PlainDeclaration style d) {c : UInt8}
    (hc : c ∈ d.1) : isPlainByte c = true := by
  rcases hd.name_bytes c hc with h | rfl
  · simp [isPlainByte, isWord, isLetter, h.1, h.2]
  · decide

/-- A byte of a value with nothing to evaluate. -/
theorem PlainDeclaration.value_byte {d : Text × Text} (hd : PlainDeclaration style d) {c : UInt8}
    (hc : c ∈ d.2) : isPlainByte c = true := by
  have hplain := hd.value_plain
  simp only [isPlain, Bool.and_eq_true, List.all_eq_true] at hplain
  exact hplain.1.1 c hc

theorem PlainDeclaration.declaration_byte {d : Text × Text} (hd : PlainDeclaration style d)
    {c : UInt8} (hc : c ∈ PlainRule.declaration compress d) : isPlainByte c = true := by
  simp only [PlainRule.declaration, List.append_assoc, List.mem_append, List.mem_cons,
    List.cons_append] at hc
  rcases hc with hc | rfl | hc | hc
  · exact hd.name_byte hc
  · decide
  · exact eq_space_of_mem_gap hc ▸ rfl
  · exact hd.value_byte hc

theorem PlainDeclaration.snug_name {d : Text × Text} (hd : PlainDeclaration style d) :
    Snug d.1 := by
  refine snug_of_ascii hd.name_ne_nil fun c hc => ?_
  rcases hd.name_bytes c hc with ⟨hfirst, hlast⟩ | rfl
  · refine ⟨UInt8.lt_of_le_of_lt hlast (by decide), Bool.eq_false_iff.mpr fun hblank => ?_⟩
    simp only [blank1, isSpace, Bool.or_eq_true, decide_eq_true_eq] at hblank
    rcases hblank with ((((rfl | rfl) | rfl) | rfl) | rfl) | rfl <;> exact absurd hfirst (by decide)
  · decide

theorem PlainDeclaration.snug_value {d : Text × Text} (hd : PlainDeclaration style d) : Snug d.2 :=
  snug_of_trim_eq hd.value_ne_nil hd.value_trimmed

theorem inert_of_isPlainByte {c : UInt8} (hc : isPlainByte c = true) : Inert c ∧ c ≠ ch ';' := by
  have hne (d : UInt8) (hd : isPlainByte d = false) : c ≠ d := by
    rintro rfl
    exact absurd (hc.symm.trans hd) (by decide)
  exact ⟨⟨isQuote_eq_false (hne _ (by decide)) (hne _ (by decide)), hne _ (by decide),
    hne _ (by decide), hne _ (by decide), hne _ (by decide), hne _ (by decide)⟩, hne _ (by decide)⟩

/-! ### Headers -/

theorem parensBalanced_of_forall {t : Text} (ht : ∀ c ∈ t, c ≠ ch '(' ∧ c ≠ ch ')') (depth : Nat)
    (u : Text) : parensBalanced depth (t ++ u) = parensBalanced depth u := by
  induction t with
  | nil => rfl
  | cons c r ih =>
    obtain ⟨hleft, hright⟩ := ht c List.mem_cons_self
    rw [List.cons_append, parensBalanced, if_neg hleft, if_neg hright]
    exact ih fun d hd => ht d (List.mem_cons_of_mem c hd)

namespace PlainRule.Proper

variable {r : PlainRule}

/-- A byte of a rule's header. -/
theorem header_byte (hr : r.Proper style) {c : UInt8} (hc : c ∈ r.header compress) :
    Inert c ∧ c ≠ ch ';' ∧ c ≠ ch '$' ∧ c ≠ ch '\n' := by
  rcases mem_join hc with hc | ⟨s, hs, hc⟩
  · rcases List.mem_cons.mp hc with rfl | hc
    · exact ⟨by constructor <;> decide, by decide, by decide, by decide⟩
    · obtain rfl := eq_space_of_mem_gap hc
      exact ⟨by constructor <;> decide, by decide, by decide, by decide⟩
  · obtain ⟨hinert, hsemicolon, -, -, hdollar, hline⟩ := (hr.selectors_plain s hs).byte hc
    exact ⟨hinert, hsemicolon, hdollar, hline⟩

theorem snug_header (hr : r.Proper style) : Snug (r.header compress) := by
  refine snug_join hr.selectors_ne_nil (fun s hs => (hr.selectors_plain s hs).snug) (by simp) ?_
  cases compress <;> decide

/-- A header ends neither with a colon nor with a number sign. -/
theorem header_ne_concat (hr : r.Proper style) {c : UInt8} (hc : c ∈ [ch ':', ch '#']) (t : Text) :
    r.header compress ≠ t ++ [c] := by
  intro h
  have hlast : (r.header compress).getLast? = some c := by simp [h]
  rw [header, getLast?_join fun s hs => (hr.selectors_plain s hs).ne_nil] at hlast
  obtain ⟨s, hs, hlast⟩ := Option.bind_eq_some_iff.mp hlast
  exact hr.last_mark s hs c hlast hc

/-- A header starts with no mark of a directive. -/
theorem head0_header (hr : r.Proper style) :
    head0 (r.header compress) ∉ [ch '@', ch '+', ch '='] := by
  obtain ⟨s, rest, hsplit⟩ := List.exists_cons_of_ne_nil hr.selectors_ne_nil
  have hs := hr.first_mark s (by simp [hsplit])
  obtain ⟨c, t, rfl⟩ := List.exists_cons_of_ne_nil (hr.selectors_plain s (by simp [hsplit])).ne_nil
  rw [header, hsplit, join_cons]
  exact hs

/-- A byte of the declarations between the braces. -/
theorem content_byte (hr : r.Proper style) {level : Nat} {c : UInt8}
    (hc : c ∈ r.content compress level) : Inert c := by
  have hsemicolon : Inert (ch ';') := by constructor <;> decide
  rcases List.mem_append.mp hc with hc | hc
  · rcases mem_join hc with hc | ⟨t, ht, hc⟩
    · rcases List.mem_cons.mp hc with rfl | hc
      · exact hsemicolon
      · exact inert_of_isPadByte (isPadByte_of_mem_lineEnd_indent hc)
    · obtain ⟨d, hd, rfl⟩ := List.mem_map.mp ht
      exact (inert_of_isPlainByte ((hr.declarations_plain d hd).declaration_byte hc)).1
  · cases compress with
    | true => exact absurd hc List.not_mem_nil
    | false => exact List.mem_singleton.mp hc ▸ hsemicolon

theorem snug_declaration (hr : r.Proper style) {d : Text × Text} (hd : d ∈ r.declarations) :
    Snug (declaration compress d) := by
  have hplain := hr.declarations_plain d hd
  refine hplain.snug_name.append hplain.snug_value (by simp) ?_
  cases compress <;> decide

theorem snug_content (hr : r.Proper style) {level : Nat} : Snug (r.content compress level) := by
  have hjoin : Snug (join (ch ';' :: lineEnd compress ++ indent compress level)
      (r.declarations.map (declaration compress))) := by
    refine snug_join (by simpa using hr.declarations_ne_nil) (fun t ht => ?_) (by simp)
      fun c hc => ?_
    · obtain ⟨d, hd, rfl⟩ := List.mem_map.mp ht
      exact hr.snug_declaration hd
    · rcases List.mem_cons.mp hc with rfl | hc
      · decide
      · exact ascii_of_blank1 (blank1_of_isPadByte (isPadByte_of_mem_lineEnd_indent hc))
  cases compress with
  | true => simpa [content] using hjoin
  | false => exact hjoin.snoc (by decide) (by decide)

end PlainRule.Proper

/-! ### Blocks -/

/-- A block of a plain stylesheet, with the padding around its content. -/
def plainChunk (compress : Bool) (level : Nat) (header content : Text) : Chunk where
  header := header
  pad := gap compress
  content := lineEnd compress ++ indent compress (level + 1) ++ content ++ lineEnd compress ++
    indent compress level

theorem bracesBalanced_of_inert {t : Text} (ht : ∀ c ∈ t, Inert c) : bracesBalanced 0 t = true :=
  bracesBalanced_of_forall fun c hc =>
    ⟨(ht c hc).quote, (ht c hc).left, (ht c hc).right, (ht c hc).opening, (ht c hc).closing⟩

/-- A block yields its header and its content without the padding. -/
theorem trim_plainChunk {level : Nat} {header content : Text} (hcontent : Snug content) :
    trim (plainChunk compress level header content).content = content := by
  have hpad {level : Nat} (c : UInt8) (hc : c ∈ lineEnd compress ++ indent compress level) :
      blank1 c = true := blank1_of_isPadByte (isPadByte_of_mem_lineEnd_indent hc)
  have htrim := hcontent.trim_pad (w := lineEnd compress ++ indent compress (level + 1))
    (v := lineEnd compress ++ indent compress level) hpad hpad
  rwa [← List.append_assoc] at htrim

theorem bracesBalanced_plainChunk {level : Nat} {header content : Text}
    (hcontent : bracesBalanced 0 content = true) :
    bracesBalanced 0 (plainChunk compress level header content).content = true := by
  have hpad (level : Nat) : bracesBalanced 0 (lineEnd compress ++ indent compress level) = true :=
    bracesBalanced_of_inert fun c hc => inert_of_isPadByte (isPadByte_of_mem_lineEnd_indent hc)
  have hbalanced := bracesBalanced_append (bracesBalanced_append (hpad (level + 1)) hcontent)
    (hpad level)
  rwa [← List.append_assoc] at hbalanced

namespace PlainRule

/-- The block of a rule. -/
def chunk (compress : Bool) (level : Nat) (r : PlainRule) : Chunk :=
  plainChunk compress level (r.header compress) (r.content compress (level + 1))

variable {r : PlainRule} {level : Nat}

theorem Proper.sound_chunk (hr : r.Proper style) : (r.chunk compress level).Sound where
  snug := hr.snug_header
  header_bytes c hc := by
    obtain ⟨hinert, hsemicolon, -, hline⟩ := hr.header_byte hc
    simp [isHeaderByte, hinert.quote, hinert.opening, hinert.closing, hsemicolon, hline]
  parens := by
    have hparens := parensBalanced_of_forall (t := r.header compress)
      (fun c hc => ⟨(hr.header_byte hc).1.left, (hr.header_byte hc).1.right⟩) 0 []
    rwa [List.append_nil] at hparens
  pad_bytes _ hc := eq_space_of_mem_gap hc
  not_hash := hr.header_ne_concat (by simp)
  content := bracesBalanced_plainChunk (bracesBalanced_of_inert fun _ hc => hr.content_byte hc)

theorem Proper.bracesBalanced_render (hr : r.Proper style) :
    bracesBalanced 0 (r.render compress level) = true := by
  refine Chunk.bracesBalanced_text (p := r.chunk compress level) ?_ hr.sound_chunk.content
  refine bracesBalanced_of_inert fun c hc => ?_
  rcases List.mem_append.mp hc with hc | hc
  · exact (hr.header_byte hc).1
  · exact inert_of_isPadByte (eq_space_of_mem_gap hc ▸ rfl)

/-- A block found for a rule. -/
def Found (compress : Bool) (level : Nat) (r : PlainRule) (b : Block) : Prop :=
  b.header = r.header compress ∧ b.body = some (r.content compress (level + 1))

theorem Proper.found_of_yields (hr : r.Proper style) {b : Block}
    (hb : (r.chunk compress level).Yields b) : r.Found compress level b :=
  ⟨hb.1, hb.2.trans (congrArg some (trim_plainChunk hr.snug_content))⟩

end PlainRule

/-- The blocks found for chunks, by what the chunks stand for. -/
theorem forall₂_found {α : Type} {chunk : α → Chunk} {Found : α → Block → Prop} {xs : List α}
    {found : List Block} (h : List.Forall₂ Chunk.Yields (xs.map chunk) found)
    (hfound : ∀ x ∈ xs, ∀ b, (chunk x).Yields b → Found x b) : List.Forall₂ Found xs found := by
  rw [List.forall₂_map_left_iff] at h
  induction h with
  | nil => exact .nil
  | cons hb _ ih =>
    exact .cons (hfound _ List.mem_cons_self _ hb)
      (ih fun x hx => hfound x (List.mem_cons_of_mem _ hx))

/-- The rules of a media block are found in its body. -/
theorem locate_renderRules {rules : List PlainRule} (hrules : ∀ r ∈ rules, r.Proper style) :
    ∃ found, List.Forall₂ (PlainRule.Found compress 1) rules found ∧
      locate (renderRules compress rules) = (found, none) := by
  have hsound : ∀ p ∈ rules.map (PlainRule.chunk compress 1), p.Sound := by
    intro p hp
    obtain ⟨r, hr, rfl⟩ := List.mem_map.mp hp
    exact (hrules r hr).sound_chunk
  have hpad : ∀ c ∈ lineEnd compress ++ indent compress 1, isPadByte c = true :=
    fun c hc => isPadByte_of_mem_lineEnd_indent hc
  obtain ⟨found, hfound, hlocate⟩ := locate_chunks (v := []) hsound hpad (List.forall_mem_nil _)
  refine ⟨found, ?_, ?_⟩
  · exact forall₂_found hfound fun r hr b hb => (hrules r hr).found_of_yields hb
  · rw [List.append_nil, List.map_map] at hlocate
    exact hlocate

theorem PlainRule.getLast?_render (r : PlainRule) (level : Nat) :
    (r.render compress level).getLast? = some (ch '\x7d') := by
  rw [render, renderBlock]
  exact List.getLast?_concat

theorem getLast?_renderRules (compress : Bool) {rules : List PlainRule} (hne : rules ≠ []) :
    (renderRules compress rules).getLast? = some (ch '\x7d') := by
  have hrender : ∀ t ∈ rules.map (PlainRule.render compress 1), t ≠ [] := by
    intro t ht
    obtain ⟨r, -, rfl⟩ := List.mem_map.mp ht
    intro hnil
    exact absurd (hnil ▸ r.getLast?_render 1) (by simp)
  rw [renderRules, getLast?_join hrender, List.getLast?_map, List.getLast?_eq_some_getLast hne]
  exact PlainRule.getLast?_render _ 1

theorem snug_renderRules {rules : List PlainRule} (hne : rules ≠ [])
    (hrules : ∀ r ∈ rules, r.Proper style) : Snug (renderRules compress rules) := by
  have hlast := getLast?_renderRules compress hne
  obtain ⟨r, rest, rfl⟩ := List.exists_cons_of_ne_nil hne
  have hsnug : Snug (r.header compress) := (hrules r List.mem_cons_self).snug_header
  obtain ⟨c, u, hc, hstart⟩ : ∃ c u, c < 0x80 ∧
      renderRules compress (r :: rest) = r.header compress ++ c :: u := by
    rw [renderRules, List.map_cons, join_cons, PlainRule.render, renderBlock]
    simp only [List.append_assoc, List.cons_append]
    cases compress with
    | true => exact ⟨ch '\x7b', _, by decide, rfl⟩
    | false => exact ⟨ch ' ', _, by decide, rfl⟩
  rw [hstart] at hlast ⊢
  exact hsnug.upto hc hlast (by decide) (by decide)

theorem bracesBalanced_renderRules {rules : List PlainRule}
    (hrules : ∀ r ∈ rules, r.Proper style) :
    bracesBalanced 0 (renderRules compress rules) = true := by
  have hpad : bracesBalanced 0 (lineEnd compress ++ indent compress 1) = true :=
    bracesBalanced_of_inert fun c hc => inert_of_isPadByte (isPadByte_of_mem_lineEnd_indent hc)
  rw [renderRules]
  induction rules with
  | nil => rfl
  | cons r rest ih =>
    have hr : bracesBalanced 0 (r.render compress 1) = true :=
      (hrules r List.mem_cons_self).bracesBalanced_render
    cases rest with
    | nil => simpa using hr
    | cons r' rest =>
      rw [List.map_cons, List.map_cons, join_cons_cons]
      refine bracesBalanced_append (bracesBalanced_append hr hpad) ?_
      exact ih fun r hr => hrules r (List.mem_cons_of_mem _ hr)

namespace PlainItem

/-- The block of a rule or media block. -/
def chunk (compress : Bool) : PlainItem → Chunk
  | .rule r => r.chunk compress 0
  | .media query rules => plainChunk compress 0 (of "@media " ++ query) (renderRules compress rules)

theorem chunk_text (i : PlainItem) : (i.chunk compress).text = i.render compress := by
  cases i <;> rfl

/-- A block found for a rule or media block. -/
def Found (compress : Bool) (i : PlainItem) (b : Block) : Prop :=
  match i with
  | .rule r => r.Found compress 0 b
  | .media query rules =>
    b.header = of "@media " ++ query ∧ b.body = some (renderRules compress rules)

theorem Proper.sound_chunk {i : PlainItem} (hi : i.Proper style) : (i.chunk compress).Sound := by
  cases hi with
  | rule hr => exact hr.sound_chunk
  | @media query rules hquery hne hrules _ =>
    have hword : ∀ c ∈ of "@media ", isHeaderByte c = true ∧ c ≠ ch '#' := by decide
    have hheader {c : UInt8} (hc : c ∈ of "@media " ++ query) :
        isHeaderByte c = true ∧ c ≠ ch '#' := by
      rcases List.mem_append.mp hc with hc | hc
      · exact hword c hc
      · exact ⟨(hquery.byte hc).1, (hquery.byte hc).2.2.2⟩
    refine ⟨?_, fun c hc => (hheader hc).1, ?_, fun c hc => eq_space_of_mem_gap hc, ?_, ?_⟩
    · exact hquery.snug_header
    · have hparens := parensBalanced_of_forall (t := of "@media ") (by decide) 0 query
      exact hparens.trans hquery.parens
    · intro t ht
      have hhash : ch '#' ∈ of "@media " ++ query := by
        have ht' : of "@media " ++ query = t ++ [ch '#'] := ht
        simp [ht']
      exact (hheader hhash).2 rfl
    · exact bracesBalanced_plainChunk (bracesBalanced_renderRules hrules)

theorem Proper.found_of_yields {i : PlainItem} (hi : i.Proper style) {b : Block}
    (hb : (i.chunk compress).Yields b) : i.Found compress b := by
  cases hi with
  | rule hr => exact hr.found_of_yields hb
  | media hquery hne hrules _ =>
    exact ⟨hb.1, hb.2.trans (congrArg some (trim_plainChunk (snug_renderRules hne hrules)))⟩

end PlainItem

theorem renderSheet_eq_join (sheet : List PlainItem) :
    renderSheet compress sheet = join (lineEnd compress) (sheet.map (PlainItem.render compress)) ++
      if sheet = [] then [] else lineEnd compress := by
  induction sheet with
  | nil => rfl
  | cons i rest ih =>
    rw [renderSheet, List.flatMap_cons, ← renderSheet, ih]
    cases rest with
    | nil => simp
    | cons j rest => simp [join_cons_cons]

/-- The items of a plain stylesheet are found in its text. -/
theorem locate_renderSheet {sheet : List PlainItem} (hsheet : ∀ i ∈ sheet, i.Proper style) :
    ∃ found, List.Forall₂ (PlainItem.Found compress) sheet found ∧
      locate (renderSheet compress sheet) = (found, none) := by
  have hsound : ∀ p ∈ sheet.map (PlainItem.chunk compress), p.Sound := by
    intro p hp
    obtain ⟨i, hi, rfl⟩ := List.mem_map.mp hp
    exact (hsheet i hi).sound_chunk
  have hpad : ∀ c ∈ lineEnd compress, isPadByte c = true := fun c hc => isPadByte_of_mem_lineEnd hc
  obtain ⟨found, hfound, hlocate⟩ := locate_chunks hsound hpad
    (v := if sheet = [] then [] else lineEnd compress) (by split_ifs <;> simp_all)
  refine ⟨found, forall₂_found hfound fun i hi b hb => (hsheet i hi).found_of_yields hb, ?_⟩
  rw [renderSheet_eq_join, ← hlocate, List.map_map]
  congr 4
  exact funext fun i => i.chunk_text.symm

/-! ### Declarations -/

/-- A block found for a declaration. -/
def DeclarationFound (compress : Bool) (d : Text × Text) (b : Block) : Prop :=
  b.header = PlainRule.declaration compress d ∧ b.body = none

/-- A padded part is one declaration. -/
theorem looseParts_pad {v t : Text} (ht : Snug t) (hv : ∀ c ∈ v, isPadByte c = true) (offset : Nat)
    (parts : List Text) : looseParts offset ((v ++ t) :: parts) =
      ⟨t, none, offset + leading (v ++ t)⟩ :: looseParts (offset + (v ++ t).length + 1) parts := by
  have htrim : trim (v ++ t) = t := by
    have h := ht.trim_pad (v := []) (fun c hc => blank1_of_isPadByte (hv c hc))
      (List.forall_mem_nil _)
    rwa [List.append_nil] at h
  rw [looseParts, htrim]
  exact if_neg (by simpa using ht.ne_nil)

theorem not_mem_pad {v : Text} (hv : ∀ c ∈ v, isPadByte c = true) : ch ';' ∉ v :=
  fun hc => absurd (hv _ hc) (by decide)

/-- The parts between semicolons, padded on the left; the last may end with one too. -/
theorem looseParts_split {w v stop t : Text} {ts : List Text}
    (hts : ∀ u ∈ t :: ts, Snug u ∧ ch ';' ∉ u) (hw : ∀ c ∈ w, isPadByte c = true)
    (hv : ∀ c ∈ v, isPadByte c = true) (hstop : stop = [] ∨ stop = [ch ';']) (offset : Nat) :
    List.Forall₂ (fun u (b : Block) => b.header = u ∧ b.body = none) (t :: ts)
      (looseParts offset (split (ch ';') (v ++ join (ch ';' :: w) (t :: ts) ++ stop))) := by
  -- The padding before the first part is not the one before the others.
  induction ts generalizing t v offset with
  | nil =>
    obtain ⟨ht, hnot⟩ := hts t List.mem_cons_self
    have hmem : ch ';' ∉ v ++ t := by simp [not_mem_pad hv, hnot]
    rw [join_singleton]
    rcases hstop with rfl | rfl
    · have hsplit := split_join (List.cons_ne_nil (v ++ t) []) (by simpa using hmem)
      rw [join_singleton] at hsplit
      rw [List.append_nil, hsplit, looseParts_pad ht hv]
      exact .cons ⟨rfl, rfl⟩ .nil
    · rw [split_append_cons hmem, looseParts_pad ht hv]
      exact .cons ⟨rfl, rfl⟩ .nil
  | cons u ts ih =>
    obtain ⟨ht, hnot⟩ := hts t List.mem_cons_self
    have hmem : ch ';' ∉ v ++ t := by simp [not_mem_pad hv, hnot]
    have htext : v ++ join (ch ';' :: w) (t :: u :: ts) ++ stop =
        v ++ t ++ ch ';' :: (w ++ join (ch ';' :: w) (u :: ts) ++ stop) := by
      simp [join_cons_cons]
    rw [htext, split_append_cons hmem, looseParts_pad ht hv]
    exact .cons ⟨rfl, rfl⟩ (ih (fun u hu => hts u (List.mem_cons_of_mem t hu)) hw _)

/-- The declarations of a rule are found in its body. -/
theorem PlainRule.Proper.locate_content {r : PlainRule} (hr : r.Proper style) (level : Nat) :
    ∃ found, List.Forall₂ (DeclarationFound compress) r.declarations found ∧
      locate (r.content compress level) = (found, none) := by
  have hlocate := locate_loose (t := r.content compress level) fun c hc =>
    have hinert := hr.content_byte hc
    ⟨hinert.quote, hinert.left, hinert.right, hinert.opening, hinert.closing⟩
  refine ⟨_, ?_, hlocate⟩
  have hparts : ∀ t ∈ r.declarations.map (declaration compress), Snug t ∧ ch ';' ∉ t := by
    intro t ht
    obtain ⟨d, hd, rfl⟩ := List.mem_map.mp ht
    exact ⟨hr.snug_declaration hd,
      fun hc => (inert_of_isPlainByte ((hr.declarations_plain d hd).declaration_byte hc)).2 rfl⟩
  obtain ⟨d, ds, hsplit⟩ := List.exists_cons_of_ne_nil hr.declarations_ne_nil
  rw [hsplit, List.map_cons] at hparts
  have hpad : ∀ c ∈ lineEnd compress ++ indent compress level, isPadByte c = true :=
    fun c hc => isPadByte_of_mem_lineEnd_indent hc
  have hstop : (if compress then [] else [ch ';']) = [] ∨
      (if compress then [] else [ch ';']) = [ch ';'] := by cases compress <;> simp
  have hfound := looseParts_split (v := []) hparts hpad (List.forall_mem_nil _) hstop 0
  rw [← List.map_cons, ← hsplit, List.forall₂_map_left_iff] at hfound
  exact hfound

/-! ### Normalizing -/

/-- A byte that starts neither a string nor a comment. -/
def IsQuiet (c : UInt8) : Prop := isQuote c = false ∧ c ≠ ch '/'

theorem Inert.isQuiet {c : UInt8} (hc : Inert c) : IsQuiet c := ⟨hc.quote, hc.slash⟩

/-- A text without strings and comments is kept byte for byte. -/
theorem normalizeFrom_quiet {t : Text} (ht : ∀ c ∈ t, IsQuiet c) (b : Behind) (i : Nat) :
    normalizeFrom 0 b i t = keepFrom i t := by
  induction t generalizing b i with
  | nil => rfl
  | cons c r ih =>
    obtain ⟨hquote, hslash⟩ := ht c List.mem_cons_self
    have hspan : spanAt b c r = .byte := by simp [spanAt, hquote, hslash]
    rw [normalizeFrom, hspan, keepFrom]
    exact congrArg ((c, i) :: ·) (ih (fun d hd => ht d (List.mem_cons_of_mem c hd)) _ _)

theorem map_fst_keepFrom (i : Nat) (t : Text) : (keepFrom i t).map (·.1) = t := by
  induction t generalizing i with
  | nil => rfl
  | cons c r ih => rw [keepFrom, List.map_cons, ih]

theorem isQuiet_renderBlock {level : Nat} {header content : Text}
    (hheader : ∀ c ∈ header, IsQuiet c) (hcontent : ∀ c ∈ content, IsQuiet c) :
    ∀ c ∈ renderBlock compress level header content, IsQuiet c := by
  have hbrace : IsQuiet (ch '\x7b') ∧ IsQuiet (ch '\x7d') :=
    ⟨by constructor <;> decide, by constructor <;> decide⟩
  intro c hc
  simp only [renderBlock, List.mem_append, List.mem_cons, List.not_mem_nil, or_false,
    or_assoc] at hc
  rcases hc with hc | hc | rfl | hc | hc | hc | hc | hc | rfl
  · exact hheader c hc
  · exact (inert_of_isPadByte (eq_space_of_mem_gap hc ▸ rfl)).isQuiet
  · exact hbrace.1
  · exact (inert_of_isPadByte (isPadByte_of_mem_lineEnd hc)).isQuiet
  · exact (inert_of_isPadByte (isPadByte_of_mem_indent hc)).isQuiet
  · exact hcontent c hc
  · exact (inert_of_isPadByte (isPadByte_of_mem_lineEnd hc)).isQuiet
  · exact (inert_of_isPadByte (isPadByte_of_mem_indent hc)).isQuiet
  · exact hbrace.2

theorem PlainRule.Proper.isQuiet_render {r : PlainRule} (hr : r.Proper style) {level : Nat} :
    ∀ c ∈ r.render compress level, IsQuiet c :=
  isQuiet_renderBlock (fun _ hc => (hr.header_byte hc).1.isQuiet)
    (fun _ hc => (hr.content_byte hc).isQuiet)

theorem PlainItem.Proper.isQuiet_render {i : PlainItem} (hi : i.Proper style) :
    ∀ c ∈ i.render compress, IsQuiet c := by
  cases hi with
  | rule hr => exact hr.isQuiet_render
  | @media query rules hquery _ hrules _ =>
    have hword : ∀ c ∈ of "@media ", isQuote c = false ∧ c ≠ ch '/' := by decide
    refine isQuiet_renderBlock (fun c hc => ?_) fun c hc => ?_
    · rcases List.mem_append.mp hc with hc | hc
      · exact hword c hc
      · obtain ⟨hheader, hslash, -⟩ := hquery.byte hc
        simp only [isHeaderByte, Bool.and_eq_true, Bool.not_eq_true'] at hheader
        exact ⟨hheader.1.1.1.1, hslash⟩
    · rcases mem_join hc with hc | ⟨t, ht, hc⟩
      · exact (inert_of_isPadByte (isPadByte_of_mem_lineEnd_indent hc)).isQuiet
      · obtain ⟨r, hr, rfl⟩ := List.mem_map.mp ht
        exact (hrules r hr).isQuiet_render c hc

/-- There is nothing to normalize in a plain stylesheet. -/
theorem normalize_renderSheet {sheet : List PlainItem} (hsheet : ∀ i ∈ sheet, i.Proper style) :
    normalize (renderSheet compress sheet) = renderSheet compress sheet := by
  have hquiet : ∀ c ∈ renderSheet compress sheet, IsQuiet c := by
    intro c hc
    obtain ⟨i, hi, hc⟩ := List.mem_flatMap.mp hc
    rcases List.mem_append.mp hc with hc | hc
    · exact (hsheet i hi).isQuiet_render c hc
    · exact (inert_of_isPadByte (isPadByte_of_mem_lineEnd hc)).isQuiet
  rw [normalize, normalizeTracked, normalizeFrom_quiet hquiet]
  exact map_fst_keepFrom 0 _

end Stylesheet
