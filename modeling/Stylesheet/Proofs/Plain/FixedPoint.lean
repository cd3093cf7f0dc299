import Stylesheet.Proofs.Compile.Expansion
import Stylesheet.Proofs.Plain.Print

/-!
# Plain stylesheets are compiled to themselves

A stylesheet that is written plainly comes out of a compilation as it went in, or in the
other of the two ways to write it. The private characters that protect structure inside
strings are the exception: where a selector has one, it comes out as what it stands for.

## Main results

* `compileWith_restore` — what a plain stylesheet is compiled to
* `compileWith_renderSheet` — a plain stylesheet without private characters is compiled
  to itself
-/

namespace Stylesheet

open Text

/-! ### Private characters -/

theorem publicByte?_ascii {c : UInt8} (hc : c < 0x80) : publicByte? c = none := by
  have hne (d : UInt8) (hd : 0x80 ≤ d) : c ≠ d := UInt8.ne_of_lt (UInt8.lt_of_lt_of_le hc hd)
  rw [publicByte?]
  iterate 6 rw [if_neg (hne _ (by decide))]

theorem restore_cons_of_ascii {c : UInt8} (hc : c < 0x80) (u : Text) :
    restore (c :: u) = c :: restore u := by
  have hne : c ≠ 0xEE := UInt8.ne_of_lt (UInt8.lt_of_lt_of_le hc (by decide))
  match u with
  | [] => rfl
  | [d] => rfl
  | d :: e :: u => rw [restore, if_neg (by simp [hne])]

/-- A byte that starts no private character is kept. -/
theorem restore_cons_short {a c : UInt8} {t u : Text} (hc : c < 0x80) (ht : t.length < 2) :
    restore (a :: (t ++ c :: u)) = a :: restore (t ++ c :: u) := by
  have hne : c ≠ 0x80 := UInt8.ne_of_lt hc
  match t with
  | [] =>
    cases u with
    | nil => rfl
    | cons d u =>
      rw [List.nil_append, restore, if_neg (by simp [hne])]
  | [b] =>
    rw [List.singleton_append, restore, publicByte?_ascii hc]
    exact ite_self _

/-- An ASCII byte is never part of a private character. -/
theorem restore_append_ascii {t : Text} {c : UInt8} (hc : c < 0x80) (u : Text) :
    restore (t ++ c :: u) = restore t ++ c :: restore u := by
  fun_induction restore t with
  | case1 => exact restore_cons_of_ascii hc u
  | case2 a b d r h e he ih =>
    rw [List.cons_append, List.cons_append, List.cons_append, restore, if_pos h, he]
    exact congrArg (e :: ·) ih
  | case3 a b d r h he ih =>
    rw [List.cons_append, List.cons_append, List.cons_append, restore, if_pos h, he]
    exact congrArg (a :: ·) ih
  | case4 a b d r h ih =>
    rw [List.cons_append, List.cons_append, List.cons_append, restore, if_neg h]
    exact congrArg (a :: ·) ih
  | case5 a r h ih =>
    have hlength : r.length < 2 := by
      match r with
      | [] => exact Nat.zero_lt_two
      | [_] => exact Nat.one_lt_two
      | b :: d :: r => exact absurd rfl (h b d r)
    rw [List.cons_append, restore_cons_short hc hlength, ih, List.cons_append]

/-- A text that is kept whatever follows it. -/
def Lasting (t : Text) : Prop := ∀ u, restore (t ++ u) = t ++ restore u

theorem Lasting.restore_eq {t : Text} (ht : Lasting t) : restore t = t := by
  simpa [restore] using ht []

theorem Lasting.append {t u : Text} (ht : Lasting t) (hu : Lasting u) : Lasting (t ++ u) := by
  intro v
  rw [List.append_assoc, ht, hu, List.append_assoc]

theorem lasting_of_ascii {t : Text} (ht : ∀ c ∈ t, c < 0x80) : Lasting t := by
  intro u
  induction t with
  | nil => rfl
  | cons c r ih =>
    rw [List.cons_append, restore_cons_of_ascii (ht c List.mem_cons_self),
      ih fun d hd => ht d (List.mem_cons_of_mem c hd), List.cons_append]

/-- A text without private characters, up to an ASCII byte. -/
theorem lasting_concat {t : Text} (ht : restore t = t) {c : UInt8} (hc : c < 0x80) :
    Lasting (t ++ [c]) := by
  intro u
  rw [List.append_assoc, List.singleton_append, restore_append_ascii hc, ht, List.append_assoc,
    List.singleton_append]

theorem lasting_join {sep : Text} {ts : List Text} (hsep : ∀ c ∈ sep, c < 0x80)
    (hts : ∀ t ∈ ts, Lasting t) : Lasting (join sep ts) := by
  induction ts with
  | nil => exact lasting_of_ascii (List.forall_mem_nil _)
  | cons t ts ih =>
    obtain ⟨ht, hts⟩ := List.forall_mem_cons.mp hts
    cases ts with
    | nil => simpa using ht
    | cons u ts =>
      rw [join_cons_cons]
      exact (ht.append (lasting_of_ascii hsep)).append (ih hts)

theorem restore_join {sep : Text} {c : UInt8} {ts : List Text} (hc : c < 0x80)
    (hsep : ∀ d ∈ sep, d < 0x80) (hts : ∀ t ∈ ts, restore t = t) :
    restore (join (c :: sep) ts) = join (c :: sep) ts := by
  induction ts with
  | nil => rfl
  | cons t ts ih =>
    obtain ⟨ht, hts⟩ := List.forall_mem_cons.mp hts
    cases ts with
    | nil => simpa using ht
    | cons u ts =>
      rw [join_cons_cons, List.append_assoc, List.cons_append, restore_append_ascii hc,
        lasting_of_ascii hsep, ih hts, ht]

section Render

variable {compress : Bool} {style : Style} {level : Nat}

theorem ascii_of_mem_gap {c : UInt8} (hc : c ∈ gap compress) : c < 0x80 := by
  obtain rfl := eq_space_of_mem_gap hc
  decide

theorem lasting_lineEnd_indent : Lasting (lineEnd compress ++ indent compress level) :=
  lasting_of_ascii fun _ hc =>
    ascii_of_blank1 (blank1_of_isPadByte (isPadByte_of_mem_lineEnd_indent hc))

/-- A block is kept if its header and content are. -/
theorem lasting_renderBlock {header content : Text} (hheader : restore header = header)
    (hcontent : Lasting content) : Lasting (renderBlock compress level header content) := by
  have hgap : restore (header ++ gap compress) = header ++ gap compress := by
    cases compress with
    | true => simpa [gap] using hheader
    | false => exact (lasting_concat hheader (by decide)).restore_eq
  have hopen : Lasting (header ++ gap compress ++ [ch '\x7b']) := lasting_concat hgap (by decide)
  have hclose : Lasting [ch '\x7d'] := lasting_of_ascii (by decide)
  have htext : renderBlock compress level header content = header ++ gap compress ++ [ch '\x7b'] ++
      (lineEnd compress ++ indent compress (level + 1)) ++ content ++
      (lineEnd compress ++ indent compress level) ++ [ch '\x7d'] := by
    simp [renderBlock]
  rw [htext]
  exact (((hopen.append lasting_lineEnd_indent).append hcontent).append
    lasting_lineEnd_indent).append hclose

theorem ascii_of_isPlainByte {c : UInt8} (hc : isPlainByte c = true) : c < 0x80 := by
  have hall : ∀ n < 256, isPlainByte (.ofNat n) = true → n < 128 := by decide +kernel
  exact UInt8.lt_iff_toNat_lt.mpr (hall c.toNat c.toNat_lt (by rwa [UInt8.ofNat_toNat]))

theorem PlainRule.Proper.lasting_content {r : PlainRule} (hr : r.Proper style) :
    Lasting (r.content compress level) := by
  refine lasting_of_ascii fun c hc => ?_
  rcases List.mem_append.mp hc with hc | hc
  · rcases mem_join hc with hc | ⟨t, ht, hc⟩
    · rcases List.mem_cons.mp hc with rfl | hc
      · decide
      · exact ascii_of_blank1 (blank1_of_isPadByte (isPadByte_of_mem_lineEnd_indent hc))
    · obtain ⟨d, hd, rfl⟩ := List.mem_map.mp ht
      exact ascii_of_isPlainByte ((hr.declarations_plain d hd).declaration_byte hc)
  · cases compress with
    | true => exact absurd hc List.not_mem_nil
    | false =>
      obtain rfl := List.mem_singleton.mp hc
      decide

/-- The selectors and queries of a rule or media block. -/
def PlainItem.names : PlainItem → List Text
  | .rule r => r.selectors
  | .media query rules => query :: rules.flatMap (·.selectors)

theorem PlainRule.Proper.lasting_render {r : PlainRule} (hr : r.Proper style)
    (hnames : ∀ s ∈ r.selectors, restore s = s) : Lasting (r.render compress level) := by
  have hcomma : ch ',' < 0x80 := by decide
  exact lasting_renderBlock (restore_join hcomma (fun _ hc => ascii_of_mem_gap hc) hnames)
    hr.lasting_content

theorem PlainItem.Proper.lasting_render {i : PlainItem} (hi : i.Proper style)
    (hnames : ∀ t ∈ i.names, restore t = t) : Lasting (i.render compress) := by
  cases hi with
  | rule hr => exact hr.lasting_render hnames
  | @media query rules _ _ hrules _ =>
    obtain ⟨hquery, hselectors⟩ := List.forall_mem_cons.mp hnames
    have hword : Lasting (of "@media ") := lasting_of_ascii (by decide)
    refine lasting_renderBlock (by rw [hword, hquery])
      (lasting_join (fun c hc => ?_) fun t ht => ?_)
    · exact ascii_of_blank1 (blank1_of_isPadByte (isPadByte_of_mem_lineEnd_indent hc))
    · obtain ⟨r, hr, rfl⟩ := List.mem_map.mp ht
      exact (hrules r hr).lasting_render fun s hs => hselectors s (List.mem_flatMap.mpr ⟨r, hr, hs⟩)

/-- A plain stylesheet without private characters is kept. -/
theorem restore_renderSheet {sheet : List PlainItem} (hsheet : ∀ i ∈ sheet, i.Proper style)
    (hnames : ∀ i ∈ sheet, ∀ t ∈ i.names, restore t = t) :
    restore (renderSheet compress sheet) = renderSheet compress sheet := by
  have hline : Lasting (lineEnd compress) :=
    lasting_of_ascii fun _ hc => ascii_of_blank1 (blank1_of_isPadByte (isPadByte_of_mem_lineEnd hc))
  have hlasting : Lasting (renderSheet compress sheet) := by
    induction sheet with
    | nil => exact lasting_of_ascii (List.forall_mem_nil _)
    | cons i rest ih =>
      obtain ⟨hi, hrest⟩ := List.forall_mem_cons.mp hsheet
      obtain ⟨hname, hnames⟩ := List.forall_mem_cons.mp hnames
      exact ((hi.lasting_render hname).append hline).append (ih hrest hnames)
  exact hlasting.restore_eq

end Render

/-! ### Compilation -/

theorem exists_of_forall₂ {α β : Type} {R : α → β → Prop} {xs : List α} {ys : List β}
    (h : List.Forall₂ R xs ys) {y : β} (hy : y ∈ ys) : ∃ x, R x y := by
  induction h with
  | nil => exact absurd hy List.not_mem_nil
  | cons hxy _ ih =>
    rcases List.mem_cons.mp hy with rfl | hy
    · exact ⟨_, hxy⟩
    · exact ih hy

/-- What a plain stylesheet is compiled to. -/
theorem compileWith_restore {sheet : List PlainItem} {opts : Options}
    (hsheet : ProperSheet ⟨opts.compress, opts.shortColors, opts.reverseColors⟩ sheet)
    {source : Bool} (hextends : ∀ i ∈ sheet, ∀ r ∈ i.rules, r.NoExtends source) {fuel : Nat}
    (hfuel : (PlainTask.root sheet).walk.length < fuel) :
    ∃ fragments, compileWith fuel opts (renderSheet source sheet) =
      ⟨.ok ⟨restore (renderSheet opts.compress sheet), fragments⟩, []⟩ := by
  obtain ⟨fs, n, hexpand, hmade, horder⟩ :=
    expandSource_renderSheet hsheet.items hextends hfuel opts opts.session
  have hmem {f : Fragment} (hf : f ∈ fs) : ∃ t : PlainTask, t.Made f := exists_of_forall₂ hmade hf
  -- sorting by number changes the order in which the rules are linked, and nothing is linked
  have hperm : (fs.mergeSort fun f g => f.id ≤ g.id).Perm fs := List.mergeSort_perm fs _
  have hlinked : resolveExtends (fs.mergeSort fun f g => f.id ≤ g.id) =
      (fs.mergeSort fun f g => f.id ≤ g.id, []) := by
    refine resolveExtends_eq_self fun f hf => ?_
    obtain ⟨t, ht⟩ := hmem (hperm.mem_iff.mp hf)
    exact ht.parents
  have hordered : orderFragments (fs.mergeSort fun f g => f.id ≤ g.id) = fs.map Fragment.rank := by
    refine orderFragments_eq hperm (fun f hf => ?_) (fun f hf => ?_) ?_
    · obtain ⟨t, ht⟩ := hmem hf
      exact ht.deps
    · obtain ⟨t, ht⟩ := hmem hf
      exact ht.position
    · rw [← List.pairwise_map (f := Fragment.order), horder]
      exact List.pairwise_lt_range'
  have hshows : List.Forall₂ PlainTask.Shows (PlainTask.root sheet).walk (fs.map Fragment.rank) :=
    List.forall₂_map_right_iff.mpr (hmade.imp fun _ _ h => h.shows)
  refine ⟨emittedOf (fs.map Fragment.rank), ?_⟩
  rw [compileWith_eq, hexpand, Outcome.ofExpansion, finishFragments, hlinked]
  dsimp only
  rw [hordered, ← print_eq_renderSheet hsheet hshows]
  rfl

/-- A plain stylesheet without private characters, whose headers extend nothing, is
compiled to itself, however it was written. -/
theorem compileWith_renderSheet {sheet : List PlainItem} {opts : Options}
    (hsheet : ProperSheet ⟨opts.compress, opts.shortColors, opts.reverseColors⟩ sheet)
    (hnames : ∀ i ∈ sheet, ∀ t ∈ i.names, restore t = t)
    {source : Bool} (hextends : ∀ i ∈ sheet, ∀ r ∈ i.rules, r.NoExtends source) {fuel : Nat}
    (hfuel : (PlainTask.root sheet).walk.length < fuel) :
    ∃ fragments, compileWith fuel opts (renderSheet source sheet) =
      ⟨.ok ⟨renderSheet opts.compress sheet, fragments⟩, []⟩ := by
  have hcompile := compileWith_restore hsheet hextends hfuel
  rwa [restore_renderSheet hsheet.items hnames] at hcompile

/-- A media block between two rules with the same selectors. -/
def sampleSheet : List PlainItem :=
  [.rule ⟨[of ".b", of "a:hover"], [(of "color", of "#fff"), (of "margin", of "0 1px")]⟩,
    .media (of "(min-width: 10px)") [⟨[of "a"], [(of "color", of "red")]⟩],
    .rule ⟨[of ".b", of "a:hover"], [(of "color", of "red"), (of "color", of "#fff")]⟩]

/-- Options under which colors are written as they are. -/
def plainColors : Options := { shortColors := false, reverseColors := false }

theorem sampleSheet_compiles :
    ProperSheet ⟨true, false, false⟩ sampleSheet ∧
      ∃ fragments, compileWith 6 plainColors (renderSheet false sampleSheet) =
        ⟨.ok ⟨renderSheet true sampleSheet, fragments⟩, []⟩ := by
  have hsheet : ProperSheet ⟨true, false, false⟩ sampleSheet := by decide +kernel
  have hnames : ∀ i ∈ sampleSheet, ∀ t ∈ i.names, restore t = t := by decide
  have hextends : ∀ i ∈ sampleSheet, ∀ r ∈ i.rules, r.NoExtends false := by
    unfold PlainRule.NoExtends
    decide
  have hfuel : (PlainTask.root sampleSheet).walk.length < 6 := by decide
  exact ⟨hsheet,
    @compileWith_renderSheet sampleSheet plainColors hsheet hnames false hextends 6 hfuel⟩

/-- A selector with the private character of the colon. -/
def privateSheet : List PlainItem := [.rule ⟨[[0xEE, 0x80, 0x80]], [(of "color", of "red")]⟩]

/-- A list of selectors of which the second starts with the word that extends. -/
def extendingSheet : List PlainItem :=
  [.rule ⟨[of "a", of "extends b"], [(of "color", of "red")]⟩]

/-- On lines, the second selector is taken for a parent that is not there. -/
theorem extendingSheet_warns :
    (compileWith 3 plainColors (renderSheet false extendingSheet)).diagnostics ≠ [] := by
  let fragments : List Fragment :=
    [{ id := 0, selectors := [[]] },
      { id := 1, selectors := [of "a"], parents := [of "b"],
        properties := [⟨of "color", some (of "red")⟩], position := 1, order := 1 }]
  have hexpand : (outcome (expandSource 3 plainColors (renderSheet false extendingSheet))
      plainColors.session).1.toOption = some fragments := by decide +kernel
  have hsort : fragments.mergeSort (fun f g => f.id ≤ g.id) = fragments :=
    List.mergeSort_of_pairwise (by decide)
  have hwarnings : (resolveExtends fragments).2 ≠ [] := by decide
  rw [compileWith_eq]
  rcases hout : outcome (expandSource 3 plainColors (renderSheet false extendingSheet))
    plainColors.session with ⟨_ | fs, s⟩
  · rw [hout] at hexpand
    cases hexpand
  · rw [hout] at hexpand
    obtain rfl : fs = fragments := Option.some.inj hexpand
    rw [Outcome.ofExpansion, finishFragments, hsort]
    exact fun h => hwarnings (List.append_eq_nil_iff.mp h).2

/-- Private characters are replaced, and a list of selectors can extend where none of them
does. -/
theorem not_fixed_of_private_or_extends :
    (ProperSheet ⟨true, false, false⟩ privateSheet ∧
      ¬ ∃ fragments, compileWith 3 plainColors (renderSheet true privateSheet) =
        ⟨.ok ⟨renderSheet true privateSheet, fragments⟩, []⟩) ∧
    (ProperSheet ⟨true, false, false⟩ extendingSheet ∧
      ¬ ∃ fragments, compileWith 3 plainColors (renderSheet false extendingSheet) =
        ⟨.ok ⟨renderSheet true extendingSheet, fragments⟩, []⟩) := by
  have hprivate : ProperSheet ⟨true, false, false⟩ privateSheet := by decide +kernel
  refine ⟨⟨hprivate, ?_⟩, by decide +kernel, ?_⟩
  · rintro ⟨fragments, h⟩
    have hextends : ∀ i ∈ privateSheet, ∀ r ∈ i.rules, r.NoExtends true := by
      unfold PlainRule.NoExtends
      decide
    obtain ⟨fragments', hcompile⟩ :=
      @compileWith_restore privateSheet plainColors hprivate true hextends 3 (by decide)
    rw [h] at hcompile
    have hcss : renderSheet true privateSheet = restore (renderSheet true privateSheet) := by
      injection hcompile with hresult _
      exact congrArg Compiled.css (Except.ok.inj hresult)
    exact absurd hcss (by decide)
  · rintro ⟨fragments, h⟩
    exact extendingSheet_warns (by rw [h])

end Stylesheet
