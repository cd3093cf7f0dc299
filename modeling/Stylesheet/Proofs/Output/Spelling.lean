import Stylesheet.Proofs.Output.Shortening

/-!
# Spellings of a color

A color written with three or six hexadecimal digits, or as a keyword, has a red, a green and a blue
byte. Shortening keeps them: digits that are written twice can be written once, and the spellings in
the table of keyword colors have the bytes of their keyword. Case makes no difference to either.

The table can be built from the keywords one by one. Several keywords can have a spelling in common,
and then the briefest of what they offer is entered, whichever comes first. So every order of the
keywords leads to the same table.

## Main definitions

* `hexBytes?`, `colorBytes?` — the bytes that a color is written for
* `ColorToken` — three or six hexadecimal digits, or a keyword
* `spellingTable` — the shortest spellings, built from keywords in a given order

## Main results

* `parseHex?_of_hexBytes?` — what is read for hexadecimal digits
* `hexBytes?_shortHex` — digits written once
* `spellingTable_eq` — an entry of the table is the briefest one offered for it
* `Style.color_spelling` — shortening keeps colors, and the table does not depend on the order
-/

namespace Stylesheet

open Text

/-! ### The bytes of a color -/

/-- The red, green and blue byte written by three or six hexadecimal digits. -/
def hexBytes? (t : Text) : Option (Nat × Nat × Nat) :=
  match t with
  | [h, r, g, b] =>
    if h = ch '#' ∧ [r, g, b].all isHex then
      some (Color.hexNumber [r, r], Color.hexNumber [g, g], Color.hexNumber [b, b])
    else none
  | [h, r, r', g, g', b, b'] =>
    if h = ch '#' ∧ [r, r', g, g', b, b'].all isHex then
      some (Color.hexNumber [r, r'], Color.hexNumber [g, g'], Color.hexNumber [b, b'])
    else none
  | _ => none

/-- The red, green and blue byte of a hexadecimal color or a keyword. -/
def colorBytes? (t : Text) : Option (Nat × Nat × Nat) :=
  match hexBytes? t with
  | some bytes => some bytes
  | none => (colorNameHex? (lower t)).bind hexBytes?

/-- Three or six hexadecimal digits, or a color keyword, in any case. -/
inductive ColorToken : Text → Prop
  | hex {digits : Text} (hlength : digits.length = 3 ∨ digits.length = 6)
      (hdigits : ∀ c ∈ digits, isHex c = true) : ColorToken (ch '#' :: digits)
  | keyword {t : Text} {e : Text × Text} (he : e ∈ colorNames) (ht : t.map lowerByte = e.1) :
      ColorToken t

/-- What is read for hexadecimal digits. -/
theorem parseHex?_of_hexBytes? {t : Text} {r g b : Nat} (h : hexBytes? t = some (r, g, b)) :
    Color.parseHex? t =
      some ⟨Float.ofNat r, Float.ofNat g, Float.ofNat b, 1, { hex := 1 }⟩ := by
  fun_cases hexBytes? t with
  | case1 h r g b hhex =>
    rw [hexBytes?, if_pos hhex] at h
    cases h
    simp [Color.parseHex?, Color.double, slice, hhex]
  | case3 h r r' g g' b b' hhex =>
    rw [hexBytes?, if_pos hhex] at h
    cases h
    simp [Color.parseHex?, slice, hhex]
  | case2 | case4 | case5 => simp_all [hexBytes?]

/-! ### Case and repeated digits -/

theorem isHex_lowerByte : ∀ c, isHex (lowerByte c) = isHex c :=
  forall_byte (by decide +kernel)

theorem hexValue_lowerByte : ∀ c, isHex c = true → hexValue (lowerByte c) = hexValue c :=
  forall_byte (by decide +kernel)

/-- Bytes that differ in case only are the same digits. -/
theorem hexValue_of_lowerByte {c d : UInt8} (h : lowerByte c = lowerByte d) :
    isHex d = isHex c ∧ (isHex c = true → hexValue d = hexValue c) := by
  have hhex : isHex d = isHex c := by rw [← isHex_lowerByte d, ← h, isHex_lowerByte]
  refine ⟨hhex, fun hc => ?_⟩
  rw [← hexValue_lowerByte d (hhex.trans hc), ← h, hexValue_lowerByte c hc]

/-- Digits that are written twice can be written once. -/
theorem hexBytes?_shortHex (t : Text) : hexBytes? (shortHex t) = hexBytes? t := by
  fun_cases shortHex t with
  | case1 h r r' g g' b b' hpairs =>
    simp only [Bool.and_eq_true, decide_eq_true_eq] at hpairs
    obtain ⟨⟨⟨rfl, hr⟩, hg⟩, hb⟩ := hpairs
    obtain ⟨hrhex, hr⟩ := hexValue_of_lowerByte hr
    obtain ⟨hghex, hg⟩ := hexValue_of_lowerByte hg
    obtain ⟨hbhex, hb⟩ := hexValue_of_lowerByte hb
    simp only [hexBytes?, List.all_cons, List.all_nil, isHex_lowerByte, hrhex, hghex, hbhex,
      Bool.and_true, Bool.and_eq_true, true_and]
    by_cases hhex : isHex r = true ∧ isHex g = true ∧ isHex b = true
    · obtain ⟨hrhex, hghex, hbhex⟩ := hhex
      simp [Color.hexNumber, hexValue_lowerByte, hrhex, hghex, hbhex, hr, hg, hb]
    · rw [if_neg hhex, if_neg (by tauto)]
  | case2 => rfl
  | case3 => rfl

/-- Case makes no difference to hexadecimal digits. -/
theorem hexBytes?_lowerByte (t : Text) : hexBytes? (t.map lowerByte) = hexBytes? t := by
  have hhash : ∀ c, lowerByte c = ch '#' ↔ c = ch '#' := forall_byte (by decide +kernel)
  match t with
  | [h, r, g, b] =>
    simp only [List.map_cons, List.map_nil, hexBytes?, hhash, List.all_cons, List.all_nil,
      isHex_lowerByte]
    split_ifs with hhex
    · simp only [Bool.and_eq_true] at hhex
      simp [Color.hexNumber, hexValue_lowerByte, hhex]
    · exact (if_neg hhex).symm
  | [h, r, r', g, g', b, b'] =>
    simp only [List.map_cons, List.map_nil, hexBytes?, hhash, List.all_cons, List.all_nil,
      isHex_lowerByte]
    split_ifs with hhex
    · simp only [Bool.and_eq_true] at hhex
      simp [Color.hexNumber, hexValue_lowerByte, hhex]
    · exact (if_neg hhex).symm
  | [] | [_] | [_, _] | [_, _, _] | [_, _, _, _, _] | [_, _, _, _, _, _]
  | _ :: _ :: _ :: _ :: _ :: _ :: _ :: _ :: _ => rfl

/-- Three or six hexadecimal digits have bytes. -/
theorem exists_hexBytes? {digits : Text} (hlength : digits.length = 3 ∨ digits.length = 6)
    (hdigits : ∀ c ∈ digits, isHex c = true) :
    ∃ bytes, hexBytes? (ch '#' :: digits) = some bytes := by
  have hall : digits.all isHex = true := List.all_eq_true.mpr hdigits
  match digits, hlength with
  | [r, g, b], _ => exact ⟨_, if_pos ⟨rfl, hall⟩⟩
  | [r, r', g, g', b, b'], _ => exact ⟨_, if_pos ⟨rfl, hall⟩⟩

theorem colorBytes?_of_hex {t : Text} {bytes : Nat × Nat × Nat} (h : hexBytes? t = some bytes) :
    colorBytes? t = some bytes := by
  rw [colorBytes?, h]

/-! ### Keywords -/

/-- A keyword is found under its name. -/
theorem colorNameHex?_eq {e : Text × Text} (he : e ∈ colorNames) :
    colorNameHex? e.1 = some e.2 := by
  cases hfound : colorNameHex? e.1 with
  | none =>
    rw [colorNameHex?, List.lookup_eq_none_iff] at hfound
    simpa using hfound e he
  | some v =>
    obtain ⟨before, after, hsplit, -⟩ := List.lookup_eq_some_iff.mp hfound
    have hmem : (e.1, v) ∈ colorNames := hsplit ▸ by simp
    exact congrArg (fun f : Text × Text => some f.2) (colorNames_inj he hmem rfl)

theorem hexBytes?_eq_none {t : Text} (ht : isLetter (head0 t) = true) : hexBytes? t = none := by
  have hhash {c : UInt8} (hc : isLetter c = true) : c ≠ ch '#' := by
    rintro rfl
    exact absurd hc (by decide)
  fun_cases hexBytes? t with
  | case1 h r g b hhex => exact absurd hhex.1 (hhash ht)
  | case3 h r r' g g' b b' hhex => exact absurd hhex.1 (hhash ht)
  | case2 | case4 | case5 => rfl

theorem isLetter_of_lowerByte : ∀ c, isLetter (lowerByte c) = true → c < 0x80 ∧ isLetter c = true :=
  forall_byte (by decide +kernel)

/-- In small letters, a text of ASCII characters is its bytes in small letters. -/
theorem lower_eq_map {t : Text} (ht : ∀ c ∈ t, c < 0x80) : lower t = t.map lowerByte := by
  rw [lower, mapText, if_pos (List.all_eq_true.mpr fun c hc => decide_eq_true (ht c hc))]

/-- A keyword has the bytes of its color, in any case. -/
theorem colorBytes?_keyword {t : Text} {e : Text × Text} (he : e ∈ colorNames)
    (ht : t.map lowerByte = e.1) :
    isLetter (head0 t) = true ∧ lower t = e.1 ∧ colorBytes? t = hexBytes? e.2 := by
  have hletters : ∀ c ∈ t, c < 0x80 ∧ isLetter c = true := fun c hc =>
    isLetter_of_lowerByte c ((colorNames_keyword he).2.1 _ (ht ▸ List.mem_map_of_mem hc))
  have hhead : isLetter (head0 t) = true := by
    cases t with
    | nil =>
      have hlength := (colorNames_keyword he).1
      rw [← ht] at hlength
      exact absurd hlength (by decide)
    | cons c t => exact (hletters c List.mem_cons_self).2
  have hlower : lower t = e.1 := (lower_eq_map fun c hc => (hletters c hc).1).trans ht
  refine ⟨hhead, hlower, ?_⟩
  rw [colorBytes?, hexBytes?_eq_none hhead, hlower, colorNameHex?_eq he]
  rfl

/-- The color of a keyword has bytes. -/
theorem exists_hexBytes?_colorNames {e : Text × Text} (he : e ∈ colorNames) :
    ∃ bytes, hexBytes? e.2 = some bytes := by
  obtain ⟨hlength, hhash, hdigits⟩ := colorNames_hex he
  obtain ⟨c, digits, hsplit⟩ := List.exists_cons_of_ne_nil (l := e.2) (by
    intro hnil
    simp [hnil] at hlength)
  rw [hsplit] at hlength hhash hdigits ⊢
  obtain rfl : c = ch '#' := hhash
  exact exists_hexBytes? (.inr (Nat.succ.inj hlength)) hdigits

/-- The shortest spelling of a keyword color has its bytes. -/
theorem colorBytes?_briefestOf {e : Text × Text} (he : e ∈ colorNames) :
    colorBytes? (briefestOf e) = hexBytes? e.2 := by
  by_cases hkeyword : e.1.length < (shortHex e.2).length
  · rw [briefestOf_keyword hkeyword]
    obtain ⟨⟨-, -, hsmall⟩, -⟩ := colorNames_written e he
    have hself : e.1.map lowerByte = e.1 := by
      conv_rhs => rw [← List.map_id e.1]
      exact List.map_congr_left fun c hc => (lowerByte_small c (List.all_eq_true.mp hsmall c hc)).2
    exact (colorBytes?_keyword he hself).2.2
  · obtain ⟨bytes, hbytes⟩ := exists_hexBytes?_colorNames he
    rw [briefestOf_hex hkeyword, hbytes]
    exact colorBytes?_of_hex ((hexBytes?_shortHex e.2).trans hbytes)

/-! ### Shortened colors -/

theorem ascii_of_hexBytes? {t : Text} {bytes : Nat × Nat × Nat} (h : hexBytes? t = some bytes) :
    head0 t = ch '#' ∧ ∀ c ∈ t, c < 0x80 := by
  have hhex {ds : Text} (hds : ds.all isHex = true) : ∀ c ∈ ch '#' :: ds, c < 0x80 := by
    have hascii : ∀ c, isHex c = true → c < 0x80 := forall_byte (by decide +kernel)
    rw [List.forall_mem_cons]
    exact ⟨by decide, fun c hc => hascii c (List.all_eq_true.mp hds c hc)⟩
  fun_cases hexBytes? t with
  | case1 h r g b hds =>
    obtain ⟨rfl, hds⟩ := hds
    exact ⟨rfl, hhex hds⟩
  | case3 h r r' g g' b b' hds =>
    obtain ⟨rfl, hds⟩ := hds
    exact ⟨rfl, hhex hds⟩
  | case2 | case4 | case5 => simp_all [hexBytes?]

/-- A hexadecimal color that spells a keyword color has its bytes. -/
theorem hexBytes?_of_mem_spellingsOf {t : Text} {bytes : Nat × Nat × Nat} {e : Text × Text}
    (ht : hexBytes? t = some bytes) (he : e ∈ colorNames)
    (h : lower t ∈ (spellingsOf e.1 e.2).1) : hexBytes? e.2 = some bytes := by
  rw [lower_eq_map (ascii_of_hexBytes? ht).2] at h
  have hlower : hexBytes? (t.map lowerByte) = some bytes := (hexBytes?_lowerByte t).trans ht
  rw [← hlower]
  obtain heq | heq := mem_spellingsOf_hash (ascii_of_hexBytes? hlower).1 he h
  · rw [heq]
  · rw [heq, hexBytes?_shortHex]

/-- Shortening keeps the bytes of a color. -/
theorem Style.colorBytes?_color (s : Style) {t : Text} (h : ColorToken t) :
    ∃ bytes, colorBytes? t = some bytes ∧ colorBytes? (s.color t) = some bytes := by
  cases h with
  | @hex digits hlength hdigits =>
    obtain ⟨bytes, hbytes⟩ := exists_hexBytes? hlength hdigits
    refine ⟨bytes, colorBytes?_of_hex hbytes, ?_⟩
    -- Repeated digits go first, and the table is asked for what is left.
    have hunpaired : hexBytes? (s.unpaired (ch '#' :: digits)) = some bytes := by
      obtain heq | ⟨-, -, heq⟩ := s.unpaired_cases (ch '#' :: digits)
      · rw [heq, hbytes]
      · rw [heq, hexBytes?_shortHex, hbytes]
    obtain heq | ⟨e, he, heq, -, hmem⟩ := s.color_cases (ch '#' :: digits)
    · rw [heq]
      exact colorBytes?_of_hex hunpaired
    · rw [heq, colorBytes?_briefestOf he]
      exact hexBytes?_of_mem_spellingsOf hunpaired he hmem
  | @keyword t e he ht =>
    obtain ⟨hletter, hlower, hbytes⟩ := colorBytes?_keyword he ht
    -- a keyword has no digits to drop
    have hunpaired : s.unpaired t = t := by
      obtain heq | ⟨-, hhash, -⟩ := s.unpaired_cases t
      · exact heq
      · rw [hhash] at hletter
        exact absurd hletter (by decide)
    obtain ⟨bytes, hcolor⟩ := exists_hexBytes?_colorNames he
    refine ⟨bytes, hbytes.trans hcolor, ?_⟩
    obtain heq | ⟨f, hf, heq, -, hmem⟩ := s.color_cases t
    · rw [heq, hunpaired, hbytes, hcolor]
    · rw [hunpaired, hlower] at hmem
      obtain rfl := colorNames_inj he hf (mem_spellingsOf_keyword he hf hmem)
      rw [heq, colorBytes?_briefestOf hf, hcolor]

/-! ### The table of spellings -/

/-- Enters a spelling under a key, unless what is there is briefer. -/
def enterSpelling (table : Text → Option Text) (key best : Text) : Text → Option Text :=
  fun k => if k = key then some (match table key with
    | some previous => briefer previous best
    | none => best) else table k

/-- Enters the shortest spelling of a keyword color under each of its spellings. -/
def enterColor (table : Text → Option Text) (e : Text × Text) : Text → Option Text :=
  (spellingsOf e.1 e.2).1.foldl (fun table key => enterSpelling table key (spellingsOf e.1 e.2).2)
    table

/-- The shortest spellings of keyword colors that are entered in this order. -/
def spellingTable (order : List (Text × Text)) : Text → Option Text :=
  order.foldl enterColor fun _ => none

/-- The spellings of keyword colors, each with the shortest one. -/
def offers (order : List (Text × Text)) : List (Text × Text) :=
  order.flatMap fun e => (spellingsOf e.1 e.2).1.map (·, (spellingsOf e.1 e.2).2)

theorem offers_colorNames : offers colorNames = spellings := rfl

/-- One more text to choose from. -/
theorem briefest?_concat (ts : List Text) (t : Text) :
    briefest? (ts ++ [t]) = some (match briefest? ts with
      | some u => briefer u t
      | none => t) := by
  cases ts with
  | nil => rfl
  | cons u us => simp [briefest?]

/-- An entry is the briefest of what is offered for it. -/
theorem foldl_enterSpelling (pairs : List (Text × Text)) (k : Text) :
    pairs.foldl (fun table pair => enterSpelling table pair.1 pair.2) (fun _ => none) k =
      briefest? ((pairs.filter (·.1 = k)).map (·.2)) := by
  -- What is entered last is compared with all that was entered before.
  induction pairs using List.reverseRecOn with
  | nil => rfl
  | append_singleton pairs pair ih =>
    rw [List.foldl_concat, enterSpelling, List.filter_append, List.map_append]
    by_cases hk : k = pair.1
    · subst hk
      rw [if_pos rfl, ih]
      simp [briefest?_concat]
    · simp [hk, Ne.symm hk, ih]

theorem spellingTable_eq (order : List (Text × Text)) (k : Text) :
    spellingTable order k = briefest? (((offers order).filter (·.1 = k)).map (·.2)) := by
  rw [← foldl_enterSpelling, offers, List.foldl_flatMap, spellingTable]
  simp only [List.foldl_map]
  rfl

theorem briefest?_congr {ts us : List Text} (h : ∀ t, t ∈ ts ↔ t ∈ us) :
    briefest? ts = briefest? us := by
  ext t
  rw [briefest?_eq_some_iff, briefest?_eq_some_iff]
  simp only [h]

/-- The order of the keywords makes no difference. -/
theorem spellingTable_congr {order order' : List (Text × Text)} (h : ∀ e, e ∈ order ↔ e ∈ order') :
    spellingTable order = spellingTable order' := by
  funext k
  rw [spellingTable_eq, spellingTable_eq]
  refine briefest?_congr fun t => ?_
  simp only [offers, List.mem_map, List.mem_filter, List.mem_flatMap, h]

/-- Shortening a hexadecimal color or a keyword keeps its bytes and does not make it longer. The
shortest spellings are found in the table that is built from the keywords, in whatever order. -/
theorem Style.color_spelling :
    (∀ (s : Style) (t : Text), ColorToken t →
      ∃ bytes, colorBytes? t = some bytes ∧ colorBytes? (s.color t) = some bytes ∧
        (s.color t).length ≤ t.length) ∧
    ∀ order order' : List (Text × Text), order.Perm colorNames → order'.Perm colorNames →
      spellingTable order = spellingTable order' ∧
        ∀ t, shortestSpelling? t = spellingTable order (lower t) := by
  refine ⟨fun s t h => ?_, fun order order' horder horder' => ?_⟩
  · obtain ⟨bytes, hbytes, hcolor⟩ := s.colorBytes?_color h
    refine ⟨bytes, hbytes, hcolor, ?_⟩
    obtain heq | hshorter := s.color_shorter t
    · exact Nat.le_of_eq (congrArg List.length heq)
    · exact Nat.le_of_lt hshorter
  · refine ⟨spellingTable_congr fun e => horder.mem_iff.trans horder'.mem_iff.symm, fun t => ?_⟩
    rw [spellingTable_congr fun e => horder.mem_iff, spellingTable_eq, offers_colorNames]
    rfl

/-- A hexadecimal color becomes a keyword, and a keyword a hexadecimal color. The keywords in
reverse order, where `grey` comes before `gray`, lead to the same table. -/
theorem namedColors_spelling :
    (ColorToken (of "#FF0000") ∧ ∃ bytes, colorBytes? (of "#FF0000") = some bytes ∧
      colorBytes? (Style.color {} (of "#FF0000")) = some bytes) ∧
    (ColorToken (of "LightGrey") ∧ ∃ bytes, colorBytes? (of "LightGrey") = some bytes ∧
      colorBytes? (Style.color {} (of "LightGrey")) = some bytes) ∧
    Style.color {} (of "#FF0000") = of "red" ∧ Style.color {} (of "LightGrey") = of "#d3d3d3" ∧
    colorNames.reverse.Perm colorNames ∧
      spellingTable colorNames.reverse = spellingTable colorNames := by
  have hdigits : ∀ c ∈ of "FF0000", isHex c = true := by decide
  have hred : ColorToken (of "#FF0000") := .hex (.inr (by decide)) hdigits
  have hgrey : ColorToken (of "LightGrey") :=
    .keyword (e := (of "lightgrey", of "#d3d3d3")) (by decide +kernel) (by decide)
  have hreverse : colorNames.reverse.Perm colorNames := List.reverse_perm _
  obtain ⟨red, hred', hred'', -⟩ := Style.color_spelling.1 {} _ hred
  obtain ⟨grey, hgrey', hgrey'', -⟩ := Style.color_spelling.1 {} _ hgrey
  exact ⟨⟨hred, red, hred', hred''⟩, ⟨hgrey, grey, hgrey', hgrey''⟩, by decide +kernel,
    by decide +kernel, hreverse, (Style.color_spelling.2 _ _ hreverse (.refl _)).1⟩

end Stylesheet
