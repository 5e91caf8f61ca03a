import Raeva.Maven.Range
import Raeva.Maven.VersionLaws

/-!
# Requirements are read back from their text

What `VersionReq::parse` accepts is displayed so that it parses to the same
requirement.  The bounds of a parsed range are trimmed, hold no comma and no
closing bracket, and are in order; for `[P.*]` this is because `P.min` is below
`P.max`.
-/

namespace Raeva

open List

/-! ## The bounds of a prefix -/

/-- A token of a text that ends at a separator does not depend on what follows
the text. -/
theorem scanToken_append {part : Text} (hpart : part.getLast? = some '.') (state : ScanState)
    (token : Text) :
    ∃ state' token' beforeDigit part', part' <:+ part ∧ (state = .start → part' ≠ part) ∧
      ∀ word, scanToken state token (part ++ word) =
        (state', token', beforeDigit, part' ++ word) := by
  induction part generalizing state token with
  | nil => cases hpart
  | cons ch part ih =>
    have hsuffix : part <:+ ch :: part := suffix_cons ch part
    have hself : ch :: part <:+ ch :: part := suffix_refl _
    have hne : part ≠ ch :: part := fun h => by simpa using congrArg List.length h
    by_cases hsep : isSeparator ch = true
    · refine ⟨state, token, false, part, hsuffix, fun _ => hne, fun word => ?_⟩
      simp [scanToken, hsep]
    -- the text goes on, since its last character is a separator
    have hrest : part.getLast? = some '.' := by
      cases part with
      | nil =>
        obtain rfl : ch = '.' := by simpa using hpart
        exact absurd rfl hsep
      | cons d part => simpa using hpart
    have hgo : ∀ (next : ScanState) (token' : Text),
        (∀ word, scanToken state token (ch :: part ++ word) =
          scanToken next token' (part ++ word)) →
        ∃ state' token' beforeDigit part', part' <:+ ch :: part ∧
          (state = .start → part' ≠ ch :: part) ∧
          ∀ word, scanToken state token (ch :: part ++ word) =
            (state', token', beforeDigit, part' ++ word) := by
      intro next token' hstep
      obtain ⟨state'', token'', beforeDigit, part', hle, -, hscan⟩ := ih hrest next token'
      refine ⟨state'', token'', beforeDigit, part', hle.trans hsuffix, fun _ heq => ?_,
        fun word => (hstep word).trans (hscan word)⟩
      have hlength := hle.length_le
      rw [heq, length_cons] at hlength
      omega
    by_cases hdigit : Text.isAsciiDigit ch = true
    · cases state with
      | start | zeros | number => exact hgo _ _ fun word => by simp [scanToken, hsep, hdigit]; rfl
      | text =>
        refine ⟨.text, token, true, ch :: part, hself, by simp, fun word => ?_⟩
        simp [scanToken, hsep, hdigit]
    · cases state with
      | start | text => exact hgo _ _ fun word => by simp [scanToken, hsep, hdigit]; rfl
      | zeros =>
        refine ⟨.zeros, token, false, ch :: part, hself, by simp, fun word => ?_⟩
        simp [scanToken, hsep, hdigit]
      | number =>
        refine ⟨.number, token, false, ch :: part, hself, by simp, fun word => ?_⟩
        simp [scanToken, hsep, hdigit]

theorem trimAfter_append_bound (before : Item) (items : List Item) :
    ∃ kept run atEnd tailDropped,
      trimAfter before (items ++ [.min]) = ⟨kept ++ [.min], run, atEnd, tailDropped⟩ ∧
        trimAfter before (items ++ [.max]) = ⟨kept ++ [.max], run, atEnd, tailDropped⟩ := by
  induction items generalizing before with
  | nil => exact ⟨[], some true, false, false, by simp [trimAfter, trimStep, TrimState.init,
      Item.cmpPadding, Item.isNumber], by simp [trimAfter, trimStep, TrimState.init,
      Item.cmpPadding, Item.isNumber]⟩
  | cons item items ih =>
    obtain ⟨kept, run, atEnd, tailDropped, hmin, hmax⟩ := ih item
    simp only [cons_append, trimAfter, hmin, hmax, trimStep]
    generalize (if run = some item.isNumber then atEnd else true) = ended
    by_cases hdrop : (ended && (tailDropped || before.isNumber == item.isNumber) &&
        item.cmpPadding.isEq) = true <;> simp only [hdrop, if_true, if_false, Bool.false_eq_true]
    · exact ⟨kept, _, _, _, rfl, rfl⟩
    · exact ⟨item :: kept, _, _, _, rfl, rfl⟩

theorem cmpItems_append_bound (number : Bool) (items : List Item) :
    Version.cmpItems number (items ++ [.min]) (items ++ [.max]) = .lt := by
  induction items generalizing number with
  | nil => cases number <;> rfl
  | cons item items ih =>
    have hself : item.cmp item = .eq := Std.ReflCmp.compare_self
    rw [cons_append, cons_append, Version.cmpItems, if_neg (not_not.mpr rfl), hself]
    exact ih item.isNumber

section Prefix

variable [Lowercase] [AsciiLowercase]

theorem toLowercase_bound {word : Text} (h : word = "min" ∨ word = "max") :
    Lowercase.toLowercase word = word := by
  rcases h with rfl | rfl <;> rw [AsciiLowercase.toLowercase_ascii _ (by simp)] <;> decide

theorem textItem_min : textItem "min" true false = .min := by
  unfold textItem
  rw [toLowercase_bound (.inl rfl)]
  exact if_pos (by simp)

theorem textItem_max : textItem "max" true false = .max := by
  unfold textItem
  rw [toLowercase_bound (.inr rfl)]
  have hne : ¬ (decide ("max" = "min") && true) = true := by decide
  exact (if_neg hne).trans (if_pos (by simp))

omit [AsciiLowercase] in
theorem itemsFrom_word (fuel : ℕ) {word : Text} (hne : word ≠ [])
    (hword : ∀ c ∈ word, isSeparator c = false ∧ Text.isAsciiDigit c = false) :
    itemsFrom (fuel + 1) word = [textItem word true false] := by
  have hscan : ∀ (state : ScanState) (token : Text), state = .start ∨ state = .text →
      scanToken state token word =
        (if word = [] then state else .text, token ++ word, false, []) := by
    clear hne
    induction word with
    | nil => intro state token _; simp [scanToken]
    | cons c word ih =>
      intro state token hstate
      obtain ⟨hsep, hdigit⟩ := hword c mem_cons_self
      have hrest := ih (fun d hd => hword d (mem_cons_of_mem c hd)) .text (token ++ [c])
        (.inr rfl)
      rcases hstate with rfl | rfl <;> simp [scanToken, hsep, hdigit, hrest]
  have hnil : itemsFrom fuel [] = [] := by cases fuel <;> rfl
  simp [itemsFrom, hscan .start [] (.inl rfl), hne, hnil, tokenItem]

theorem itemsFrom_bound (fuel : ℕ) :
    itemsFrom (fuel + 1) "min" = [.min] ∧ itemsFrom (fuel + 1) "max" = [.max] := by
  constructor
  · rw [itemsFrom_word fuel (by decide) (by simp [isSeparator, Text.isAsciiDigit]), textItem_min]
  · rw [itemsFrom_word fuel (by decide) (by simp [isSeparator, Text.isAsciiDigit]), textItem_max]

theorem itemsFrom_append_bound {part : Text} (hpart : part.getLast? = some '.') :
    ∃ items, items ≠ [] ∧ ∀ fuel, part.length + 3 ≤ fuel →
      itemsFrom fuel (part ++ "min") = items ++ [.min] ∧
        itemsFrom fuel (part ++ "max") = items ++ [.max] := by
  induction hn : part.length using Nat.strongRecOn generalizing part with
  | ind n ih =>
    obtain ⟨state, token, beforeDigit, rest, hsuffix, hne, hscan⟩ :=
      scanToken_append hpart .start []
    have hshorter : rest.length < part.length := by
      refine lt_of_le_of_ne hsuffix.length_le fun heq => hne rfl ?_
      exact hsuffix.eq_of_length heq
    have hstep : ∀ (fuel : ℕ) (word : Text), word ≠ [] → itemsFrom (fuel + 1) (part ++ word) =
          tokenItem state token false beforeDigit :: itemsFrom fuel (rest ++ word) := by
      intro fuel word hword
      have hne : (part ++ word).isEmpty = false := by simp [hword]
      have hne' : (rest ++ word).isEmpty = false := by simp [hword]
      simp only [itemsFrom, hscan, hne, hne', Bool.false_eq_true, if_false]
    have hmin : "min".toList ≠ [] := by decide
    have hmax : "max".toList ≠ [] := by decide
    by_cases hrest : rest = []
    · refine ⟨[tokenItem state token false beforeDigit], by simp, fun fuel hfuel => ?_⟩
      obtain ⟨fuel, rfl⟩ : ∃ k, fuel = k + 2 := ⟨fuel - 2, by omega⟩
      rw [hstep _ _ hmin, hstep _ _ hmax, hrest, nil_append, nil_append,
        (itemsFrom_bound fuel).1, (itemsFrom_bound fuel).2]
      exact ⟨rfl, rfl⟩
    · have hlast : rest.getLast? = some '.' := by
        obtain ⟨before, rfl⟩ := hsuffix
        rwa [getLast?_append_of_ne_nil before hrest] at hpart
      obtain ⟨items, -, hitems⟩ := ih rest.length (hn ▸ hshorter) hlast rfl
      refine ⟨tokenItem state token false beforeDigit :: items, by simp, fun fuel hfuel => ?_⟩
      obtain ⟨fuel, rfl⟩ : ∃ k, fuel = k + 1 := ⟨fuel - 1, by omega⟩
      obtain ⟨hlower, hupper⟩ := hitems fuel (by omega)
      rw [hstep _ _ hmin, hstep _ _ hmax, hlower, hupper]
      exact ⟨rfl, rfl⟩

omit [Lowercase] [AsciiLowercase] in
theorem byteLen_bound (part : Text) :
    Text.byteLen (part ++ "max") = Text.byteLen (part ++ "min") := by
  have hword : Text.byteLen "max" = Text.byteLen "min" := by decide
  rw [Text.byteLen_append, Text.byteLen_append, hword]

theorem Version.cmp_min_max {part : Text} (hpart : part.getLast? = some '.')
    (hshort : Text.byteLen (part ++ "min") ≤ maxComponentBytes) :
    (Version.mk (part ++ "min")).cmp ⟨part ++ "max"⟩ = .lt := by
  obtain ⟨items, hne, hitems⟩ := itemsFrom_append_bound hpart
  obtain ⟨first, rest, rfl⟩ := exists_cons_of_ne_nil hne
  obtain ⟨hmin, hmax⟩ := hitems (part.length + 3) le_rfl
  obtain ⟨kept, run, atEnd, tailDropped, htrim, htrim'⟩ := trimAfter_append_bound first rest
  have hlower : parseItems (part ++ "min") = first :: kept ++ [.min] := by
    have hfuel : (part ++ "min").length = part.length + 3 := length_append
    rw [parseItems, hfuel, hmin, cons_append, trimPadding, htrim]
    rfl
  have hupper : parseItems (part ++ "max") = first :: kept ++ [.max] := by
    have hfuel : (part ++ "max").length = part.length + 3 := length_append
    rw [parseItems, hfuel, hmax, cons_append, trimPadding, htrim']
    rfl
  rw [Version.cmp, Version.items, Version.items, if_neg (Nat.not_lt.mpr hshort),
    if_neg (Nat.not_lt.mpr (byteLen_bound part ▸ hshort)), hlower, hupper, cmpItems_append_bound]

end Prefix

/-! ## What was parsed -/

def Version.Parsed (v : Version) : Prop :=
  Version.parse v.original = .ok v

theorem Version.parsed_of_parse {s : Text} {v : Version} (h : Version.parse s = .ok v) :
    v.Parsed ∧ Text.byteLen v.original ≤ maxComponentBytes := by
  obtain ⟨htext, hne, hshort, hproperty⟩ := Version.parse_eq_ok.mp h
  refine ⟨Version.parse_eq_ok.mpr ⟨?_, hne, hshort, hproperty⟩, hshort⟩
  rw [htext, Text.trim_trim]

theorem Version.Parsed.trim {v : Version} (h : v.Parsed) : Text.trim v.original = v.original :=
  (Version.parse_eq_ok.mp h).1.symm

theorem not_isWhitespace_of_isOpening {c : Char} (h : isOpening c = true) :
    Text.isWhitespace c = false := by
  simp only [isOpening, Bool.or_eq_true, beq_iff_eq] at h
  rcases h with rfl | rfl <;> decide

theorem not_isWhitespace_of_isClosing {c : Char} (h : isClosing c = true) :
    Text.isWhitespace c = false := by
  simp only [isClosing, Bool.or_eq_true, beq_iff_eq] at h
  rcases h with rfl | rfl <;> decide

namespace VersionRange

theorem bound_parsed {range text : Text} {v : Version} (h : bound range text = .ok (some v)) :
    v.Parsed ∧ Text.byteLen v.original ≤ maxComponentBytes ∧ v.original = Text.trim text := by
  have hparse := bound_eq_ok h
  obtain ⟨hparsed, hshort⟩ := Version.parsed_of_parse hparse
  exact ⟨hparsed, hshort, by rw [(Version.parse_eq_ok.mp hparse).1, Text.trim_trim]⟩

structure Parsed [Lowercase] (range : VersionRange) : Prop where
  plain : range.Plain
  lower : ∀ v ∈ range.lower, v.Parsed
  upper : ∀ v ∈ range.upper, v.Parsed
  ordered : ∀ l ∈ range.lower, ∀ u ∈ range.upper, l.cmp u ≠ .gt

section Parse

variable [Lowercase] [AsciiLowercase]

theorem star_bounds {range exact part : Text} {lower upper : Option Version}
    (hstar : starPart (Text.trim exact) = some part)
    (hlower : bound range (part ++ "min") = .ok lower)
    (hupper : bound range (part ++ "max") = .ok upper) :
    ∃ l u, lower = some l ∧ upper = some u ∧ l.cmp u = .lt := by
  obtain ⟨hexact, hdot⟩ := starPart_eq hstar
  -- the prefix starts with no whitespace, being the start of a trimmed text
  have hhead : ∀ word : Text, word ≠ [] → (∀ c ∈ word.getLast?, Text.isWhitespace c = false) →
      Text.trim (part ++ word) = part ++ word := by
    intro word hne hlast
    refine Text.trim_eq_self (fun c hc => ?_) fun c hc => ?_
    · obtain ⟨first, rest, rfl⟩ := exists_cons_of_ne_nil (l := part) (by
        rintro rfl
        cases hdot)
      obtain rfl : first = c := by simpa using hc
      refine Text.head?_trim (t := exact) first ?_
      rw [hexact]
      rfl
    · rw [getLast?_append_of_ne_nil part hne] at hc
      exact hlast c hc
  have hmin := hhead "min" (by decide) (by simp [Text.isWhitespace])
  have hmax := hhead "max" (by decide) (by simp [Text.isWhitespace])
  have hsome : ∀ {word : Text} {b : Option Version}, word ≠ [] →
      bound range (part ++ word) = .ok b → Text.trim (part ++ word) = part ++ word →
      ∃ v, b = some v ∧ v = ⟨part ++ word⟩ ∧ bound range (part ++ word) = .ok (some v) := by
    intro word b hne hb htrim
    cases b with
    | none =>
      unfold bound at hb
      simp only [htrim] at hb
      split at hb
      · rename_i hempty
        simp [hne] at hempty
      · split at hb <;> cases hb
    | some v =>
      refine ⟨v, rfl, ?_, hb⟩
      obtain ⟨-, -, htext⟩ := bound_parsed hb
      rw [htrim] at htext
      exact congrArg Version.mk htext
  obtain ⟨l, hl, hlv, hlb⟩ := hsome (by decide) hlower hmin
  obtain ⟨u, hu, huv, -⟩ := hsome (by decide) hupper hmax
  refine ⟨l, u, hl, hu, ?_⟩
  have hshort := (bound_parsed hlb).2.1
  rw [hlv] at hshort
  rw [hlv, huv]
  exact Version.cmp_min_max hdot hshort

theorem parse_parsed {s : Text} {range : VersionRange}
    (hs : ∀ c ∈ s.dropLast, isClosing c = false) (h : VersionRange.parse s = .ok range) :
    range.Parsed := by
  have hbound : ∀ {text : Text} {b : Option Version},
      bound (.trim s) text = .ok b → ∀ v ∈ b, v.Parsed := by
    intro text b hb v hv
    obtain rfl : b = some v := hv
    exact (bound_parsed hb).1
  have hplain := parse_plain hs h
  obtain ⟨inner, hinner, hcases⟩ := parse_eq_ok h
  rcases hcases with ⟨lower, upper, -, hbl, hbu, hordered⟩ | ⟨exact, -, -, -, hexact⟩
  · exact ⟨hplain, hbound hbl, hbound hbu, hordered⟩
  rcases hexact with ⟨part, hstar, hbl, hbu⟩ | ⟨-, v, hb, hlower, hupper⟩
  · obtain ⟨l, u, hl, hu, hlt⟩ := star_bounds hstar hbl hbu
    refine ⟨hplain, hbound hbl, hbound hbu, ?_⟩
    rw [hl, hu]
    simp [hlt]
  · have hv := hbound hb v rfl
    have hself : v.cmp v = .eq := Version.cmpItems_self true v.items
    refine ⟨hplain, ?_, ?_, ?_⟩
    · rw [hlower]
      simpa using hv
    · rw [hupper]
      simpa using hv
    · rw [hlower, hupper]
      simp [hself]

theorem parse_exact {s : Text} {range : VersionRange} (hcomma : ',' ∉ s)
    (h : VersionRange.parse s = .ok range) (hexact : range.isExact = true) :
    ∃ v, range = ⟨some v, some v, true, true⟩ ∧ v.Parsed ∧ starPart v.original = none := by
  obtain ⟨inner, hinner, hcases⟩ := parse_eq_ok h
  rcases hcases with ⟨lower, upper, hsplit, -⟩ | ⟨exact, hsplit, hopen, hclose, hcases⟩
  · -- two bounds need a comma between them
    have hinnerComma : ',' ∉ inner := by
      unfold VersionRange.inner at hinner
      split at hinner
      · cases hinner
      rename_i first rest htrim
      split at hinner
      · cases hinner
        intro hmem
        refine hcomma (Text.mem_of_mem_trim ?_)
        rw [htrim]
        exact mem_cons_of_mem first (dropLast_subset rest hmem)
      · cases hinner
    have hsingle : Text.split inner ',' = [inner] := by
      rw [Text.split, splitOn_eq_singleton hinnerComma]
    rw [hsingle] at hsplit
    cases hsplit
  rcases hcases with ⟨part, hstar, hbl, hbu⟩ | ⟨hstar, v, hb, hlower, hupper⟩
  · obtain ⟨l, u, hl, hu, hlt⟩ := star_bounds hstar hbl hbu
    simp [isExact, hl, hu, Version.eq, hlt] at hexact
  obtain ⟨hparsed, -, htext⟩ := bound_parsed hb
  refine ⟨v, ?_, hparsed, by rw [htext]; exact hstar⟩
  obtain ⟨_, _, _, _⟩ := range
  cases hlower
  cases hupper
  cases hopen
  cases hclose
  rfl

end Parse

/-! ## Reading a displayed range -/

theorem bound_boundText {bound : Option Version} (hplain : ∀ v ∈ bound, v.Plain)
    (hparsed : ∀ v ∈ bound, v.Parsed) (range : Text) :
    VersionRange.bound range (boundText bound) = .ok bound := by
  cases bound with
  | none => rfl
  | some v =>
    have hne : v.original ≠ [] := (hplain v rfl).1
    have hv := hparsed v rfl
    have hparse : Version.parse v.original = .ok v := hv
    simp [VersionRange.bound, boundText, hv.trim, hne, hparse]

theorem trim_bracketed {start stop : Char} (hstart : isOpening start = true)
    (hstop : isClosing stop = true) (text : Text) :
    Text.trim (start :: (text ++ [stop])) = start :: (text ++ [stop]) := by
  refine Text.trim_eq_self (fun c hc => ?_) fun c hc => ?_
  · obtain rfl : start = c := by simpa using hc
    exact not_isWhitespace_of_isOpening hstart
  obtain rfl : stop = c := by
    rw [← cons_append, getLast?_concat] at hc
    exact Option.some.inj hc
  exact not_isWhitespace_of_isClosing hstop

theorem inner_bracketed {start stop : Char} (hstart : isOpening start = true)
    (hstop : isClosing stop = true) (text : Text) :
    VersionRange.inner (start :: (text ++ [stop])) = some text := by
  simp [VersionRange.inner, hstart, hstop]

theorem isOpening_ite (b : Bool) : isOpening (if b then '[' else '(') = true := by
  cases b <;> decide

theorem isClosing_ite (b : Bool) : isClosing (if b then ']' else ')') = true := by
  cases b <;> decide

theorem startsWith_opening (b : Bool) (text : Text) :
    Text.startsWith ((if b then '[' else '(') :: text) "[" = b := by
  cases b <;> simp [Text.startsWith, List.isPrefixOf]

theorem endsWith_closing (b : Bool) (text : Text) :
    Text.endsWith (text ++ [if b then ']' else ')']) "]" = b := by
  cases b <;> simp [Text.endsWith, List.isSuffixOf, List.isPrefixOf]

theorem split_bounds {lower upper : Option Version} (hlower : ∀ v ∈ lower, v.Plain)
    (hupper : ∀ v ∈ upper, v.Plain) :
    Text.split (boundText lower ++ ',' :: boundText upper) ',' =
      [boundText lower, boundText upper] := by
  have hcomma : ∀ {bound : Option Version}, (∀ v ∈ bound, v.Plain) → ',' ∉ boundText bound := by
    intro bound hplain hmem
    exact absurd (boundText_isPlainChar hplain ',' hmem) (by decide)
  have hjoin : boundText lower ++ ',' :: boundText upper =
      [','].intercalate [boundText lower, boundText upper] := by
    simp [List.intercalate]
  rw [Text.split, hjoin, splitOn_intercalate]
  · intro part hpart
    simp only [mem_cons, not_mem_nil, or_false] at hpart
    rcases hpart with rfl | rfl
    · exact hcomma hlower
    · exact hcomma hupper
  · simp

theorem parse_display_of_parsed [Lowercase] {range : VersionRange} (h : range.Parsed) :
    VersionRange.parse range.display = .ok range := by
  obtain ⟨lower, upper, includeLower, includeUpper⟩ := range
  have hdisplay : VersionRange.display ⟨lower, upper, includeLower, includeUpper⟩ =
      (if includeLower then '[' else '(') ::
        ((boundText lower ++ ',' :: boundText upper) ++ [if includeUpper then ']' else ')']) := by
    simp [VersionRange.display]
  have hends : Text.endsWith ((if includeLower then '[' else '(') ::
      ((boundText lower ++ ',' :: boundText upper) ++ [if includeUpper then ']' else ')']))
      "]" = includeUpper := endsWith_closing includeUpper (_ :: _)
  have hordered := h.ordered
  simp only [VersionRange.parse, hdisplay, trim_bracketed (isOpening_ite _) (isClosing_ite _),
    inner_bracketed (isOpening_ite _) (isClosing_ite _), split_bounds h.plain.1 h.plain.2,
    startsWith_opening, hends, bound_boundText h.plain.1 h.lower, bound_boundText h.plain.2 h.upper]
  cases lower with
  | none => rfl
  | some l =>
    cases upper with
    | none => rfl
    | some u =>
      have hle : (l.cmp u).isGT = false := by
        have hne := hordered l rfl u rfl
        cases hcmp : l.cmp u <;> simp_all
      simp only [bind, Except.bind, hle, Bool.false_eq_true, if_false]

theorem parse_display_exact [Lowercase] {v : Version} (hplain : v.Plain) (hparsed : v.Parsed)
    (hstar : starPart v.original = none) :
    VersionRange.parse ('[' :: (v.original ++ [']'])) = .ok ⟨some v, some v, true, true⟩ := by
  have hcomma : ',' ∉ v.original := fun hmem => (hplain.2 ',' hmem).1 rfl
  have hsplit : Text.split v.original ',' = [v.original] := by
    rw [Text.split, splitOn_eq_singleton hcomma]
  have hbound : ∀ range, VersionRange.bound range (boundText (some v)) = .ok (some v) :=
    bound_boundText (by simpa using hplain) (by simpa using hparsed)
  have hopening : isOpening '[' = true := rfl
  have hclosing : isClosing ']' = true := rfl
  have hstarts : Text.startsWith ('[' :: (v.original ++ [']'])) "[" = true :=
    startsWith_opening true _
  have hends : Text.endsWith ('[' :: (v.original ++ [']'])) "]" = true :=
    endsWith_closing true (_ :: _)
  have hbound' : ∀ range, VersionRange.bound range v.original = .ok (some v) := hbound
  simp only [VersionRange.parse, trim_bracketed hopening hclosing,
    inner_bracketed hopening hclosing, hsplit, hstarts, hends, hparsed.trim, hstar, hbound',
    Bool.and_self, if_true]
  rfl

end VersionRange

/-! ## Reading a displayed requirement -/

theorem VersionRange.display_eq (range : VersionRange) :
    ∃ body, range.display = body ++ [if range.includeUpper then ']' else ')'] ∧
      body.head?.any isOpening = true ∧
      (range.Plain → ∀ c ∈ body, isClosing c = false) := by
  refine ⟨(if range.includeLower then '[' else '(') ::
    (boundText range.lower ++ ',' :: boundText range.upper), ?_, ?_, fun hplain c hc => ?_⟩
  · simp [VersionRange.display]
  · simpa using VersionRange.isOpening_ite range.includeLower
  have hbound : ∀ {bound : Option Version}, (∀ v ∈ bound, v.Plain) → c ∈ boundText bound →
      isClosing c = false := by
    intro bound hplain hmem
    have hchar := boundText_isPlainChar hplain c hmem
    simp only [isPlainChar, Bool.and_eq_true, Bool.not_eq_true'] at hchar
    exact hchar.2
  rcases mem_cons.mp hc with rfl | hc
  · cases range.includeLower <;> decide
  rcases mem_append.mp hc with hc | hc
  · exact hbound hplain.1 hc
  rcases mem_cons.mp hc with rfl | hc
  · decide
  · exact hbound hplain.2 hc

namespace VersionReq

def unionText (ranges : List VersionRange) : Text :=
  Text.join [','] (ranges.map VersionRange.display)

def displayRest (ranges : List VersionRange) : Text :=
  if ranges = [] then [] else ',' :: unionText ranges

theorem join_cons (range : VersionRange) (ranges : List VersionRange) :
    unionText (range :: ranges) =
      range.display ++ displayRest ranges := by
  cases ranges <;> simp [displayRest, unionText, Text.join, List.intercalate]

theorem unionText_ne_nil {ranges : List VersionRange} (hne : ranges ≠ []) :
    unionText ranges ≠ [] := by
  obtain ⟨range, ranges, rfl⟩ := exists_cons_of_ne_nil hne
  simp [join_cons, VersionRange.display]

theorem span_closing {body : Text} {stop : Char} (hbody : ∀ c ∈ body, isClosing c = false)
    (hstop : isClosing stop = true) (rest : Text) :
    (body ++ stop :: rest).takeWhile (!isClosing ·) = body ∧
      (body ++ stop :: rest).dropWhile (!isClosing ·) = stop :: rest := by
  rw [takeWhile_append_of_pos (by simpa using hbody),
    dropWhile_append_of_pos (by simpa using hbody)]
  simp [hstop]

theorem splitUnionRanges_bracketed {body : Text} (hbody : ∀ c ∈ body, isClosing c = false)
    (input : Text) (fuel : ℕ) :
    splitUnionRanges input (fuel + 1) ('[' :: (body ++ [']'])) = .ok ['[' :: (body ++ [']'])] := by
  have hopened : ∀ c ∈ '[' :: body, isClosing c = false := forall_mem_cons.mpr ⟨rfl, hbody⟩
  obtain ⟨htake, hdrop⟩ := span_closing hopened (show isClosing ']' = true from rfl) []
  rw [cons_append] at htake hdrop
  have hopening : isOpening '[' = true := rfl
  simp only [splitUnionRanges, head?_cons, Option.any_some, hopening, if_true, htake, hdrop]
  rfl

theorem join_ends {ranges : List VersionRange} (hne : ranges ≠ []) :
    (unionText ranges).head?.any isOpening = true ∧
      (unionText ranges).getLast?.any isClosing = true := by
  induction ranges with
  | nil => exact absurd rfl hne
  | cons range ranges ih =>
    obtain ⟨body, hdisplay, hhead, -⟩ := range.display_eq
    have hbody : body ≠ [] := by
      rintro rfl
      cases hhead
    rw [join_cons, hdisplay]
    refine ⟨?_, ?_⟩
    · rw [append_assoc, head?_append_of_ne_nil _ hbody]
      exact hhead
    by_cases hranges : ranges = []
    · subst hranges
      simpa [displayRest] using VersionRange.isClosing_ite range.includeUpper
    · rw [displayRest, if_neg hranges, getLast?_append_of_ne_nil _ (by simp),
        ← singleton_append, getLast?_append_of_ne_nil _ (unionText_ne_nil hranges)]
      exact (ih hranges).2

theorem length_le_join (ranges : List VersionRange) :
    ranges.length ≤ (unionText ranges).length := by
  induction ranges with
  | nil => exact Nat.zero_le _
  | cons range ranges ih =>
    rw [join_cons, length_append, length_cons]
    have hdisplay : 1 ≤ range.display.length := by simp [VersionRange.display]
    have hrest : ranges.length ≤ (displayRest ranges).length := by
      rw [displayRest]
      split
      · simp [*]
      · exact ih.trans (Nat.le_succ _)
    omega

theorem trim_join {ranges : List VersionRange} (hne : ranges ≠ []) :
    Text.trim (unionText ranges) =
      unionText ranges := by
  obtain ⟨hhead, hlast⟩ := join_ends hne
  refine Text.trim_eq_self (fun c hc => ?_) fun c hc => ?_
  · rw [hc] at hhead
    exact not_isWhitespace_of_isOpening hhead
  · rw [hc] at hlast
    exact not_isWhitespace_of_isClosing hlast

theorem trim_displayRest (ranges : List VersionRange) :
    Text.trim (displayRest ranges) = displayRest ranges := by
  rw [displayRest]
  split
  · rfl
  rename_i hne
  obtain ⟨-, hlast⟩ := join_ends hne
  refine Text.trim_eq_self (fun c hc => ?_) fun c hc => ?_
  · obtain rfl : ',' = c := by simpa using hc
    decide
  · rw [← singleton_append, getLast?_append_of_ne_nil _ (unionText_ne_nil hne)] at hc
    rw [hc] at hlast
    exact not_isWhitespace_of_isClosing hlast

theorem splitUnionRanges_join {ranges : List VersionRange} (hne : ranges ≠ [])
    (hplain : ∀ range ∈ ranges, range.Plain) (input : Text) {fuel : ℕ}
    (hfuel : ranges.length ≤ fuel) :
    splitUnionRanges input fuel (unionText ranges) =
      .ok (ranges.map VersionRange.display) := by
  induction ranges generalizing fuel with
  | nil => exact absurd rfl hne
  | cons range ranges ih =>
    obtain ⟨fuel, rfl⟩ : ∃ k, fuel = k + 1 := ⟨fuel - 1, by
      rw [length_cons] at hfuel
      omega⟩
    obtain ⟨body, hdisplay, hhead, hbody⟩ := range.display_eq
    have hopen := hbody (hplain range mem_cons_self)
    have hstop := VersionRange.isClosing_ite range.includeUpper
    generalize (if range.includeUpper then ']' else ')') = stop at hdisplay hstop
    have hne' : body ≠ [] := by
      rintro rfl
      cases hhead
    have htext : unionText (range :: ranges) =
        body ++ stop :: displayRest ranges := by
      rw [join_cons, hdisplay, append_assoc]
      rfl
    have hstart : (body ++ stop :: displayRest ranges).head?.any isOpening = true := by
      rw [head?_append_of_ne_nil _ hne']
      exact hhead
    obtain ⟨htake, hdrop⟩ := span_closing hopen hstop (displayRest ranges)
    rw [htext, splitUnionRanges]
    simp only [hstart, if_true, htake, hdrop, trim_displayRest]
    by_cases hranges : ranges = []
    · subst hranges
      simp [displayRest, hdisplay]
    obtain ⟨hopens, -⟩ := join_ends hranges
    have hnonempty := isEmpty_eq_false_iff.mpr (unionText_ne_nil hranges)
    have hlength : ranges.length ≤ fuel := by
      rw [length_cons] at hfuel
      omega
    have hrest := ih hranges (fun r hr => hplain r (mem_cons_of_mem range hr)) hlength
    simp only [displayRest, if_neg hranges, trim_join hranges, hnonempty,
      Bool.false_eq_true, if_false, hopens, if_true, hrest, hdisplay, map_cons]
    rfl

/-- What is known of a requirement read from a text. -/
def Parsed [Lowercase] : VersionReq → Prop
  | exact version =>
    version.Plain ∧ version.Parsed ∧ VersionRange.starPart version.original = none
  | soft version =>
    version.Parsed ∧ version.original ≠ [] ∧
      ∀ c ∈ version.original, (isOpening c || isClosing c || c == ',') = false
  | ranges rs => rs ≠ [] ∧ ∀ range ∈ rs, range.Parsed

theorem parse_parsed [Lowercase] [AsciiLowercase] {s : Text} {req : VersionReq}
    (h : VersionReq.parse s = .ok req) : req.Parsed := by
  rcases parse_eq_ok h with ⟨texts, parsed, htexts, hmap, hreq⟩ | ⟨-, hplain, v, hv, rfl⟩
  · obtain ⟨hsome, hclosing⟩ := splitUnionRanges_not_closing htexts
    have hparsed : ∀ range ∈ parsed, range.Parsed := by
      intro range hrange
      obtain ⟨text, htext, hparse⟩ := mem_of_mapM_eq_ok hmap range hrange
      exact VersionRange.parse_parsed (hclosing text htext) hparse
    rcases hreq with rfl | ⟨text, only, lower, rfl, rfl, hlower, hcomma, hexact, rfl⟩
    · refine ⟨?_, hparsed⟩
      obtain ⟨text, texts, rfl⟩ := exists_cons_of_ne_nil hsome
      rw [mapM_cons] at hmap
      obtain ⟨range, -, hmap⟩ := bind_eq_ok hmap
      obtain ⟨more, -, hmap⟩ := bind_eq_ok hmap
      cases hmap
      exact cons_ne_nil _ _
    · obtain ⟨text', htext, hparse⟩ := mem_of_mapM_eq_ok hmap only mem_cons_self
      obtain rfl := mem_singleton.mp htext
      obtain ⟨v, hv, hvparsed, hstar⟩ := VersionRange.parse_exact hcomma hparse hexact
      obtain rfl : lower = v := by simpa [hv] using hlower.symm
      exact ⟨(hparsed only mem_cons_self).plain.1 lower hlower, hvparsed, hstar⟩
  · obtain ⟨htext, hne, -⟩ := Version.parse_eq_ok.mp hv
    refine ⟨(Version.parsed_of_parse hv).1, hne, fun c hc => hplain c ?_⟩
    rwa [htext, Text.trim_trim] at hc

theorem parse_display_ranges [Lowercase] {rs : List VersionRange} (hne : rs ≠ [])
    (hrs : ∀ range ∈ rs, range.Parsed) :
    VersionReq.parse (VersionReq.ranges rs).display = .ok (.ranges rs) := by
  obtain ⟨hhead, -⟩ := join_ends hne
  have htrim := trim_join hne
  have hlength : rs.length ≤ (unionText rs).length + 1 :=
    (length_le_join rs).trans (Nat.le_succ _)
  have hsplit := splitUnionRanges_join hne (fun r hr => (hrs r hr).plain)
    (unionText rs) hlength
  have hmap : (rs.map VersionRange.display).mapM VersionRange.parse = .ok rs :=
    mapM_map_eq_ok fun range hrange => VersionRange.parse_display_of_parsed (hrs range hrange)
  have hnonempty := isEmpty_eq_false_iff.mpr (unionText_ne_nil hne)
  have hdisplay : (VersionReq.ranges rs).display = unionText rs := rfl
  rw [hdisplay, VersionReq.parse]
  simp only [htrim, hnonempty, hhead, hsplit, Bool.false_eq_true, if_false, if_true, ok_bind, hmap]
  obtain ⟨range, rs, rfl⟩ := exists_cons_of_ne_nil hne
  cases rs with
  | cons range' rs => rfl
  | nil =>
    -- the displayed range has a comma, so it is no pinned version
    have hcomma : range.display.elem ',' = true := by simp [VersionRange.display]
    simp only [map_cons, map_nil, hcomma]
    cases range.lower <;> rfl

theorem parse_display_pin [Lowercase] {v : Version} (hplain : v.Plain) (hparsed : v.Parsed)
    (hstar : VersionRange.starPart v.original = none) :
    VersionReq.parse (VersionReq.exact v).display = .ok (.exact v) := by
  have hopening : isOpening '[' = true := rfl
  have htrim := VersionRange.trim_bracketed hopening (show isClosing ']' = true from rfl) v.original
  have hsplit := splitUnionRanges_bracketed fun c hc => (hplain.2 c hc).2
  have hcomma : ('[' :: (v.original ++ [']'])).elem ',' = false := by
    have hmem : ',' ∉ v.original := fun hmem => (hplain.2 ',' hmem).1 rfl
    simpa using hmem
  have hself : v.cmp v = .eq := Version.cmpItems_self true v.items
  have hexact : VersionRange.isExact ⟨some v, some v, true, true⟩ = true := by
    simp [VersionRange.isExact, Version.eq, hself]
  have hmap : ['[' :: (v.original ++ [']'])].mapM VersionRange.parse =
      .ok [⟨some v, some v, true, true⟩] := by
    rw [mapM_cons, VersionRange.parse_display_exact hplain hparsed hstar]
    rfl
  unfold VersionReq.parse VersionReq.display
  simp only [htrim, isEmpty_cons, head?_cons, Option.any_some, hopening, hsplit,
    Bool.false_eq_true, if_false, if_true, ok_bind, hmap, hcomma, hexact, Bool.not_false,
    Bool.and_self]

theorem parse_display_soft [Lowercase] {v : Version} (hparsed : v.Parsed)
    (hne : v.original ≠ [])
    (hplain : ∀ c ∈ v.original, (isOpening c || isClosing c || c == ',') = false) :
    VersionReq.parse (VersionReq.soft v).display = .ok (.soft v) := by
  have hempty : v.original.isEmpty = false := by simpa using hne
  have hhead : v.original.head?.any isOpening = false := by
    obtain ⟨c, rest, htext⟩ := exists_cons_of_ne_nil hne
    have hc := hplain c (by simp [htext])
    simp only [Bool.or_eq_false_iff] at hc
    simpa [htext] using hc.1.1
  have hany : (v.original.any fun c => isOpening c || isClosing c || c == ',') = false := by
    rw [any_eq_false]
    intro c hc
    simp [hplain c hc]
  have hversion : Version.parse v.original = .ok v := hparsed
  unfold VersionReq.parse VersionReq.display
  simp only [hparsed.trim, hempty, hhead, hany, Bool.false_eq_true, if_false, hversion, ok_bind]

/-- A requirement parsed from a text is parsed again from the text it is displayed
as. -/
theorem parse_display [Lowercase] [AsciiLowercase] {s : Text} {req : VersionReq}
    (h : VersionReq.parse s = .ok req) : VersionReq.parse req.display = .ok req := by
  have hparsed := parse_parsed h
  cases req with
  | exact v => exact parse_display_pin hparsed.1 hparsed.2.1 hparsed.2.2
  | soft v => exact parse_display_soft hparsed.1 hparsed.2.1 hparsed.2.2
  | ranges rs => exact parse_display_ranges hparsed.1 hparsed.2

section Witness

local instance unionLowercase : Lowercase := asciiLowercase

local instance : AsciiLowercase := ⟨fun _ _ => rfl⟩

/-- A prefix, a half-open and an unbounded range. -/
theorem parse_display_union :
    VersionReq.parse "[1.*], (,2],[3, )" =
        .ok (.ranges [⟨some ⟨"1.min"⟩, some ⟨"1.max"⟩, true, true⟩,
          ⟨none, some ⟨"2"⟩, false, true⟩, ⟨some ⟨"3"⟩, none, true, false⟩]) ∧
      VersionReq.parse "[1.min,1.max],(,2],[3,)" =
        .ok (.ranges [⟨some ⟨"1.min"⟩, some ⟨"1.max"⟩, true, true⟩,
          ⟨none, some ⟨"2"⟩, false, true⟩, ⟨some ⟨"3"⟩, none, true, false⟩]) := by
  have h : VersionReq.parse "[1.*], (,2],[3, )" =
      .ok (.ranges [⟨some ⟨"1.min"⟩, some ⟨"1.max"⟩, true, true⟩,
        ⟨none, some ⟨"2"⟩, false, true⟩, ⟨some ⟨"3"⟩, none, true, false⟩]) := by
    decide +kernel
  exact ⟨h, parse_display h⟩

end Witness

end VersionReq

end Raeva
