import Raeva.Maven.RangeRoundTrip
import Raeva.Maven.Snapshot

/-!
# Prefix ranges

`[P.*]` stands for the bounds `P.min` and `P.max`, which go through the general
comparison of versions.  A version lies between them exactly when its leading
numbers are those of `P`, with zeros for the ones it does not have.
-/

namespace Raeva

open List

namespace Item

def zero : Item :=
  .number "0"

/-- The items of the tokens `min` and `max` at the end of a version. -/
def isBound : Item → Bool
  | min | max => true
  | _ => false

def ofDigits (digits : Text) : Item :=
  .number (if digits.all (· == '0') then "0" else digits.dropWhile (· == '0'))

theorem number_of_mem_map (numbers : List Text) :
    ∀ p ∈ numbers.map ofDigits, ∃ digits, p = .number digits :=
  forall_mem_map.mpr fun _ _ => ⟨_, rfl⟩

end Item

def leadingNumbers (n : ℕ) (items : List Item) : List Item :=
  (items.takeWhile Item.isNumber ++ List.replicate n Item.zero).take n

def leadingDigits : List Item → List Text
  | .number digits :: items => digits :: leadingDigits items
  | _ => []

def padDigits (n : ℕ) (digits : List Text) : List Text :=
  digits ++ List.replicate (n - digits.length) "0".toList

theorem leadingNumbers_cons {x : Item} (hx : x.isNumber = true) (n : ℕ) (items : List Item) :
    leadingNumbers (n + 1) (x :: items) = x :: leadingNumbers n items := by
  rw [leadingNumbers, takeWhile_cons_of_pos hx, cons_append, take_succ_cons,
    leadingNumbers, take_append, take_append, take_replicate, take_replicate]
  congr 3
  omega

theorem leadingNumbers_of_not {items : List Item} (h : ∀ x ∈ items.head?, x.isNumber = false)
    (n : ℕ) : leadingNumbers n items = List.replicate n Item.zero := by
  cases items with
  | nil => simp [leadingNumbers]
  | cons x items =>
    have hx := h x rfl
    simp [leadingNumbers, hx]

/-! ## Comparing with the bounds -/

namespace Version

variable {numbers items : List Item} {b x p : Item}

theorem comparePadding_bound (hnumbers : ∀ p ∈ numbers, ∃ digits, p = .number digits)
    (hb : b.isBound = true) {number : Option Bool} (hkind : number.all (true == ·) = true) :
    comparePadding (numbers ++ [b]) number =
      if numbers = List.replicate numbers.length Item.zero then b.cmpPadding else .gt := by
  induction numbers with
  | nil =>
    have hnumber : b.isNumber = true := by cases b <;> first | rfl | cases hb
    rw [nil_append, comparePadding_cons_of b [] (by rw [hnumber]; exact hkind),
      comparePadding_nil, Ordering.then_eq]
    rfl
  | cons p numbers ih =>
    obtain ⟨digits, rfl⟩ := hnumbers p mem_cons_self
    rw [cons_append, comparePadding_cons_of (.number digits) _ hkind,
      ih fun q hq => hnumbers q (mem_cons_of_mem _ hq), Item.cmpPadding]
    rw [length_cons, replicate_succ]
    simp only [Item.zero, List.cons.injEq, Item.number.injEq, ite_and]
    by_cases hzero : digits = "0"
    · rw [if_pos hzero, if_pos hzero, Ordering.eq_then]
      rfl
    · rw [if_neg hzero, if_neg hzero, Ordering.gt_then]

theorem cmpItems_ended (hnumbers : ∀ p ∈ numbers, ∃ digits, p = .number digits)
    (hb : b.isBound = true) (hitems : ∀ x ∈ items.head?, x.isNumber = false) :
    cmpItems true items (numbers ++ [b]) =
      (if numbers = List.replicate numbers.length Item.zero then b.cmpPadding else .gt).swap := by
  obtain ⟨y, ys, hys, hy⟩ : ∃ y ys, numbers ++ [b] = y :: ys ∧ y.isNumber = true := by
    cases numbers with
    | nil => exact ⟨b, [], rfl, by cases b <;> first | rfl | cases hb⟩
    | cons p numbers =>
      obtain ⟨digits, rfl⟩ := hnumbers p mem_cons_self
      exact ⟨.number digits, numbers ++ [b], rfl, rfl⟩
  cases items with
  | nil =>
    have hpad := comparePadding_bound hnumbers hb (show (none : Option Bool).all _ = true from rfl)
    rw [← hpad, hys]
    rfl
  | cons x items =>
    have hx := hitems x rfl
    have hpad := comparePadding_bound hnumbers hb
      (show (some true : Option Bool).all _ = true from rfl)
    rw [← hpad, hys, cmpItems, hx, hy, if_pos Bool.false_ne_true, if_neg Bool.false_ne_true]

theorem cmpItems_bound (hx : x.isNumber = true) (hlast : x.isBound = true → items = []) :
    cmpItems true (x :: items) [.min] ≠ .lt ∧ cmpItems true (x :: items) [.max] ≠ .gt := by
  cases x with
  | qualifier | text => cases hx
  | number digits =>
    have hmin : cmpItems true (.number digits :: items) [.min] = .gt := rfl
    have hmax : cmpItems true (.number digits :: items) [.max] = .lt := rfl
    rw [hmin, hmax]
    decide
  | min | max =>
    rw [hlast rfl]
    decide

theorem cmpItems_cons_same (hp : p.isNumber = true) (items those : List Item) :
    cmpItems true (p :: items) (p :: those) = cmpItems true items those := by
  have hself : p.cmp p = .eq := Std.ReflCmp.compare_self
  rw [cmpItems, if_neg (not_not.mpr rfl), hself, hp]

theorem cmpItems_cons_ne (hx : x.isNumber = true) (hp : p.isNumber = true) (hne : x ≠ p)
    (items those : List Item) :
    cmpItems true (x :: items) (p :: those) = x.cmp p ∧ x.cmp p ≠ .eq := by
  have hcmp : x.cmp p ≠ .eq := fun heq => hne (Item.eq_of_cmp_eq heq)
  refine ⟨?_, hcmp⟩
  rw [cmpItems, hx, hp, if_neg (not_not.mpr rfl)]
  cases hrel : x.cmp p with
  | eq => exact absurd hrel hcmp
  | lt | gt => rfl

/-- A version lies between the bounds of a prefix exactly when its leading numbers
are those of the prefix. -/
theorem cmpItems_bounds {numbers items : List Item}
    (hnumbers : ∀ p ∈ numbers, ∃ digits, p = .number digits)
    (hitems : items.Pairwise fun x _ => x.isBound = false) :
    (cmpItems true items (numbers ++ [.min]) ≠ .lt ∧
      cmpItems true items (numbers ++ [.max]) ≠ .gt) ↔
      leadingNumbers numbers.length items = numbers := by
  by_cases hhead : ∀ x ∈ items.head?, x.isNumber = false
  · rw [cmpItems_ended hnumbers rfl hhead, cmpItems_ended hnumbers rfl hhead,
      leadingNumbers_of_not hhead]
    by_cases hzero : numbers = List.replicate numbers.length Item.zero
    · rw [if_pos hzero, if_pos hzero]
      exact iff_of_true (by decide) hzero.symm
    · rw [if_neg hzero, if_neg hzero]
      exact iff_of_false (by decide) fun heq => hzero heq.symm
  · obtain ⟨x, rest, rfl, hx⟩ : ∃ x rest, items = x :: rest ∧ x.isNumber = true := by
      cases items with
      | nil => exact absurd (by simp) hhead
      | cons x rest => exact ⟨x, rest, rfl, by simpa using hhead⟩
    rw [pairwise_cons] at hitems
    cases numbers with
    | nil =>
      refine iff_of_true (cmpItems_bound hx fun hbound => ?_) (by simp [leadingNumbers])
      cases rest with
      | nil => rfl
      | cons y rest =>
        rw [hitems.1 y mem_cons_self] at hbound
        cases hbound
    | cons p numbers =>
      obtain ⟨digits, rfl⟩ := hnumbers p mem_cons_self
      rw [length_cons, leadingNumbers_cons hx, cons_append, cons_append, List.cons.injEq]
      by_cases heq : x = .number digits
      · subst heq
        rw [cmpItems_cons_same rfl, cmpItems_cons_same rfl,
          cmpItems_bounds (fun q hq => hnumbers q (mem_cons_of_mem _ hq)) hitems.2]
        exact (and_iff_right rfl).symm
      · obtain ⟨hlower, hcmp⟩ := cmpItems_cons_ne hx rfl heq rest (numbers ++ [.min])
        obtain ⟨hupper, -⟩ := cmpItems_cons_ne hx rfl heq rest (numbers ++ [.max])
        rw [hlower, hupper]
        refine iff_of_false (fun hbetween => hcmp ?_) fun hsame => heq hsame.1
        cases hrel : x.cmp (.number digits) with
        | lt => exact absurd hrel hbetween.1
        | eq => rfl
        | gt => exact absurd hrel hbetween.2

end Version

/-! ## The items of the bounds -/

def prefixText (numbers : List Text) : Text :=
  numbers.flatMap (· ++ ['.'])

variable {c : Char} {digits : Text}

theorem mem_prefixText {numbers : List Text}
    (hdigits : ∀ digits ∈ numbers, isAsciiDigits digits = true) (hc : c ∈ prefixText numbers) :
    c = '.' ∨ Text.isAsciiDigit c = true := by
  obtain ⟨digits, hmem, hc⟩ := mem_flatMap.mp hc
  rcases mem_append.mp hc with hc | hc
  · exact .inr (all_eq_true.mp (Bool.and_eq_true_iff.mp (hdigits digits hmem)).2 c hc)
  · exact .inl (mem_singleton.mp hc)

theorem ne_of_isAsciiDigit {d : Char} (hc : Text.isAsciiDigit c = true)
    (hd : Text.isAsciiDigit d = false) : c ≠ d := by
  rintro rfl
  rw [hc] at hd
  cases hd

theorem not_isSeparator_of_isAsciiDigit (h : Text.isAsciiDigit c = true) :
    isSeparator c = false := by
  have hdot : c ≠ '.' := ne_of_isAsciiDigit h rfl
  have hhyphen : c ≠ '-' := ne_of_isAsciiDigit h rfl
  have hscore : c ≠ '_' := ne_of_isAsciiDigit h rfl
  simp [isSeparator, hdot, hhyphen, hscore]

theorem scanToken_digit (h : Text.isAsciiDigit c = true) (token rest : Text) :
    scanToken .number token (c :: rest) = scanToken .number (token ++ [c]) rest ∧
      scanToken .zeros token (c :: rest) =
        scanToken (if c = '0' then .zeros else .number) [c] rest ∧
      scanToken .start token (c :: rest) =
        scanToken (if c = '0' then .zeros else .number) (token ++ [c]) rest := by
  simp [scanToken, not_isSeparator_of_isAsciiDigit h, h]

theorem scanToken_number (hdigits : ∀ c ∈ digits, Text.isAsciiDigit c = true) (token rest : Text) :
    scanToken .number token (digits ++ '.' :: rest) = (.number, token ++ digits, false, rest) := by
  induction digits generalizing token with
  | nil => simp [scanToken, isSeparator]
  | cons d digits ih =>
    rw [cons_append, (scanToken_digit (hdigits d mem_cons_self) _ _).1,
      ih fun c hc => hdigits c (mem_cons_of_mem d hc), append_assoc,
      singleton_append]

theorem scanToken_zeros (hdigits : ∀ c ∈ digits, Text.isAsciiDigit c = true) (rest : Text) :
    scanToken .zeros "0".toList (digits ++ '.' :: rest) =
      if digits.all (· == '0') then (.zeros, "0".toList, false, rest)
      else (.number, digits.dropWhile (· == '0'), false, rest) := by
  induction digits with
  | nil => simp [scanToken, isSeparator]
  | cons d digits ih =>
    have htail : ∀ c ∈ digits, Text.isAsciiDigit c = true := fun c hc =>
      hdigits c (mem_cons_of_mem d hc)
    rw [cons_append, (scanToken_digit (hdigits d mem_cons_self) _ _).2.1]
    by_cases hzero : d = '0'
    · subst hzero
      rw [if_pos rfl]
      refine (ih htail).trans ?_
      simp
    · rw [if_neg hzero, scanToken_number htail]
      simp [hzero]

theorem scanToken_digits (hdigits : isAsciiDigits digits = true) (rest : Text) :
    ∃ state token, scanToken .start [] (digits ++ '.' :: rest) = (state, token, false, rest) ∧
      ∀ [Lowercase] (last beforeDigit : Bool),
        tokenItem state token last beforeDigit = Item.ofDigits digits := by
  obtain ⟨hne, hall⟩ := Bool.and_eq_true_iff.mp hdigits
  rw [all_eq_true] at hall
  cases digits with
  | nil => cases hne
  | cons d digits =>
    have htail : ∀ c ∈ digits, Text.isAsciiDigit c = true := fun c hc =>
      hall c (mem_cons_of_mem d hc)
    rw [cons_append, (scanToken_digit (hall d mem_cons_self) _ _).2.2]
    by_cases hzero : d = '0'
    · subst hzero
      have hscan : scanToken (if '0' = '0' then .zeros else .number) ([] ++ ['0'])
          (digits ++ '.' :: rest) = _ := scanToken_zeros htail rest
      by_cases hzeros : digits.all (· == '0') = true
      · refine ⟨.zeros, "0".toList, by rw [hscan, if_pos hzeros], fun last beforeDigit => ?_⟩
        rw [Item.ofDigits, all_cons, hzeros]
        rfl
      · have hdrop : digits.dropWhile (· == '0') ≠ [] := fun hnil =>
          hzeros (all_eq_true.mpr (dropWhile_eq_nil_iff.mp hnil))
        refine ⟨.number, digits.dropWhile (· == '0'), by rw [hscan, if_neg hzeros],
          fun last beforeDigit => ?_⟩
        simp [tokenItem, Item.ofDigits, hzeros, hdrop]
    · refine ⟨.number, d :: digits, ?_, fun last beforeDigit => ?_⟩
      · rw [if_neg hzero, scanToken_number htail]
        rfl
      · simp [tokenItem, Item.ofDigits, hzero]

section Bounds

variable [Lowercase] {numbers : List Text}

theorem itemsFrom_prefixText (hdigits : ∀ digits ∈ numbers, isAsciiDigits digits = true)
    (word : Text) (fuel : ℕ) :
    itemsFrom (numbers.length + fuel) (prefixText numbers ++ word) =
      numbers.map Item.ofDigits ++ itemsFrom fuel word := by
  induction numbers with
  | nil => simp [prefixText]
  | cons digits numbers ih =>
    obtain ⟨state, token, hscan, hitem⟩ := scanToken_digits (hdigits digits mem_cons_self)
      (prefixText numbers ++ word)
    have htext : prefixText (digits :: numbers) ++ word =
        digits ++ '.' :: (prefixText numbers ++ word) := by
      simp [prefixText]
    have hfuel : (digits :: numbers).length + fuel = numbers.length + fuel + 1 := by
      rw [length_cons]
      omega
    have hne : (digits ++ '.' :: (prefixText numbers ++ word)).isEmpty = false := by simp
    rw [htext, hfuel, itemsFrom, hne, if_neg Bool.false_ne_true, hscan]
    simp only
    rw [hitem, ih fun other hother => hdigits other (mem_cons_of_mem digits hother),
      map_cons, cons_append]

omit [Lowercase] in
theorem trimAfter_bound {numbers : List Item}
    (hnumbers : ∀ p ∈ numbers, ∃ digits, p = .number digits) {b : Item} (hb : b.isBound = true)
    (before : Item) :
    trimAfter before (numbers ++ [b]) = ⟨numbers ++ [b], some true, false, false⟩ := by
  induction numbers generalizing before with
  | nil =>
    cases b with
    | min | max => simp [trimAfter, trimStep, TrimState.init, Item.isNumber, Item.cmpPadding]
    | qualifier | text | number => cases hb
  | cons p numbers ih =>
    obtain ⟨digits, rfl⟩ := hnumbers p mem_cons_self
    rw [cons_append, trimAfter, ih fun q hq => hnumbers q (mem_cons_of_mem _ hq)]
    rfl

omit [Lowercase] in
theorem length_le_prefixText (numbers : List Text) :
    numbers.length ≤ (prefixText numbers).length := by
  induction numbers with
  | nil => exact Nat.zero_le _
  | cons digits numbers ih =>
    have hcons : (prefixText (digits :: numbers)).length =
        digits.length + 1 + (prefixText numbers).length := by
      rw [prefixText, flatMap_cons, length_append, length_append]
      rfl
    rw [hcons, length_cons]
    omega

theorem parseItems_prefixText (hne : numbers ≠ [])
    (hdigits : ∀ digits ∈ numbers, isAsciiDigits digits = true) {word : Text} {b : Item}
    (hb : b.isBound = true) (hword : ∀ fuel, itemsFrom (fuel + 1) word = [b])
    (hlength : word.length = 3) :
    parseItems (prefixText numbers ++ word) = numbers.map Item.ofDigits ++ [b] := by
  obtain ⟨fuel, hfuel⟩ : ∃ fuel,
      (prefixText numbers ++ word).length = numbers.length + (fuel + 1) := by
    have hle := length_le_prefixText numbers
    refine ⟨(prefixText numbers).length - numbers.length + 2, ?_⟩
    rw [length_append, hlength]
    omega
  obtain ⟨first, rest, rfl⟩ := exists_cons_of_ne_nil hne
  rw [parseItems, hfuel, itemsFrom_prefixText hdigits, hword, map_cons, cons_append,
    trimPadding, trimAfter_bound (Item.number_of_mem_map rest) hb]

theorem textItem_not_isBound (token : Text) (beforeDigit : Bool) :
    (textItem token false beforeDigit).isBound = false := by
  simp only [textItem, Bool.and_false, Bool.false_eq_true, if_false]
  split_ifs <;> rfl

theorem tokenItem_not_isBound (state : ScanState) (token : Text) (beforeDigit : Bool) :
    (tokenItem state token false beforeDigit).isBound = false := by
  rw [tokenItem.eq_def]
  split
  · rfl
  · cases state with
    | zeros | number => rfl
    | start | text => exact textItem_not_isBound token beforeDigit

theorem itemsFrom_pairwise (fuel : ℕ) (input : Text) :
    (itemsFrom fuel input).Pairwise fun x _ => x.isBound = false := by
  induction fuel generalizing input with
  | zero => exact .nil
  | succ fuel ih =>
    rw [itemsFrom]
    split
    · exact .nil
    obtain ⟨state, token, beforeDigit, rest⟩ := scanToken .start [] input
    refine .cons (fun y hy => ?_) (ih _)
    cases rest with
    | nil => cases fuel <;> cases hy
    | cons c rest => exact tokenItem_not_isBound state token beforeDigit

theorem Version.items_pairwise (v : Version) : v.items.Pairwise fun x _ => x.isBound = false := by
  rcases v.items_cases with hnil | ⟨first, rest, hfrom, hitems⟩
  · rw [hnil]
    exact .nil
  have hall := itemsFrom_pairwise v.original.length v.original
  rw [hfrom] at hall
  rw [hitems]
  exact hall.sublist ((trimAfter_sublist first rest).cons_cons first)

theorem Version.items_prefixText [AsciiLowercase] (hne : numbers ≠ [])
    (hdigits : ∀ digits ∈ numbers, isAsciiDigits digits = true)
    (hshort : Text.byteLen (prefixText numbers ++ "min") ≤ maxComponentBytes) :
    (Version.mk (prefixText numbers ++ "min")).items = numbers.map Item.ofDigits ++ [.min] ∧
      (Version.mk (prefixText numbers ++ "max")).items =
        numbers.map Item.ofDigits ++ [.max] := by
  rw [Version.items, Version.items, byteLen_bound, if_neg (not_lt.mpr hshort),
    if_neg (not_lt.mpr hshort)]
  exact ⟨parseItems_prefixText hne hdigits rfl (fun fuel => (itemsFrom_bound fuel).1) rfl,
    parseItems_prefixText hne hdigits rfl (fun fuel => (itemsFrom_bound fuel).2) rfl⟩

end Bounds

/-! ## The requirement -/

def prefixRange (numbers : List Text) : Text :=
  '[' :: (prefixText numbers ++ "*]")

def prefixBounds (numbers : List Text) : VersionRange :=
  ⟨some ⟨prefixText numbers ++ "min"⟩, some ⟨prefixText numbers ++ "max"⟩, true, true⟩

def isPrefixChar (c : Char) : Bool :=
  (41 < c.toNat && c.toNat < 58 && c.toNat != 44) || (96 < c.toNat && c.toNat < 123)

theorem isPrefixChar_cases {c : Char} (h : isPrefixChar c = true) :
    Text.isWhitespace c = false ∧ c ≠ ',' ∧ c ≠ '$' ∧ isClosing c = false := by
  simp only [isPrefixChar, Bool.or_eq_true, Bool.and_eq_true, decide_eq_true_eq, bne_iff_ne] at h
  have hne : ∀ {d : Char}, c.toNat ≠ d.toNat → c ≠ d := fun hne heq => hne (congrArg Char.toNat heq)
  have hcomma : (',').toNat = 44 := rfl
  have hdollar : ('$').toNat = 36 := rfl
  have hround : (')').toNat = 41 := rfl
  have hsquare : (']').toNat = 93 := rfl
  refine ⟨Text.isWhitespace_eq_false (by omega) (by omega), hne (by omega), hne (by omega), ?_⟩
  rw [isClosing, Bool.or_eq_false_iff, beq_eq_false_iff_ne, beq_eq_false_iff_ne]
  exact ⟨hne (by omega), hne (by omega)⟩

theorem isPrefixChar_of_isAsciiDigit {c : Char} (h : Text.isAsciiDigit c = true) :
    isPrefixChar c = true := by
  obtain ⟨hlow, hhigh⟩ : '0' ≤ c ∧ c ≤ '9' := by simpa [Text.isAsciiDigit] using h
  have hzero : ('0').toNat = 48 := rfl
  have hnine : ('9').toNat = 57 := rfl
  have hlow' : ('0').toNat ≤ c.toNat := hlow
  have hhigh' : c.toNat ≤ ('9').toNat := hhigh
  simp only [isPrefixChar, Bool.or_eq_true, Bool.and_eq_true, decide_eq_true_eq, bne_iff_ne]
  omega

theorem not_contains_of_notMem {t : Text} {c : Char} {pat : Text} (h : c ∉ t) :
    Text.contains t (c :: pat) = false := by
  rw [Text.contains, Text.find, Option.isSome_eq_false_iff, Option.isNone_iff_eq_none,
    find?_eq_none]
  intro i _ hfound
  obtain ⟨rest, hrest⟩ := isPrefixOf_iff_prefix.mp hfound
  refine h (mem_of_mem_drop (i := i) ?_)
  rw [← hrest]
  exact mem_cons_self

section Requirement

variable {t : Text} (ht : ∀ c ∈ t, isPrefixChar c = true)

include ht in
theorem trim_of_isPrefixChar : Text.trim t = t :=
  Text.trim_eq_self (fun c hc => (isPrefixChar_cases (ht c (mem_of_mem_head? hc))).1)
    fun c hc => (isPrefixChar_cases (ht c (mem_of_getLast? hc))).1

include ht in
theorem bound_of_isPrefixChar (hne : t ≠ []) (range : Text) :
    VersionRange.bound range t =
      if maxComponentBytes < Text.byteLen t then .error (.invalidRange range)
      else .ok (some ⟨t⟩) := by
  have hproperty : Text.contains t "$\x7b" = false :=
    not_contains_of_notMem fun hmem => (isPrefixChar_cases (ht _ hmem)).2.2.1 rfl
  have hempty : t.isEmpty = false := isEmpty_eq_false_iff.mpr hne
  simp only [VersionRange.bound, Version.parse, trim_of_isPrefixChar ht, hempty, hproperty,
    Bool.false_or, Bool.false_eq_true, if_false]
  by_cases hlong : maxComponentBytes < Text.byteLen t
  · simp [hlong]
  · simp [hlong]

end Requirement

section Parse

variable {numbers : List Text} (hdigits : ∀ digits ∈ numbers, isAsciiDigits digits = true)

include hdigits in
theorem isPrefixChar_prefixText {word : Text} (hword : ∀ c ∈ word, isPrefixChar c = true) :
    ∀ c ∈ prefixText numbers ++ word, isPrefixChar c = true := by
  intro c hc
  rcases mem_append.mp hc with hc | hc
  · rcases mem_prefixText hdigits hc with rfl | hdigit
    · rfl
    · exact isPrefixChar_of_isAsciiDigit hdigit
  · exact hword c hc

theorem isPrefixChar_words :
    (∀ c ∈ "min".toList, isPrefixChar c = true) ∧ (∀ c ∈ "max".toList, isPrefixChar c = true) ∧
      ∀ c ∈ "*".toList, isPrefixChar c = true := by
  simp [isPrefixChar]

theorem prefixRange_eq (numbers : List Text) :
    prefixRange numbers = '[' :: (prefixText numbers ++ "*" ++ [']']) := by
  simp [prefixRange]

include hdigits in
theorem splitUnionRanges_prefixRange (input : Text) (fuel : ℕ) :
    splitUnionRanges input (fuel + 1) (prefixRange numbers) = .ok [prefixRange numbers] := by
  rw [prefixRange_eq]
  exact VersionReq.splitUnionRanges_bracketed (fun c hc => (isPrefixChar_cases
    (isPrefixChar_prefixText hdigits isPrefixChar_words.2.2 c hc)).2.2.2) input fuel

theorem starPart_prefixText (hne : numbers ≠ []) :
    VersionRange.starPart (prefixText numbers ++ "*") = some (prefixText numbers) := by
  obtain ⟨before, last, rfl⟩ := eq_nil_or_concat numbers |>.resolve_left hne
  have hends : Text.endsWith (prefixText (before.concat last) ++ "*") ".*" = true := by
    refine isSuffixOf_iff_suffix.mpr ⟨prefixText before ++ last, ?_⟩
    simp [prefixText]
  have hlast : (prefixText (before.concat last) ++ "*").dropLast =
      prefixText (before.concat last) := dropLast_concat
  rw [VersionRange.starPart, if_pos hends, hlast]

include hdigits in
theorem parse_prefixRange [Lowercase] (hne : numbers ≠ []) :
    VersionRange.parse (prefixRange numbers) =
      if maxComponentBytes < Text.byteLen (prefixText numbers ++ "min") then
        .error (.invalidRange (prefixRange numbers))
      else .ok (prefixBounds numbers) := by
  obtain ⟨hmin, hmax, hstar⟩ := isPrefixChar_words
  have hcomma : ',' ∉ prefixText numbers ++ "*" := fun hmem =>
    (isPrefixChar_cases (isPrefixChar_prefixText hdigits hstar _ hmem)).2.1 rfl
  have hsplit : Text.split (prefixText numbers ++ "*") ',' =
      [prefixText numbers ++ "*"] := by
    rw [Text.split, splitOn_eq_singleton hcomma]
  have htrim := trim_of_isPrefixChar (isPrefixChar_prefixText hdigits hstar)
  have hwords : ∀ {word : Text}, word ≠ [] → prefixText numbers ++ word ≠ [] := fun hword hnil =>
    hword (append_eq_nil_iff.mp hnil).2
  have hopening : isOpening '[' = true := rfl
  have hclosing : isClosing ']' = true := rfl
  have hstarts : Text.startsWith ('[' :: (prefixText numbers ++ "*" ++ [']'])) "[" =
      true := VersionRange.startsWith_opening true _
  have hends : Text.endsWith ('[' :: (prefixText numbers ++ "*" ++ [']'])) "]" = true :=
    VersionRange.endsWith_closing true (_ :: _)
  simp only [VersionRange.parse, prefixRange_eq, VersionRange.trim_bracketed hopening hclosing,
    VersionRange.inner_bracketed hopening hclosing, hsplit, hstarts, hends, htrim,
    starPart_prefixText hne, Bool.and_self, if_true,
    bound_of_isPrefixChar (isPrefixChar_prefixText hdigits hmin) (hwords (by decide)),
    bound_of_isPrefixChar (isPrefixChar_prefixText hdigits hmax) (hwords (by decide)),
    byteLen_bound]
  split <;> rfl

end Parse

namespace VersionReq

section Holds

variable [Lowercase]

theorem closed_holds (l u v : Version) :
    VersionRange.holds ⟨some l, some u, true, true⟩ v = true ↔ v.cmp l ≠ .lt ∧ v.cmp u ≠ .gt := by
  rw [VersionRange.holds, Bool.and_eq_true]
  refine and_congr ?_ ?_
  · simp only [VersionRange.isAbove]
    cases v.cmp l <;> simp
  · simp only [VersionRange.isBelow]
    cases v.cmp u <;> simp

theorem parse_prefixRange [AsciiLowercase] {numbers : List Text} (hne : numbers ≠ [])
    (hdigits : ∀ digits ∈ numbers, isAsciiDigits digits = true) :
    VersionReq.parse (prefixRange numbers) =
      if maxComponentBytes < Text.byteLen (prefixText numbers ++ "min") then
        .error (.invalidRange (prefixRange numbers))
      else .ok (.ranges [prefixBounds numbers]) := by
  have htrim : Text.trim (prefixRange numbers) = prefixRange numbers := by
    rw [prefixRange_eq]
    exact VersionRange.trim_bracketed rfl rfl _
  have hempty : (prefixRange numbers).isEmpty = false := rfl
  have hhead : (prefixRange numbers).head?.any isOpening = true := rfl
  simp only [VersionReq.parse, htrim, hempty, hhead, Bool.false_eq_true, if_false, if_true,
    splitUnionRanges_prefixRange hdigits, ok_bind, mapM_cons, mapM_nil,
    Raeva.parse_prefixRange hdigits hne]
  by_cases hlong : maxComponentBytes < Text.byteLen (prefixText numbers ++ "min")
  · simp only [if_pos hlong]
    rfl
  have hdot : (prefixText numbers).getLast? = some '.' :=
    (VersionRange.starPart_eq (starPart_prefixText hne)).2
  have hlt := Version.cmp_min_max hdot (not_lt.mp hlong)
  have hopen : (prefixBounds numbers).isExact = false := by
    simp only [prefixBounds, VersionRange.isExact, Version.eq, hlt]
    rfl
  simp only [if_neg hlong, ok_bind, pure, Except.pure, hopen, Bool.and_false, Bool.false_eq_true,
    if_false]
  rfl

theorem parse_union [AsciiLowercase] {s : Text} {req : VersionReq}
    (h : VersionReq.parse s = .ok req) (hopen : (Text.trim s).head?.any isOpening = true) :
    ∃ texts parsed, splitUnionRanges (Text.trim s) ((Text.trim s).length + 1) (Text.trim s) =
        .ok texts ∧ texts.mapM VersionRange.parse = .ok parsed ∧
      ∀ v, req.holds v = true ↔ ∃ range ∈ parsed, range.holds v = true := by
  rcases parse_eq_ok h with ⟨texts, parsed, htexts, hparsed, hreq⟩ | ⟨hsoft, -⟩
  · refine ⟨texts, parsed, htexts, hparsed, fun v => ?_⟩
    rcases hreq with rfl | ⟨text, only, lower, rfl, rfl, hlower, hcomma, hexact, rfl⟩
    · exact any_eq_true
    obtain ⟨text', htext, hparse⟩ := mem_of_mapM_eq_ok hparsed only mem_cons_self
    obtain rfl := mem_singleton.mp htext
    obtain ⟨w, rfl, -⟩ := VersionRange.parse_exact hcomma hparse hexact
    cases hlower
    simp only [mem_singleton, exists_eq_left, closed_holds, holds, Version.eq]
    cases v.cmp lower <;> simp
  · rw [hopen] at hsoft
    cases hsoft

/-- `[P.*]` holds exactly for the versions whose leading numbers are those of `P`,
with zeros for the ones they do not have; and a union holds where one of its ranges
does. -/
theorem holds_prefixRange [AsciiLowercase] :
    (∀ numbers : List Text, numbers ≠ [] → (∀ digits ∈ numbers, isAsciiDigits digits = true) →
      (Text.byteLen (prefixText numbers ++ "min") ≤ maxComponentBytes →
        ∃ req, VersionReq.parse (prefixRange numbers) = .ok req) ∧
      ∀ req, VersionReq.parse (prefixRange numbers) = .ok req → ∀ v : Version, (req.holds v = true ↔
          leadingNumbers numbers.length v.items = numbers.map Item.ofDigits)) ∧
    ∀ (s : Text) (req : VersionReq), VersionReq.parse s = .ok req →
      (Text.trim s).head?.any isOpening = true →
      ∃ texts parsed, splitUnionRanges (Text.trim s) ((Text.trim s).length + 1) (Text.trim s) =
          .ok texts ∧ texts.mapM VersionRange.parse = .ok parsed ∧
        ∀ v, req.holds v = true ↔ ∃ range ∈ parsed, range.holds v = true := by
  refine ⟨fun numbers hne hdigits => ⟨fun hshort => ?_, fun req hreq v => ?_⟩,
    fun s req => parse_union⟩
  · exact ⟨_, by rw [parse_prefixRange hne hdigits, if_neg (not_lt.mpr hshort)]⟩
  · rw [parse_prefixRange hne hdigits] at hreq
    split at hreq
    · cases hreq
    · rename_i hshort
      cases hreq
      have hbounds := Version.items_prefixText hne hdigits (not_lt.mp hshort)
      have hitems := Version.cmpItems_bounds (Item.number_of_mem_map numbers) v.items_pairwise
      rw [length_map] at hitems
      rw [← hitems, ← hbounds.1, ← hbounds.2]
      simp only [holds, any_cons, any_nil, Bool.or_false, prefixBounds, closed_holds]
      rfl

end Holds

section Sample

local instance prefixLowercase : Lowercase := asciiLowercase

local instance prefixAsciiLowercase : AsciiLowercase := ⟨fun _ _ => rfl⟩

/-- A shorter version that is filled up with zeros, in a range and in a union. -/
theorem holds_prefixRange_sample :
    (∃ req, VersionReq.parse "[1.0.*]".toList = .ok req ∧
      req.holds ⟨"1-alpha".toList⟩ = true) ∧
    ∃ req parsed, VersionReq.parse "[3,4),[1.0.*]".toList = .ok req ∧
      ["[3,4)".toList, "[1.0.*]".toList].mapM VersionRange.parse = .ok parsed ∧
      ∃ range ∈ parsed, range.holds ⟨"1-alpha".toList⟩ = true := by
  constructor
  · have hdigits : ∀ digits ∈ ["1".toList, "0".toList], isAsciiDigits digits = true := by
      decide +kernel
    obtain ⟨hsome, hholds⟩ := holds_prefixRange.1 _ (cons_ne_nil _ _) hdigits
    obtain ⟨req, hreq⟩ := hsome (by decide +kernel)
    exact ⟨req, hreq, (hholds req hreq _).mpr (by decide +kernel)⟩
  · have hmatch : (VersionReq.parse "[3,4),[1.0.*]".toList).toOption.any
        (·.holds ⟨"1-alpha".toList⟩) = true := by decide +kernel
    obtain ⟨req, hreq, hholds⟩ := (Option.any_eq_true _ _).mp hmatch
    have hparse := eq_ok_of_toOption hreq
    obtain ⟨texts, parsed, htexts, hparsed, hunion⟩ := holds_prefixRange.2 _ req hparse (by decide)
    have hsplit : splitUnionRanges "[3,4),[1.0.*]".toList 14 "[3,4),[1.0.*]".toList =
        .ok ["[3,4)".toList, "[1.0.*]".toList] := by decide +kernel
    cases hsplit.symm.trans htexts
    exact ⟨req, parsed, hparse, hparsed, (hunion _).mp hholds⟩

/-- Padding alone does not say what a prefix holds for: it does not cut the longer
run of `1.2.3`, which lies in `[1.2.*]`, and it gives `1.min`, which does not lie in
`[1.0.*]`, the numbers of that prefix. -/
theorem holds_prefixRange_unpadded :
    ((VersionReq.parse "[1.2.*]".toList).toOption.map (·.holds ⟨"1.2.3".toList⟩) = some true ∧
      padDigits 2 (leadingDigits (Version.mk "1.2.3".toList).items) ≠ ["1".toList, "2".toList]) ∧
    (VersionReq.parse "[1.0.*]".toList).toOption.map (·.holds ⟨"1.min".toList⟩) = some false ∧
      padDigits 2 (leadingDigits (Version.mk "1.min".toList).items) = ["1".toList, "0".toList] := by
  decide +kernel

end Sample

end VersionReq

end Raeva
