import Raeva.Library.RunOrder
import Raeva.Maven.Version

/-!
# Where the order of versions is one

`Version::cmp` compares the items of two versions run by run, the shorter run
padded, as long as both versions start with a number.  This is a total
preorder, `Version.runOrder`.  For a version that starts with a text the first
run to be padded is one of numbers that the version does not have, and
`compare_padding` looks past the next run, which is where transitivity ends.
-/

namespace Raeva

open List

namespace Item

def pad (number : Bool) : Item :=
  if number then .number "0" else .qualifier 0

def content : Item → ℤ × ℕ × Text
  | min | max => (0, 0, [])
  | qualifier value => (value, 0, [])
  | text token => (0, 0, token)
  | number digits => (0, digits.length, digits)

theorem cmp_eq (a b : Item) : a.cmp b = (compare a.variant b.variant).then
    ((compare a.content.1 b.content.1).then ((compare a.content.2.1 b.content.2.1).then
      (compare a.content.2.2 b.content.2.2))) := by
  cases a <;> cases b <;>
    simp [cmp, variant, content, cmpNumber, Nat.compare_eq_lt.mpr, Nat.compare_eq_gt.mpr]

instance : Std.TransCmp cmp := by
  have hcmp : cmp = compareLex (compareOn variant) (compareLex (compareOn (·.content.1))
      (compareLex (compareOn (·.content.2.1)) (compareOn (·.content.2.2)))) := by
    funext a b
    exact cmp_eq a b
  rw [hcmp]
  infer_instance

/-- A number is written without leading zeros. -/
def Proper : Item → Prop
  | number digits => digits = "0" ∨ ∃ c rest, digits = c :: rest ∧ '0' < c
  | _ => True

theorem cmp_pad {x : Item} (h : x.Proper) : x.cmp (pad x.isNumber) = x.cmpPadding := by
  cases x with
  | min | max | text => rfl
  | qualifier value => rfl
  | number digits =>
    change cmpNumber digits "0" = if digits = "0" then .eq else .gt
    rcases h with rfl | ⟨c, rest, rfl, hc⟩
    · rfl
    have hgt : compare c '0' = .gt :=
      Std.OrientedCmp.gt_of_lt (by simp [compare, compareOfLessAndEq, hc])
    have hne : c :: rest ≠ "0" := by
      rintro heq
      rw [(List.cons.inj heq).1] at hgt
      exact absurd hgt (by decide)
    rw [if_neg hne, cmpNumber]
    cases rest with
    | nil => simp [hgt]
    | cons d rest => simp [Nat.compare_eq_gt.mpr]

end Item

/-! ## What parsing makes of a text -/

def ScanState.Read : ScanState → Text → Prop
  | .start, token => token = []
  | .text, _ => True
  | .zeros, token => token = "0"
  | .number, token => ∃ c rest, token = c :: rest ∧ '0' < c

theorem ScanState.read_digit {ch : Char} (h : Text.isAsciiDigit ch = true) :
    ScanState.Read (if ch = '0' then .zeros else .number) [ch] := by
  split
  · rename_i heq
    rw [heq]
    rfl
  · rename_i hne
    obtain ⟨hle, -⟩ : '0' ≤ ch ∧ ch ≤ '9' := by simpa [Text.isAsciiDigit] using h
    exact ⟨ch, [], rfl, by grind⟩

theorem scanToken_read {state : ScanState} {token : Text} (input : Text) (h : state.Read token) :
    (scanToken state token input).1.Read (scanToken state token input).2.1 := by
  induction input generalizing state token with
  | nil => exact h
  | cons ch rest ih =>
    rw [scanToken.eq_def]
    simp only
    split
    · exact h
    split
    · rename_i hdigit
      cases state with
      | start =>
        have hread := ScanState.read_digit hdigit
        rw [show token = [] from h]
        exact ih hread
      | text => exact h
      | zeros => exact ih (ScanState.read_digit hdigit)
      | number =>
        obtain ⟨c, token, rfl, hc⟩ := h
        exact ih ⟨c, token ++ [ch], rfl, hc⟩
    · cases state with
      | start | text => exact ih trivial
      | zeros | number => exact h

theorem Item.proper_ite {p : Prop} [Decidable p] {x y : Item} (hx : x.Proper) (hy : y.Proper) :
    (if p then x else y).Proper := by
  split <;> assumption

section Parse

variable [Lowercase]

theorem textItem_proper (token : Text) (last beforeDigit : Bool) :
    (textItem token last beforeDigit).Proper := by
  rw [textItem]
  repeat' refine Item.proper_ite ?_ ?_
  all_goals trivial

theorem tokenItem_proper {state : ScanState} {token : Text} (h : state.Read token)
    (last beforeDigit : Bool) : (tokenItem state token last beforeDigit).Proper := by
  rw [tokenItem.eq_def]
  by_cases hempty : token.isEmpty = true
  · rw [if_pos hempty]
    exact .inl rfl
  rw [if_neg hempty]
  cases state with
  | start | text => exact textItem_proper token last beforeDigit
  | zeros => exact .inl h
  | number => exact .inr h

theorem itemsFrom_proper (fuel : ℕ) (input : Text) : ∀ x ∈ itemsFrom fuel input, x.Proper := by
  induction fuel generalizing input with
  | zero => simp [itemsFrom]
  | succ fuel ih =>
    rw [itemsFrom]
    split
    · simp
    intro x hx
    rcases mem_cons.mp hx with rfl | hx
    · have hstart : ScanState.Read .start [] := rfl
      exact tokenItem_proper (scanToken_read input hstart) _ _
    · exact ih _ x hx

end Parse

/-- After an item of kind `number`, each item but the first of its run is not
padding or goes on with the run: padding at the end of a run has been dropped. -/
def Trimmed : Bool → List Item → Prop
  | _, [] => True
  | number, x :: l => Trimmed x.isNumber l ∧
      (x.isNumber = number → x.cmpPadding ≠ .eq ∨ continuesRun Item.isNumber number l = true)

def EndsProper (l : List Item) : Prop :=
  ∀ x, l.getLast? = some x → x.cmpPadding ≠ .eq

theorem EndsProper.tail {l : List Item} {x : Item} (h : EndsProper (x :: l)) : EndsProper l := by
  intro y hy
  refine h y ?_
  cases l with
  | nil => simp at hy
  | cons z l => simpa using hy

/-- What the backward pass knows: an item kept last stands first, nothing was
kept exactly if everything was dropped, and no padding is last. -/
structure TrimState.Ok (state : TrimState) : Prop where
  head : state.atEnd = false → ∃ number, state.run = some number ∧
    continuesRun Item.isNumber number state.kept = true
  dropped : state.tailDropped = true → state.kept = []
  nil : state.kept = [] → state.atEnd = true ∧ state.tailDropped = true
  ends : EndsProper state.kept

/-- The two outcomes of a step: padding is dropped at the end of a run, except
for the first item of a run that something follows. -/
theorem trimStep_cases (before item : Item) (state : TrimState) :
    (trimStep before item state = ⟨state.kept, some item.isNumber, true, state.tailDropped⟩ ∧
      (state.tailDropped = true ∨ before.isNumber = item.isNumber)) ∨
    (trimStep before item state = ⟨item :: state.kept, some item.isNumber, false, false⟩ ∧
      (state.run = some item.isNumber ∧ state.atEnd = false ∨
        (state.tailDropped = true ∨ before.isNumber = item.isNumber → item.cmpPadding ≠ .eq))) := by
  simp only [trimStep]
  generalize hend : (if state.run = some item.isNumber then state.atEnd else true) = atEnd
  split
  · rename_i hdrop
    simp only [Bool.and_eq_true, Bool.or_eq_true, beq_iff_eq] at hdrop
    exact .inl ⟨rfl, hdrop.1.2⟩
  · rename_i hkeep
    refine .inr ⟨rfl, or_iff_not_imp_right.mpr fun hpad => ?_⟩
    rw [Classical.not_imp, not_not] at hpad
    have hfalse : atEnd = false := by simpa [hpad] using hkeep
    rw [hfalse] at hend
    split at hend
    · exact ⟨‹_›, hend⟩
    · exact absurd hend (by simp)

theorem trimAfter_ok (before : Item) (l : List Item) : (trimAfter before l).Ok := by
  induction l generalizing before with
  | nil => exact ⟨by simp [trimAfter, TrimState.init], fun _ => rfl, fun _ => ⟨rfl, rfl⟩,
      fun _ h => by cases h⟩
  | cons item rest ih =>
    rw [trimAfter]
    have hok := ih item
    rcases trimStep_cases before item (trimAfter item rest) with ⟨heq, -⟩ | ⟨heq, hwhy⟩ <;> rw [heq]
    · exact ⟨by simp, hok.dropped, fun h => ⟨rfl, (hok.nil h).2⟩, hok.ends⟩
    refine ⟨fun _ => ⟨item.isNumber, rfl, by simp [continuesRun]⟩, by simp, by simp, fun x hx => ?_⟩
    cases hkept : (trimAfter item rest).kept with
    | nil =>
      obtain ⟨hend, htail⟩ := hok.nil hkept
      obtain rfl : item = x := by simpa [hkept] using hx
      rcases hwhy with ⟨-, hfalse⟩ | hpad
      · cases hend.symm.trans hfalse
      · exact hpad (.inl htail)
    | cons y kept => exact hok.ends x (by simpa [hkept] using hx)

theorem trimAfter_trimmed (before : Item) (l : List Item) :
    Trimmed before.isNumber (trimAfter before l).kept := by
  induction l generalizing before with
  | nil => trivial
  | cons item rest ih =>
    have hok := trimAfter_ok item rest
    rw [trimAfter]
    rcases trimStep_cases before item (trimAfter item rest) with ⟨heq, hwhy⟩ | ⟨heq, hwhy⟩ <;>
      rw [heq]
    · rcases hwhy with htail | hkind
      · simp [hok.dropped htail, Trimmed]
      · rw [hkind]
        exact ih item
    · refine ⟨ih item, fun hkind => or_iff_not_imp_left.mpr fun hpad => ?_⟩
      -- Padding is kept only where the run goes on behind it.
      obtain ⟨hrun, hend⟩ := hwhy.resolve_right fun h => hpad (h (.inr hkind.symm))
      obtain ⟨number, hnumber, hcont⟩ := hok.head hend
      rw [← hkind, Option.some.inj (hrun.symm.trans hnumber)]
      exact hcont

theorem trimAfter_sublist (before : Item) (l : List Item) :
    (trimAfter before l).kept.Sublist l := by
  induction l generalizing before with
  | nil => exact .slnil
  | cons item rest ih =>
    rw [trimAfter]
    rcases trimStep_cases before item (trimAfter item rest) with ⟨heq, -⟩ | ⟨heq, -⟩ <;> rw [heq]
    · exact (ih item).cons item
    · exact (ih item).cons_cons item

/-! ## The comparison -/

namespace Version

def cmpRuns : Bool → List Item → List Item → Ordering :=
  runCmp Item.isNumber Item.pad Item.cmp

instance (number : Bool) : Std.TransCmp (cmpRuns number) :=
  inferInstanceAs (Std.TransCmp (runCmp Item.isNumber Item.pad Item.cmp number))

variable {l l' : List Item} {v : Version} {number : Bool} {a b : Version}

@[simp] theorem comparePadding_nil (number : Option Bool) : comparePadding [] number = .eq := rfl

theorem comparePadding_cons_of (x : Item) (l : List Item) {number : Option Bool}
    (h : number.all (x.isNumber == ·) = true) :
    comparePadding (x :: l) number = x.cmpPadding.then (comparePadding l number) := by
  simp only [comparePadding, filter_cons, h, if_true, map_cons, find?_cons]
  cases hpad : x.cmpPadding <;> rfl

theorem cmpRuns_cons_step {x : Item} (hx : x.Proper) (hkind : x.isNumber = number)
    (h' : continuesRun Item.isNumber number l' = false) :
    cmpRuns number (x :: l) l' = x.cmpPadding.then (cmpRuns number l l') := by
  rw [cmpRuns, runCmp_cons hkind h', ← Item.cmp_pad hx, hkind]

theorem cmpRuns_of_ended (hl : ∀ x ∈ l, x.Proper) (htrim : Trimmed number l)
    (h : continuesRun Item.isNumber number l = true)
    (h' : continuesRun Item.isNumber number l' = false) :
    cmpRuns number l l' = comparePadding l (some number) := by
  induction l with
  | nil => simp [continuesRun] at h
  | cons x l ih =>
    have hkind : x.isNumber = number := by simpa [continuesRun] using h
    rw [cmpRuns_cons_step (hl x mem_cons_self) hkind h',
      comparePadding_cons_of x l (by simp [hkind])]
    cases hpad : x.cmpPadding with
    | lt | gt => rfl
    | eq =>
      have hcont := (htrim.2 hkind).resolve_left (not_not.mpr hpad)
      have htail : Trimmed number l := hkind ▸ htrim.1
      rw [ih (fun y hy => hl y (mem_cons_of_mem x hy)) htail hcont]

theorem cmpRuns_nil_right (hl : ∀ x ∈ l, x.Proper) :
    cmpRuns number l [] = comparePadding l none := by
  induction l generalizing number with
  | nil => simp [cmpRuns]
  | cons x l ih =>
    have htail : cmpRuns x.isNumber l [] = comparePadding l none :=
      ih fun y hy => hl y (mem_cons_of_mem x hy)
    have hstep : cmpRuns x.isNumber (x :: l) [] = comparePadding (x :: l) none := by
      rw [cmpRuns_cons_step (hl x mem_cons_self) rfl rfl, htail, comparePadding_cons_of x l rfl]
    by_cases hkind : x.isNumber = number
    · rw [← hkind, hstep]
    · have hflip : x.isNumber = !number := by simpa [Bool.eq_not] using hkind
      rw [← hstep, hflip]
      exact runCmp_flip (by simpa [continuesRun] using hkind) rfl

theorem cmpRuns_swap (number : Bool) (l l' : List Item) :
    cmpRuns number l l' = (cmpRuns number l' l).swap :=
  Std.OrientedCmp.eq_swap

theorem cmpRuns_cons_cons {x y : Item} (hxy : x.isNumber = y.isNumber) :
    cmpRuns number (x :: l) (y :: l') = (x.cmp y).then (cmpRuns x.isNumber l l') := by
  have hstep : cmpRuns x.isNumber (x :: l) (y :: l') =
      (x.cmp y).then (cmpRuns x.isNumber l l') := runCmp_cons_cons rfl hxy.symm
  by_cases hkind : x.isNumber = number
  · rw [← hkind, hstep]
  have hflip : x.isNumber = !number := by simpa [Bool.eq_not] using hkind
  rw [← hstep, hflip]
  exact runCmp_flip (by simpa [continuesRun] using hkind)
    (by simpa [continuesRun, ← hxy] using hkind)

/-- Behind an item of kind `number`, the loop compares trimmed items run by
run. -/
theorem cmpItems_eq_cmpRuns (hl : ∀ x ∈ l, x.Proper) (hl' : ∀ x ∈ l', x.Proper)
    (htrim : Trimmed number l) (htrim' : Trimmed number l') :
    cmpItems number l l' = cmpRuns number l l' := by
  induction l generalizing number l' with
  | nil =>
    cases l' with
    | nil => simp [cmpItems, cmpRuns]
    | cons y l' => rw [cmpItems.eq_2 _ _ (by simp), cmpRuns_swap, cmpRuns_nil_right hl']
  | cons x l ih =>
    cases l' with
    | nil => rw [cmpItems.eq_3 _ _ (by simp), cmpRuns_nil_right hl]
    | cons y l' =>
      rw [cmpItems]
      by_cases hxy : x.isNumber = y.isNumber
      · have htail := ih (fun z hz => hl z (mem_cons_of_mem x hz))
          (fun z hz => hl' z (mem_cons_of_mem y hz)) htrim.1 (hxy ▸ htrim'.1)
        rw [if_neg (not_not.mpr hxy), cmpRuns_cons_cons hxy, htail]
        cases x.cmp y <;> rfl
      · rw [if_pos hxy]
        by_cases hkind : x.isNumber = number
        · rw [if_pos hkind, cmpRuns_of_ended hl htrim (by simpa [continuesRun] using hkind)]
          simpa [continuesRun, ← hkind] using Ne.symm hxy
        have hy : y.isNumber = number := by
          cases hx : x.isNumber <;> simp_all
        rw [if_neg hkind, cmpRuns_swap,
          cmpRuns_of_ended hl' htrim' (by simpa [continuesRun] using hy)]
        simpa [continuesRun] using hkind

variable [Lowercase]

theorem items_cases (v : Version) : v.items = [] ∨ ∃ first rest,
    itemsFrom v.original.length v.original = first :: rest ∧
      v.items = first :: (trimAfter first rest).kept := by
  rw [items]
  split
  · exact .inl rfl
  rw [parseItems]
  cases itemsFrom v.original.length v.original with
  | nil => exact .inl rfl
  | cons first rest => exact .inr ⟨first, rest, rfl, rfl⟩

theorem items_proper (v : Version) : ∀ x ∈ v.items, x.Proper := by
  intro x hx
  rcases v.items_cases with hnil | ⟨first, rest, hfrom, hitems⟩
  · rw [hnil] at hx
    cases hx
  have hall := itemsFrom_proper v.original.length v.original
  rw [hfrom] at hall
  rw [hitems] at hx
  exact hall x (((trimAfter_sublist first rest).cons_cons first).subset hx)

theorem items_eq_cons {first : Item} {rest : List Item} (h : v.items = first :: rest) :
    ∃ rest', rest = (trimAfter first rest').kept := by
  rcases v.items_cases with hnil | ⟨first', rest', -, hitems⟩
  · cases hnil.symm.trans h
  · obtain ⟨rfl, rfl⟩ := List.cons.inj (hitems.symm.trans h)
    exact ⟨rest', rfl⟩

theorem items_trimmed {first : Item} {rest : List Item} (h : v.items = first :: rest) :
    Trimmed first.isNumber rest := by
  obtain ⟨rest', rfl⟩ := items_eq_cons h
  exact trimAfter_trimmed first rest'

def runOrder (a b : Version) : Ordering :=
  cmpRuns true a.items b.items

instance : Std.TransCmp runOrder where
  eq_swap {a b} := cmpRuns_swap true a.items b.items
  isLE_trans hab hbc :=
    (inferInstance : Std.TransCmp (cmpRuns true)).isLE_trans hab hbc

/-- The first item is of the given kind. -/
def StartsWith (number : Bool) (v : Version) : Prop :=
  ∃ first rest, v.items = first :: rest ∧ first.isNumber = number

theorem startsWith_iff : v.StartsWith number ↔ v.items.head?.map Item.isNumber = some number := by
  cases hv : v.items with
  | nil | cons first rest => simp [StartsWith, hv]

theorem cmp_eq_cmpRuns (ha : a.StartsWith number) (hb : b.StartsWith number) :
    a.cmp b = cmpRuns number a.items b.items := by
  obtain ⟨x, l, hl, hx⟩ := ha
  obtain ⟨y, l', hl', hy⟩ := hb
  have hxy : x.isNumber = y.isNumber := hx.trans hy.symm
  have hproper : ∀ z ∈ l, z.Proper := fun z hz =>
    a.items_proper z (hl ▸ mem_cons_of_mem x hz)
  have hproper' : ∀ z ∈ l', z.Proper := fun z hz =>
    b.items_proper z (hl' ▸ mem_cons_of_mem y hz)
  have htail := cmpItems_eq_cmpRuns hproper hproper' (items_trimmed hl)
    (hxy ▸ items_trimmed hl')
  rw [cmp, hl, hl', cmpItems, if_neg (not_not.mpr hxy), cmpRuns_cons_cons hxy, htail]
  cases x.cmp y <;> rfl

theorem StartsWithNumber.startsWith (h : v.StartsWithNumber) : v.StartsWith true := by
  obtain ⟨first, hfirst, hnumber⟩ := h
  rw [startsWith_iff, hfirst, Option.map_some, hnumber]

theorem cmp_eq_runOrder (ha : a.StartsWithNumber) (hb : b.StartsWithNumber) :
    a.cmp b = a.runOrder b :=
  cmp_eq_cmpRuns ha.startsWith hb.startsWith

/-- A version that starts with a text, below another one but equal to what is
above that one. -/
example : ∃ (_ : Lowercase) (a b c : Version), a.cmp b = .lt ∧ b.cmp c = .lt ∧ c.cmp a = .eq :=
  ⟨⟨id⟩, ⟨"x-1-1"⟩, ⟨"0-alpha-1"⟩, ⟨"0-0-x"⟩, by decide +kernel⟩

end Version

end Raeva
