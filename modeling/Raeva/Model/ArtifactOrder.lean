import Raeva.Model.ArtifactVersion

/-!
# The order of maven-artifact is antisymmetric

Comparing the other way round reverses the result, and parsed versions compare equal
only if their trees are the same: a list that is normalized does not end in an item
that equals a missing one.
-/

namespace Raeva.Model.ArtifactVersion

open List

/-- Induction over the items of a tree. -/
@[elab_as_elim]
theorem Item.induction {motive : Item → Prop} (number : ∀ kind digits, motive (.number kind digits))
    (string : ∀ value, motive (.string value))
    (list : ∀ items : List Item, (∀ item ∈ items, motive item) → motive (.list items))
    (item : Item) : motive item :=
  @Item.rec motive (fun items => ∀ item ∈ items, motive item) number string list
    (fun _ hitem => absurd hitem not_mem_nil)
    (fun _ _ hitem hitems => forall_mem_cons.mpr ⟨hitem, hitems⟩) item

/-! ## The other way round -/

theorem nonesCompare_eq (items : List Item) : nonesCompare items = (compareNones items).swap := by
  induction items with
  | nil => rfl
  | cons item items ih => rw [nonesCompare, compareNones, Ordering.swap_then, ih]

theorem compareItems_nil (items : List Item) : compareItems items [] = compareNones items := by
  cases items with
  | nil => rfl
  | cons item items => rw [compareItems, compareNones]

theorem compareItems_swap {items : List Item}
    (h : ∀ item ∈ items, ∀ other, item.compareSome other = (other.compareSome item).swap)
    (items' : List Item) : compareItems items items' = (compareItems items' items).swap := by
  induction items generalizing items' with
  | nil => rw [compareItems, nonesCompare_eq, compareItems_nil]
  | cons item items ih =>
    rw [forall_mem_cons] at h
    cases items' with
    | nil => rw [compareItems_nil, compareItems, nonesCompare_eq, Ordering.swap_swap]
    | cons item' items' =>
      rw [compareItems, compareItems, Ordering.swap_then, h.1, ih h.2]

theorem Item.compareSome_swap (a b : Item) : a.compareSome b = (b.compareSome a).swap := by
  induction a using Item.induction generalizing b with
  | number kind digits =>
    cases b with
    | number kind' digits' =>
      have hkind : Ord.compare kind kind' = (Ord.compare kind' kind).swap :=
        Std.OrientedOrd.eq_swap
      have hlength : Ord.compare digits.length digits'.length =
          (Ord.compare digits'.length digits.length).swap := Std.OrientedOrd.eq_swap
      have hdigits : Ord.compare digits digits' = (Ord.compare digits' digits).swap :=
        Std.OrientedOrd.eq_swap
      rw [compareSome, compareSome, Ordering.swap_then, Ordering.swap_then, hkind, hlength, hdigits]
    | string | list => rfl
  | string value =>
    cases b with
    | string value' =>
      have hqualifier : Ord.compare (qualifier value) (qualifier value') =
          (Ord.compare (qualifier value') (qualifier value)).swap := Std.OrientedOrd.eq_swap
      have hunits : Ord.compare (Utf16.encode value) (Utf16.encode value') =
          (Ord.compare (Utf16.encode value') (Utf16.encode value)).swap :=
        Std.OrientedOrd.eq_swap
      rw [compareSome, compareSome, Ordering.swap_then, hqualifier, hunits]
    | number | list => rfl
  | list items ih =>
    cases b with
    | list items' =>
      rw [compareSome, compareSome]
      exact compareItems_swap ih items'
    | number | string => rfl

theorem Item.compareSome_self (a : Item) : a.compareSome a = .eq := by
  have hswap := a.compareSome_swap a
  cases hcmp : a.compareSome a with
  | eq => rfl
  | lt | gt =>
    rw [hcmp] at hswap
    cases hswap

/-! ## Normal trees -/

mutual

/-- Every list of the tree ends in an item that differs from a missing one. -/
def Item.Normal : Item → Prop
  | .number _ _ => True
  | .string _ => True
  | .list items => NormalItems items

def NormalItems : List Item → Prop
  | [] => True
  | item :: items => item.Normal ∧ (items = [] → item.compareNone ≠ .eq) ∧ NormalItems items

end

variable {items list : List Item}

theorem compareNones_ne (h : NormalItems items) (hne : items ≠ []) : compareNones items ≠ .eq := by
  induction items with
  | nil => exact absurd rfl hne
  | cons item items ih =>
    rw [NormalItems] at h
    rw [compareNones, Ne, Ordering.then_eq_eq, not_and]
    intro hitem
    by_cases hlast : items = []
    · exact absurd hitem (h.2.1 hlast)
    · exact ih h.2.2 hlast

theorem eq_of_compareItems {items' : List Item}
    (h : ∀ item ∈ items, ∀ other : Item,
    item.Normal → other.Normal → item.compareSome other = .eq → item = other)
    (hitems : NormalItems items) (hitems' : NormalItems items')
    (heq : compareItems items items' = .eq) : items = items' := by
  induction items generalizing items' with
  | nil =>
    rw [compareItems, nonesCompare_eq, Ordering.swap_eq_eq] at heq
    by_contra hne
    exact compareNones_ne hitems' (.symm hne) heq
  | cons item items ih =>
    cases items' with
    | nil =>
      rw [compareItems_nil] at heq
      exact absurd heq (compareNones_ne hitems (cons_ne_nil _ _))
    | cons item' items' =>
      rw [forall_mem_cons] at h
      rw [NormalItems] at hitems hitems'
      rw [compareItems, Ordering.then_eq_eq] at heq
      rw [h.1 item' hitems.1 hitems'.1 heq.1, ih h.2 hitems.2.2 hitems'.2.2 heq.2]

theorem Item.eq_of_compareSome {a b : Item} (ha : a.Normal) (hb : b.Normal)
    (h : a.compareSome b = .eq) : a = b := by
  induction a using Item.induction generalizing b with
  | number kind digits =>
    cases b with
    | number kind' digits' =>
      rw [compareSome, Ordering.then_eq_eq, Ordering.then_eq_eq] at h
      rw [Std.LawfulEqOrd.eq_of_compare h.1, Std.LawfulEqOrd.eq_of_compare h.2.2]
    | string | list => cases h
  | string value =>
    cases b with
    | string value' =>
      rw [compareSome, Ordering.then_eq_eq] at h
      rw [Utf16.encode_injective (Std.LawfulEqOrd.eq_of_compare h.2)]
    | number | list => cases h
  | list items ih =>
    cases b with
    | list items' =>
      rw [Normal] at ha hb
      rw [compareSome] at h
      rw [eq_of_compareItems (fun item hitem _ hn hn' => ih item hitem hn hn') ha hb h]
    | number | string => cases h

/-! ## What parsing gives -/

theorem qualifier_ne {value : Text} (h : value ≠ []) : qualifier value ≠ qualifier [] := by
  have hnil : qualifier [] = 5 := rfl
  rw [hnil, qualifier]
  split_ifs <;> simp_all

theorem Item.compareNone_ne {item : Item} (hnormal : item.Normal) (h : item.isNull = false) :
    item.compareNone ≠ .eq := by
  cases item with
  | number kind digits =>
    rw [isNull, decide_eq_false_iff_not] at h
    rw [compareNone, if_neg h]
    exact fun heq => by cases heq
  | string value =>
    rw [isNull, isEmpty_eq_false_iff] at h
    rw [compareNone]
    exact fun heq => qualifier_ne h (Std.LawfulEqOrd.eq_of_compare heq)
  | list items =>
    rw [isNull, isEmpty_eq_false_iff] at h
    rw [compareNone]
    exact compareNones_ne hnormal h

theorem dropNulls_cases (items : List Item) :
    (∀ item ∈ dropNulls items, item ∈ items) ∧
      ∀ item ∈ (dropNulls items).head?, item.isNull = false := by
  induction items with
  | nil => exact ⟨fun _ h => h, fun _ h => by cases h⟩
  | cons item items ih =>
    rw [dropNulls]
    split
    · exact ⟨fun other h => mem_cons_of_mem item (ih.1 other h), ih.2⟩
    rename_i hnull
    have hhead : ∀ {rest : List Item}, ∀ other ∈ (item :: rest).head?, other.isNull = false := by
      intro rest other hother
      cases hother
      exact Bool.eq_false_iff.mpr hnull
    split
    · refine ⟨fun other hother => ?_, hhead⟩
      rcases mem_cons.mp hother with rfl | hother
      · exact mem_cons_self
      · exact mem_cons_of_mem item (ih.1 other hother)
    · exact ⟨fun _ h => h, hhead⟩

theorem normalItems_of_getLast (hitems : ∀ item ∈ items, item.Normal)
    (hlast : ∀ item ∈ items.getLast?, item.compareNone ≠ .eq) : NormalItems items := by
  induction items with
  | nil => trivial
  | cons item items ih =>
    rw [forall_mem_cons] at hitems
    rw [NormalItems]
    refine ⟨hitems.1, fun hnil => ?_, ih hitems.2 fun other hother => hlast other ?_⟩
    · subst hnil
      exact hlast item rfl
    · rw [getLast?_cons, Option.mem_def.mp hother]
      rfl

theorem normalItems_normalize (h : ∀ item ∈ list, item.Normal) : NormalItems (normalize list) := by
  obtain ⟨hmem, hhead⟩ := dropNulls_cases list.reverse
  have hitems : ∀ item ∈ normalize list, item.Normal := fun item hitem =>
    h item (mem_reverse.mp (hmem item (mem_reverse.mp hitem)))
  refine normalItems_of_getLast hitems fun item hitem => ?_
  have hlast := hitems item (mem_of_getLast? hitem)
  rw [normalize, getLast?_reverse] at hitem
  exact Item.compareNone_ne hlast (hhead item hitem)

theorem normal_close {stack : List (List Item)}
    (hstack : ∀ list ∈ stack, ∀ item ∈ list, item.Normal) (hlist : ∀ item ∈ list, item.Normal) :
    (close stack list).Normal := by
  induction stack generalizing list with
  | nil =>
    rw [close, Item.Normal]
    exact normalItems_normalize hlist
  | cons parent stack ih =>
    rw [forall_mem_cons] at hstack
    rw [close]
    refine ih hstack.2 fun item hitem => ?_
    rcases mem_append.mp hitem with hitem | hitem
    · exact hstack.1 item hitem
    · rw [mem_singleton.mp hitem, Item.Normal]
      exact normalItems_normalize hlist

/-- The parser reads numbers and qualifiers only; lists come from closing. -/
structure Scan.Flat (scan : Scan) : Prop where
  stack : ∀ list ∈ scan.stack, ∀ item ∈ list, item.isList = false
  list : ∀ item ∈ scan.list, item.isList = false

theorem Item.ofToken_isList (text : Text) (numeric : Bool) :
    (Item.ofToken text numeric).isList = false := by
  cases numeric <;> rfl

namespace Scan.Flat

variable {scan : Scan}

theorem start : Scan.start.Flat :=
  ⟨fun _ h => absurd h not_mem_nil, fun _ h => absurd h not_mem_nil⟩

theorem nest (h : scan.Flat) : scan.nest.Flat :=
  ⟨forall_mem_cons.mpr ⟨h.list, h.stack⟩, fun _ hitem => absurd hitem not_mem_nil⟩

theorem push (h : scan.Flat) {item : Item} (hitem : item.isList = false) : (scan.push item).Flat :=
  ⟨h.stack, forall_mem_append.mpr ⟨h.list, forall_mem_singleton.mpr hitem⟩⟩

theorem ite (h : scan.Flat) {other : Scan} (hother : other.Flat) (p : Prop) [Decidable p] :
    (if p then scan else other).Flat := by
  split <;> assumption

theorem read (h : scan.Flat) (c : Char) : (scan.read c).Flat := by
  rw [Scan.read]
  split
  · have hitem : (if scan.token.isEmpty then Item.ofNumber "0"
        else .ofToken scan.token scan.numeric).isList = false := by
      split
      · rfl
      · exact Item.ofToken_isList _ _
    exact (h.push hitem).nest.ite (h.push hitem) _
  · split
    · have hopened := (h.ite h.nest (scan.list.isEmpty = true)).push
        (show (Item.ofString scan.token true).isList = false from rfl)
      have hnext := hopened.nest.ite h ((!scan.numeric && !scan.token.isEmpty) = true)
      exact ⟨hnext.stack, hnext.list⟩
    · have hopened := h.push (show (Item.ofNumber scan.token).isList = false from rfl)
      have hnext := hopened.nest.ite h ((scan.numeric && !scan.token.isEmpty) = true)
      exact ⟨hnext.stack, hnext.list⟩

theorem finish (h : scan.Flat) : scan.finish.Flat := by
  rw [Scan.finish]
  split
  · exact h
  · exact (h.nest.ite h _).push (Item.ofToken_isList _ _)

theorem limit (h : scan.Flat) {limited : Scan} (hlimit : scan.limit = some limited) :
    limited.Flat := by
  rw [Scan.limit] at hlimit
  split at hlimit
  · cases hlimit
  · cases hlimit
    exact h

theorem foldlM (h : scan.Flat) {t : Text} {scanned : Scan}
    (hscan : t.foldlM (fun scan c => (Scan.read scan c).limit) scan = some scanned) :
    scanned.Flat := by
  induction t generalizing scan with
  | nil =>
    cases hscan
    exact h
  | cons c t ih =>
    rw [foldlM_cons, Option.bind_eq_bind, Option.bind_eq_some_iff] at hscan
    obtain ⟨next, hnext, hrest⟩ := hscan
    exact ih ((h.read c).limit hnext) hrest

end Scan.Flat

theorem Item.normal_of_not_isList {item : Item} (h : item.isList = false) : item.Normal := by
  cases item with
  | number | string => trivial
  | list => cases h

theorem normal_of_parse [Lowercase] {version : Text} {item : Item}
    (h : parse version = some item) : item.Normal := by
  rw [parse] at h
  split at h
  · cases h
  simp only [Option.bind_eq_bind, Option.bind_eq_some_iff] at h
  obtain ⟨scan, hscan, limited, hlimit, hclose⟩ := h
  cases hclose
  have hflat := (Scan.Flat.start.foldlM hscan).finish.limit hlimit
  exact normal_close
    (fun list hlist item hitem => Item.normal_of_not_isList (hflat.stack list hlist item hitem))
    fun item hitem => Item.normal_of_not_isList (hflat.list item hitem)

/-! ## The order -/

/-- Two versions compare one way as they do the other way round, and equal exactly
when they have one tree; so equal versions can be put for each other in every
comparison and in every range. -/
theorem compare_laws [Lowercase] (a b : Text) (x y : Item) (ha : parse a = some x)
    (hb : parse b = some y) :
    x.compare (some y) = (y.compare (some x)).swap ∧ (x.compare (some y) = .eq ↔ x = y) ∧
      (x.compare (some y) = .eq →
        (∀ c z, parse c = some z → x.compare (some z) = y.compare (some z) ∧
          z.compare (some x) = z.compare (some y)) ∧
        x.compare none = y.compare none ∧ ∀ spec, contains a spec = contains b spec) := by
  have heq : x.compare (some y) = .eq ↔ x = y := by
    refine ⟨Item.eq_of_compareSome (normal_of_parse ha) (normal_of_parse hb), ?_⟩
    rintro rfl
    exact x.compareSome_self
  refine ⟨x.compareSome_swap y, heq, fun hequal => ?_⟩
  obtain rfl := heq.mp hequal
  refine ⟨fun c z _ => ⟨rfl, rfl⟩, rfl, fun spec => ?_⟩
  rw [contains, contains, ha, hb]

section Sample

local instance artifactLowercase : Lowercase := asciiLowercase

/-- A qualifier with its number, and a release that ends in zeros and words for it. -/
theorem compare_laws_sample :
    ∃ x y, parse "1.0a1" = some x ∧ parse "1-Alpha-1.0.GA" = some y ∧ x = y ∧
      x.compare (some y) = (y.compare (some x)).swap := by
  have hx : (parse "1.0a1").isSome = true := by decide +kernel
  have hy : (parse "1-Alpha-1.0.GA").isSome = true := by decide +kernel
  obtain ⟨x, hx⟩ := Option.isSome_iff_exists.mp hx
  obtain ⟨y, hy⟩ := Option.isSome_iff_exists.mp hy
  have hlaws := compare_laws _ _ x y hx hy
  refine ⟨x, y, hx, hy, hlaws.2.1.mp ?_, hlaws.1⟩
  have hcmp : ((parse "1.0a1").bind fun x => (parse "1-Alpha-1.0.GA").map fun y =>
      x.compare (some y)) = some .eq := by
    decide +kernel
  rw [hx, hy] at hcmp
  exact Option.some.inj hcmp

end Sample

end Raeva.Model.ArtifactVersion
