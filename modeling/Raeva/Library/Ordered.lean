import Mathlib.Data.List.Pairwise
import Mathlib.Data.List.Sort
import Mathlib.Data.Char
import Mathlib.Data.List.Lex

/-!
# Sorted lists

Sorting by a key, and lists without two elements of one key that are kept in
the order of the keys, as the ordered maps and sets of the standard library
keep them.
-/

namespace Raeva

open List

section SortBy

variable {α κ : Type} [LinearOrder κ] (key : α → κ) {l l' : List α}

def sortBy (l : List α) : List α :=
  l.insertionSort fun a b => key a ≤ key b

theorem sortBy_perm (l : List α) : (sortBy key l).Perm l :=
  perm_insertionSort _ l

@[simp] theorem mem_sortBy {a : α} : a ∈ sortBy key l ↔ a ∈ l :=
  (sortBy_perm key l).mem_iff

@[simp] theorem length_sortBy (l : List α) : (sortBy key l).length = l.length :=
  (sortBy_perm key l).length_eq

theorem sortBy_sorted (l : List α) : (sortBy key l).Pairwise (key · ≤ key ·) := by
  have : Std.Total fun a b : α => key a ≤ key b := ⟨fun a b => le_total (key a) (key b)⟩
  have : IsTrans α fun a b : α => key a ≤ key b := ⟨fun _ _ _ => le_trans⟩
  exact pairwise_insertionSort _ l

variable {key}

theorem sortBy_eq_self (h : l.Pairwise (key · ≤ key ·)) : sortBy key l = l :=
  List.Pairwise.insertionSort_eq h

/-- Sorted lists of the same elements are equal where keys tell elements
apart. -/
theorem eq_of_perm_of_sorted (h : l.Perm l') (hinj : ∀ a ∈ l, ∀ b ∈ l, key a = key b → a = b)
    (hl : l.Pairwise (key · ≤ key ·)) (hl' : l'.Pairwise (key · ≤ key ·)) : l = l' := by
  have hanti : ∀ a b, a ∈ l → b ∈ l' → key a ≤ key b → key b ≤ key a → a = b :=
    fun a b ha hb hab hba => hinj a ha b (h.mem_iff.mpr hb) (le_antisymm hab hba)
  exact List.Perm.eq_of_pairwise hanti hl hl' h

theorem perm_of_sortBy_eq (h : sortBy key l = sortBy key l') : l.Perm l' :=
  (sortBy_perm key l).symm.trans (h ▸ sortBy_perm key l')

theorem sortBy_eq_of_perm (h : l.Perm l') (hinj : ∀ a ∈ l, ∀ b ∈ l, key a = key b → a = b) :
    sortBy key l = sortBy key l' := by
  refine eq_of_perm_of_sorted (((sortBy_perm key l).trans h).trans (sortBy_perm key l').symm)
    (fun a ha b hb => ?_) (sortBy_sorted key l) (sortBy_sorted key l')
  exact hinj a ((mem_sortBy key).mp ha) b ((mem_sortBy key).mp hb)

end SortBy

section Zip

variable {α β κ : Type} {ka : α → κ} {kb : β → κ} {l : List α} {l' : List β}

theorem map_eq_map_iff_zip : l.map ka = l'.map kb ↔
    l.length = l'.length ∧ ∀ {a b}, (a, b) ∈ l.zip l' → ka a = kb b := by
  rw [← forall₂_iff_zip, ← forall₂_map_right_iff, ← forall₂_map_left_iff, forall₂_eq_eq_eq]

theorem mem_zip_of_key_eq (h : l.map ka = l'.map kb) (hnodup : (l.map ka).Nodup) {a : α} {b : β}
    (ha : a ∈ l) (hb : b ∈ l') (hab : ka a = kb b) : (a, b) ∈ l.zip l' := by
  induction l generalizing l' with
  | nil => cases ha
  | cons x l ih =>
    cases l' with
    | nil => cases hb
    | cons y l' =>
      rw [map_cons, map_cons, List.cons.injEq] at h
      rw [map_cons, nodup_cons] at hnodup
      rw [zip_cons_cons]
      rcases mem_cons.mp ha with rfl | ha
      · rcases mem_cons.mp hb with rfl | hb
        · exact mem_cons_self
        · have : kb b ∈ l.map ka := h.2 ▸ mem_map_of_mem hb
          exact absurd (hab ▸ this) hnodup.1
      · rcases mem_cons.mp hb with rfl | hb
        · have : ka a ∈ l.map ka := mem_map_of_mem ha
          rw [hab, ← h.1] at this
          exact absurd this hnodup.1
        · exact mem_cons_of_mem _ (ih h.2 hnodup.2 ha hb)

end Zip

/-- A list in strictly ascending order of the keys. -/
structure Ordered {α κ : Type} [LinearOrder κ] (key : α → κ) where
  entries : List α
  sorted : entries.Pairwise (key · < key ·)

namespace Ordered

variable {α κ : Type} [LinearOrder κ] {key : α → κ}

variable {m : Ordered key} {a x : α} {merge : α → α → α} {l : List α} {m' : Ordered key}

@[ext] theorem ext (h : m.entries = m'.entries) : m = m' := by
  cases m
  cases m'
  cases h
  rfl

instance [DecidableEq α] : DecidableEq (Ordered key) := fun m m' =>
  decidable_of_iff (m.entries = m'.entries) ⟨ext, congrArg entries⟩

def empty : Ordered key :=
  ⟨[], .nil⟩

theorem eq_of_key_eq {b : α} (ha : a ∈ m.entries) (hb : b ∈ m.entries) (h : key a = key b) :
    a = b := by
  by_contra hne
  have : Std.Symm fun a b => key a ≠ key b := ⟨fun _ _ => Ne.symm⟩
  exact List.Pairwise.forall (m.sorted.imp fun hlt => hlt.ne) ha hb hne h

theorem ext_mem (h : ∀ a, a ∈ m.entries ↔ a ∈ m'.entries) : m = m' := by
  have hnodup : ∀ m : Ordered key, m.entries.Nodup := fun m =>
    m.sorted.imp fun hlt heq => hlt.ne (congrArg key heq)
  have hperm : m.entries.Perm m'.entries :=
    (perm_ext_iff_of_nodup (hnodup m) (hnodup m')).mpr h
  apply ext
  exact eq_of_perm_of_sorted hperm (fun a ha b hb => eq_of_key_eq ha hb) (m.sorted.imp le_of_lt)
    (m'.sorted.imp le_of_lt)

def isEmpty (m : Ordered key) : Bool :=
  m.entries.isEmpty

def find? (m : Ordered key) (k : κ) : Option α :=
  m.entries.find? fun a => key a = k

theorem find?_eq_some_iff {k : κ} : m.find? k = some a ↔ a ∈ m.entries ∧ key a = k := by
  rw [find?]
  constructor
  · intro h
    exact ⟨mem_of_find?_eq_some h, by simpa using find?_some h⟩
  rintro ⟨ha, rfl⟩
  cases hfind : m.entries.find? fun b => key b = key a with
  | none =>
    have := find?_eq_none.mp hfind a ha
    simp at this
  | some b =>
    rw [eq_of_key_eq (mem_of_find?_eq_some hfind) ha (by simpa using find?_some hfind)]

def contains (m : Ordered key) (k : κ) : Bool :=
  (m.find? k).isSome

theorem contains_iff {k : κ} : m.contains k = true ↔ ∃ a ∈ m.entries, key a = k := by
  simp [contains, find?]

def filter (m : Ordered key) (p : α → Bool) : Ordered key :=
  ⟨m.entries.filter p, m.sorted.filter p⟩

/-- Put an element in its place; `merge` takes the old element of its key and
the new one. -/
def insertWith (key : α → κ) (merge : α → α → α) (x : α) : List α → List α
  | [] => [x]
  | y :: l =>
    if key x < key y then x :: y :: l
    else if key y < key x then y :: insertWith key merge x l
    else merge y x :: l

theorem mem_insertWith_iff (h : l.Pairwise (key · < key ·)) :
    a ∈ insertWith key merge x l ↔
      (a ∈ l ∧ key a ≠ key x) ∨ (∃ y ∈ l, key y = key x ∧ a = merge y x) ∨
        (a = x ∧ ∀ y ∈ l, key y ≠ key x) := by
  induction l with
  | nil => simp [insertWith]
  | cons y l ih =>
    obtain ⟨hy, hl⟩ := pairwise_cons.mp h
    rw [insertWith]
    split
    · rename_i hxy
      have hne : ∀ z ∈ y :: l, key z ≠ key x := by
        intro z hz
        rcases mem_cons.mp hz with rfl | hz
        · exact hxy.ne'
        · exact (hxy.trans (hy z hz)).ne'
      rw [mem_cons]
      constructor
      · rintro (rfl | ha)
        · exact .inr (.inr ⟨rfl, hne⟩)
        · exact .inl ⟨ha, hne a ha⟩
      · rintro (⟨ha, -⟩ | ⟨z, hz, hkey, -⟩ | ⟨rfl, -⟩)
        · exact .inr ha
        · exact absurd hkey (hne z hz)
        · exact .inl rfl
    · split
      · rename_i hyx
        rw [mem_cons, ih hl]
        simp only [mem_cons, forall_eq_or_imp, exists_eq_or_imp, hyx.ne, false_and, false_or,
          ne_eq, not_false_eq_true, true_and]
        constructor
        · rintro (rfl | ⟨ha, hne⟩ | hmerge | hnew)
          · exact .inl ⟨.inl rfl, hyx.ne⟩
          · exact .inl ⟨.inr ha, hne⟩
          · exact .inr (.inl hmerge)
          · exact .inr (.inr hnew)
        · rintro (⟨rfl | ha, hne⟩ | hmerge | hnew)
          · exact .inl rfl
          · exact .inr (.inl ⟨ha, hne⟩)
          · exact .inr (.inr (.inl hmerge))
          · exact .inr (.inr (.inr hnew))
      · rename_i hxy hyx
        have hkey : key y = key x := le_antisymm (not_lt.mp hxy) (not_lt.mp hyx)
        have hne : ∀ z ∈ l, key z ≠ key x := fun z hz => hkey ▸ (hy z hz).ne'
        rw [mem_cons]
        constructor
        · rintro (rfl | ha)
          · exact .inr (.inl ⟨y, mem_cons_self, hkey, rfl⟩)
          · exact .inl ⟨mem_cons_of_mem y ha, hne a ha⟩
        rintro (⟨ha, hax⟩ | ⟨z, hz, hzx, rfl⟩ | ⟨rfl, hall⟩)
        · rcases mem_cons.mp ha with rfl | ha
          · exact absurd hkey hax
          · exact .inr ha
        · rcases mem_cons.mp hz with rfl | hz
          · exact .inl rfl
          · exact absurd hzx (hne z hz)
        · exact absurd hkey (hall y mem_cons_self)

theorem insertWith_sorted (hmerge : ∀ a b, key a = key b → key (merge a b) = key b)
    (h : l.Pairwise (key · < key ·)) : (insertWith key merge x l).Pairwise (key · < key ·) := by
  induction l with
  | nil => simp [insertWith]
  | cons y l ih =>
    obtain ⟨hy, hl⟩ := pairwise_cons.mp h
    simp only [insertWith]
    split
    · rename_i hxy
      refine pairwise_cons.mpr ⟨fun a ha => ?_, h⟩
      rcases mem_cons.mp ha with rfl | ha
      · exact hxy
      · exact hxy.trans (hy a ha)
    split
    · rename_i hyx
      refine pairwise_cons.mpr ⟨fun a ha => ?_, ih hl⟩
      rcases (mem_insertWith_iff hl).mp ha with ⟨ha, -⟩ | ⟨z, -, hkey, rfl⟩ | ⟨rfl, -⟩
      · exact hy a ha
      · rwa [hmerge z x hkey]
      · exact hyx
    · rename_i hxy hyx
      have hkey : key y = key x := le_antisymm (not_lt.mp hxy) (not_lt.mp hyx)
      refine pairwise_cons.mpr ⟨fun a ha => ?_, hl⟩
      rw [hmerge y x hkey, ← hkey]
      exact hy a ha

def insert (m : Ordered key) (x : α) : Ordered key :=
  ⟨insertWith key (fun _ new => new) x m.entries, insertWith_sorted (fun _ _ _ => rfl) m.sorted⟩

def insertNew (m : Ordered key) (x : α) : Ordered key :=
  ⟨insertWith key (fun old _ => old) x m.entries, insertWith_sorted (fun _ _ h => h) m.sorted⟩

theorem mem_insert : a ∈ (m.insert x).entries ↔ a = x ∨ (a ∈ m.entries ∧ key a ≠ key x) := by
  rw [insert, mem_insertWith_iff m.sorted]
  constructor
  · rintro (h | ⟨-, -, -, rfl⟩ | ⟨rfl, -⟩)
    · exact .inr h
    · exact .inl rfl
    · exact .inl rfl
  · rintro (rfl | h)
    · by_cases hex : ∃ y ∈ m.entries, key y = key a
      · obtain ⟨y, hy, hkey⟩ := hex
        exact .inr (.inl ⟨y, hy, hkey, rfl⟩)
      · exact .inr (.inr ⟨rfl, by simpa using hex⟩)
    · exact .inl h

theorem mem_insertNew :
    a ∈ (m.insertNew x).entries ↔ a ∈ m.entries ∨ (a = x ∧ ∀ y ∈ m.entries, key y ≠ key x) := by
  rw [insertNew, mem_insertWith_iff m.sorted]
  constructor
  · rintro (⟨h, -⟩ | ⟨y, hy, -, rfl⟩ | h)
    · exact .inl h
    · exact .inl hy
    · exact .inr h
  · rintro (h | h)
    · by_cases hkey : key a = key x
      · exact .inr (.inl ⟨a, h, hkey, rfl⟩)
      · exact .inl ⟨h, hkey⟩
    · exact .inr (.inr h)

theorem mem_foldl_insertNew (h : a ∈ (l.foldl insertNew m).entries) : a ∈ m.entries ∨ a ∈ l := by
  induction l generalizing m with
  | nil => exact .inl h
  | cons x l ih =>
    rcases ih h with h | h
    · rcases mem_insertNew.mp h with h | ⟨rfl, -⟩
      · exact .inl h
      · exact .inr mem_cons_self
    · exact .inr (mem_cons_of_mem x h)

theorem mem_foldl_insertNew_of_mem (ha : a ∈ m.entries) : a ∈ (l.foldl insertNew m).entries := by
  induction l generalizing m with
  | nil => exact ha
  | cons y l ih => exact ih (mem_insertNew.mpr (.inl ha))

theorem exists_mem_foldl_insertNew (hx : x ∈ m.entries ∨ x ∈ l) :
    ∃ a ∈ (l.foldl insertNew m).entries, key a = key x := by
  induction l generalizing m with
  | nil => exact ⟨x, hx.resolve_right (by simp), rfl⟩
  | cons y l ih =>
    rcases hx with hx | hx
    · exact ⟨x, mem_foldl_insertNew_of_mem hx, rfl⟩
    rcases mem_cons.mp hx with rfl | hx
    · by_cases hex : ∃ z ∈ m.entries, key z = key x
      · obtain ⟨z, hz, hkey⟩ := hex
        exact ⟨z, mem_foldl_insertNew_of_mem hz, hkey⟩
      · have hmem : x ∈ (m.insertNew x).entries :=
          mem_insertNew.mpr (.inr ⟨rfl, by simpa using hex⟩)
        exact ⟨x, mem_foldl_insertNew_of_mem (l := l) hmem, rfl⟩
    · exact ih (.inr hx)

theorem mem_foldl_insertNew_iff {u : Ordered key} (hm : ∀ a ∈ m.entries, a ∈ u.entries)
    (hl : ∀ a ∈ l, a ∈ u.entries) : x ∈ (l.foldl insertNew m).entries ↔ x ∈ m.entries ∨ x ∈ l := by
  constructor
  · exact mem_foldl_insertNew
  intro hx
  obtain ⟨a, ha, hkey⟩ := exists_mem_foldl_insertNew hx
  have hau : a ∈ u.entries := (mem_foldl_insertNew ha).elim (hm a) (hl a)
  have hxu : x ∈ u.entries := hx.elim (hm x) (hl x)
  exact eq_of_key_eq hau hxu hkey ▸ ha

def ofList (l : List α) : Ordered key :=
  l.foldl insert empty

theorem mem_foldl_insert (hl : (l.map key).Nodup) (hm : ∀ b ∈ m.entries, key b ∉ l.map key) :
    a ∈ (l.foldl insert m).entries ↔ a ∈ m.entries ∨ a ∈ l := by
  induction l generalizing m with
  | nil => simp
  | cons x l ih =>
    rw [map_cons, nodup_cons] at hl
    have hnew : ∀ b ∈ (m.insert x).entries, key b ∉ l.map key := by
      intro b hb
      rcases mem_insert.mp hb with rfl | ⟨hb, -⟩
      · exact hl.1
      · exact fun hmem => hm b hb (mem_cons_of_mem _ hmem)
    have hne : a ∈ m.entries → key a ≠ key x := by
      intro ha hkey
      exact hm a ha (hkey ▸ mem_cons_self)
    rw [foldl_cons, ih hl.2 hnew, mem_insert, mem_cons]
    tauto

theorem mem_ofList (h : (l.map key).Nodup) : a ∈ (ofList l : Ordered key).entries ↔ a ∈ l := by
  have hnil : (empty : Ordered key).entries = [] := rfl
  rw [ofList, mem_foldl_insert h (by simp [hnil])]
  simp [hnil]

end Ordered

abbrev OrderedMap (κ ν : Type) [LinearOrder κ] := Ordered (Prod.fst : κ × ν → κ)

abbrev OrderedSet (κ : Type) [LinearOrder κ] := Ordered (id : κ → κ)

namespace OrderedMap

variable {κ ν : Type} [LinearOrder κ]

def lookup (m : OrderedMap κ ν) (k : κ) : Option ν :=
  (m.find? k).map Prod.snd

def keys (m : OrderedMap κ ν) : List κ :=
  m.entries.map Prod.fst

def values (m : OrderedMap κ ν) : List ν :=
  m.entries.map Prod.snd

theorem lookup_eq_some_iff {m : OrderedMap κ ν} {k : κ} {v : ν} :
    lookup m k = some v ↔ (k, v) ∈ m.entries := by
  simp only [lookup, Option.map_eq_some_iff, Ordered.find?_eq_some_iff]
  constructor
  · rintro ⟨p, ⟨hp, rfl⟩, rfl⟩
    exact hp
  · intro h
    exact ⟨(k, v), ⟨h, rfl⟩, rfl⟩

end OrderedMap

end Raeva
