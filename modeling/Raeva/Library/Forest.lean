import Mathlib.Data.List.AList
import Mathlib.Order.WellFounded

/-!
# Parent maps

A finite map from keys to parent keys, read as a union-find structure without
ranks and without path compression: the representative of a key is the end of
its chain of parents.  Chains are followed with as much fuel as the map has
entries.  A map built by linking one root below another distinct root is a
forest, so the fuel always suffices, and linking merges exactly two classes.
-/

namespace Raeva

open List

/-- A finite map, as a list of entries with distinct keys. -/
abbrev Table (κ ν : Type) := AList (fun _ : κ => ν)

namespace Table

variable {κ ν : Type} [DecidableEq κ]

def values (m : Table κ ν) : List ν :=
  m.entries.map Sigma.snd

def extend (m : Table κ (List ν)) (k : κ) (vs : List ν) : Table κ (List ν) :=
  m.insert k ((m.lookup k).getD [] ++ vs)

def orInsert (m : Table κ ν) (k : κ) (v : ν) : Table κ ν :=
  if k ∈ m then m else m.insert k v

theorem lookup_insert_eq (m : Table κ ν) (k k' : κ) (v : ν) :
    (m.insert k v).lookup k' = if k' = k then some v else m.lookup k' := by
  by_cases h : k' = k
  · subst h
    simp
  · simp [h, AList.lookup_insert_ne h]

theorem lookup_erase_eq (m : Table κ ν) (k k' : κ) :
    (m.erase k).lookup k' = if k' = k then none else m.lookup k' := by
  by_cases h : k' = k
  · subst h
    simp
  · simp [h, AList.lookup_erase_ne h]

theorem lookup_foldl_insert {entries : List (Σ _ : κ, ν)} (h : entries.NodupKeys) (m : Table κ ν)
    (k : κ) :
    (entries.foldl (fun merged entry => merged.insert entry.1 entry.2) m).lookup k =
      (entries.dlookup k).or (m.lookup k) := by
  induction entries generalizing m with
  | nil => rfl
  | cons entry entries ih =>
    obtain ⟨name, v⟩ := entry
    rw [nodupKeys_cons] at h
    rw [foldl_cons, ih h.2]
    by_cases hk : k = name
    · subst hk
      have hnone : entries.dlookup k = none := dlookup_eq_none.mpr h.1
      rw [hnone, dlookup_cons_eq, AList.lookup_insert]
      rfl
    · rw [AList.lookup_insert_ne hk, dlookup_cons_ne _ _ hk]

theorem lookup_orInsert (m : Table κ ν) (k k' : κ) (v : ν) :
    (m.orInsert k v).lookup k' = (m.lookup k').or (if k' = k then some v else none) := by
  rw [orInsert]
  split
  · rename_i hmem
    by_cases hk : k' = k
    · subst hk
      obtain ⟨v', hv'⟩ := Option.isSome_iff_exists.mp (AList.lookup_isSome.mpr hmem)
      simp [hv']
    · simp [hk]
  · rename_i hmem
    rw [lookup_insert_eq]
    by_cases hk : k' = k
    · subst hk
      simp [AList.lookup_eq_none.mpr hmem]
    · simp [hk]

theorem lookup_foldl_orInsert (keys : List κ) (m : Table κ ν) (k : κ) (v : ν) :
    (keys.foldl (fun table key => orInsert table key v) m).lookup k =
      (m.lookup k).or (if k ∈ keys then some v else none) := by
  induction keys generalizing m with
  | nil => simp
  | cons key keys ih =>
    rw [foldl_cons, ih, lookup_orInsert, Option.or_assoc]
    by_cases hk : k = key
    · simp [hk]
    · simp [hk]

theorem mem_extend {m : Table κ (List ν)} {k k' : κ} {vs : List ν} {v : ν} :
    v ∈ ((extend m k vs).lookup k').getD [] ↔ v ∈ (m.lookup k').getD [] ∨ k' = k ∧ v ∈ vs := by
  rw [extend, lookup_insert_eq]
  split
  · rename_i h
    subst h
    simp
  · rename_i h
    simp [h]

theorem mem_values_of_lookup {m : Table κ ν} {k : κ} {v : ν} (h : m.lookup k = some v) :
    v ∈ m.values :=
  mem_map.mpr ⟨⟨k, v⟩, AList.mem_lookup_iff.mp h, rfl⟩

theorem length_keys_insert {m : Table κ ν} {k : κ} (v : ν) (h : k ∉ m) :
    (m.insert k v).keys.length = m.keys.length + 1 := by
  have hk : k ∉ m.keys := h
  rw [AList.keys_insert, length_cons, erase_of_not_mem hk]

end Table

namespace ParentMap

variable {κ : Type} [DecidableEq κ]

/-- Follow parents for at most `fuel` steps. -/
def climb (m : Table κ κ) : ℕ → κ → Option κ
  | 0, k => if (m.lookup k).isSome then none else some k
  | fuel + 1, k =>
    match m.lookup k with
    | none => some k
    | some next => climb m fuel next

def root (m : Table κ κ) (k : κ) : κ :=
  (climb m m.keys.length k).getD k

/-- Every chain of parents ends within as many steps as there are entries. -/
def Forest (m : Table κ κ) : Prop :=
  ∀ k, ∃ r, climb m m.keys.length k = some r

/-- No infinite chain of parents. -/
def Acyclic (m : Table κ κ) : Prop :=
  WellFounded fun next k => m.lookup k = some next

variable {m : Table κ κ} {k child into : κ}

theorem climb_of_lookup_none (h : m.lookup k = none) (fuel : ℕ) : climb m fuel k = some k := by
  cases fuel <;> simp [climb, h]

theorem climb_succ_of_lookup {next : κ} (h : m.lookup k = some next) (fuel : ℕ) :
    climb m (fuel + 1) k = climb m fuel next := by
  simp [climb, h]

theorem lookup_of_climb {fuel : ℕ} {r : κ} (h : climb m fuel k = some r) : m.lookup r = none := by
  induction fuel generalizing k with
  | zero =>
    cases hk : m.lookup k with
    | none =>
      rw [climb_of_lookup_none hk] at h
      exact Option.some.inj h ▸ hk
    | some next => simp [climb, hk] at h
  | succ fuel ih =>
    cases hk : m.lookup k with
    | none =>
      rw [climb_of_lookup_none hk] at h
      exact Option.some.inj h ▸ hk
    | some next =>
      rw [climb_succ_of_lookup hk] at h
      exact ih h

theorem forest_empty : Forest (∅ : Table κ κ) :=
  fun k => ⟨k, climb_of_lookup_none (by simp) _⟩

theorem climb_root (hm : Forest m) (k : κ) : climb m m.keys.length k = some (root m k) := by
  obtain ⟨r, hr⟩ := hm k
  simp [root, hr]

theorem lookup_root (hm : Forest m) (k : κ) : m.lookup (root m k) = none :=
  lookup_of_climb (climb_root hm k)

theorem root_of_lookup_none (h : m.lookup k = none) : root m k = k := by
  simp [root, climb_of_lookup_none h]

theorem root_eq_self_iff (hm : Forest m) : root m k = k ↔ m.lookup k = none :=
  ⟨fun h => h ▸ lookup_root hm k, root_of_lookup_none⟩

theorem root_root (hm : Forest m) (k : κ) : root m (root m k) = root m k :=
  root_of_lookup_none (lookup_root hm k)

section Link

variable (hchild : m.lookup child = none) (hinto : m.lookup into = none) (hne : into ≠ child)

include hchild hinto hne

theorem climb_insert {r : κ} {fuel : ℕ} (h : climb m fuel k = some r) :
    climb (m.insert child into) (fuel + 1) k = some (if r = child then into else r) := by
  have hinto' : (m.insert child into).lookup into = none := by
    rw [Table.lookup_insert_eq, if_neg hne, hinto]
  have hroot : ∀ k, m.lookup k = none → ∀ fuel,
      climb (m.insert child into) (fuel + 1) k = some (if k = child then into else k) := by
    intro k hk fuel
    by_cases hc : k = child
    · subst hc
      have hlink : (m.insert k into).lookup k = some into := by
        rw [Table.lookup_insert_eq, if_pos rfl]
      rw [climb_succ_of_lookup hlink, climb_of_lookup_none hinto', if_pos rfl]
    · rw [climb_of_lookup_none (by rw [Table.lookup_insert_eq, if_neg hc, hk]), if_neg hc]
  induction fuel generalizing k with
  | zero =>
    cases hk : m.lookup k with
    | none =>
      rw [climb_of_lookup_none hk] at h
      obtain rfl := Option.some.inj h
      exact hroot k hk 0
    | some next => simp [climb, hk] at h
  | succ fuel ih =>
    cases hk : m.lookup k with
    | none =>
      rw [climb_of_lookup_none hk] at h
      obtain rfl := Option.some.inj h
      exact hroot k hk _
    | some next =>
      rw [climb_succ_of_lookup hk] at h
      have hkc : k ≠ child := by
        rintro rfl
        simp [hchild] at hk
      have hnext : (m.insert child into).lookup k = some next := by
        rw [Table.lookup_insert_eq, if_neg hkc, hk]
      rw [climb_succ_of_lookup hnext]
      exact ih h

theorem climb_link (hm : Forest m) (k : κ) :
    climb (m.insert child into) (m.insert child into).keys.length k =
      some (if root m k = child then into else root m k) := by
  have hmem : child ∉ m := AList.lookup_eq_none.mp hchild
  rw [Table.length_keys_insert _ hmem]
  exact climb_insert hchild hinto hne (climb_root hm k)

theorem Forest.link (hm : Forest m) : Forest (m.insert child into) :=
  fun k => ⟨_, climb_link hchild hinto hne hm k⟩

theorem root_link (hm : Forest m) (k : κ) :
    root (m.insert child into) k = if root m k = child then into else root m k := by
  change (climb (m.insert child into) (m.insert child into).keys.length k).getD k = _
  rw [climb_link hchild hinto hne hm k, Option.getD_some]

end Link

theorem Forest.acyclic (hm : Forest m) : Acyclic m := by
  have hacc : ∀ fuel k r, climb m fuel k = some r →
      Acc (fun next k => m.lookup k = some next) k := by
    intro fuel
    induction fuel with
    | zero =>
      intro k r h
      refine ⟨k, fun next hnext => ?_⟩
      simp [climb, hnext] at h
    | succ fuel ih =>
      intro k r h
      refine ⟨k, fun next hnext => ?_⟩
      rw [climb_succ_of_lookup hnext] at h
      exact ih next r h
  exact ⟨fun k => hacc _ k _ (climb_root hm k)⟩

end ParentMap

end Raeva
