import Mathlib.Data.List.Nodup

/-!
# Lists with keys

A map that remembers where its keys were first put, as the list of its values:
inserting under a known key replaces the value in its place.
-/

namespace Raeva.Keyed

open List

variable {α κ : Type} [DecidableEq κ] (key : α → κ)

def insert (x : α) : List α → List α
  | [] => [x]
  | y :: ys => if key y = key x then x :: ys else y :: insert x ys

def insertNew (x : α) (l : List α) : List α :=
  if l.any fun y => key y = key x then l else l ++ [x]

/-- The last value of each key, in the place of the first. -/
def ofList (l : List α) : List α :=
  l.foldl (fun merged x => insert key x merged) []

/-! ## Replacing in place -/

variable {x : α} {l xs : List α}

theorem map_insert_of_mem (h : key x ∈ l.map key) : (insert key x l).map key = l.map key := by
  induction l with
  | nil => cases h
  | cons y ys ih =>
    rw [insert]
    split
    · rename_i hkey
      rw [map_cons, map_cons, hkey]
    · rename_i hkey
      rw [map_cons, mem_cons] at h
      rw [map_cons, map_cons, ih (h.resolve_left (Ne.symm hkey))]

theorem insert_of_notMem (h : key x ∉ l.map key) : insert key x l = l ++ [x] := by
  induction l with
  | nil => rfl
  | cons y ys ih =>
    rw [map_cons, mem_cons, not_or] at h
    rw [insert, if_neg (Ne.symm h.1), ih h.2, cons_append]

theorem nodup_insert (h : (l.map key).Nodup) (x : α) : ((insert key x l).map key).Nodup := by
  by_cases hx : key x ∈ l.map key
  · rw [map_insert_of_mem key hx]
    exact h
  · rw [insert_of_notMem key hx, map_append]
    exact List.Nodup.append h (nodup_singleton _) (by simpa using hx)

theorem nodup_foldl_insert (xs : List α) (h : (l.map key).Nodup) :
    ((xs.foldl (fun merged x => insert key x merged) l).map key).Nodup := by
  induction xs generalizing l with
  | nil => exact h
  | cons x xs ih => exact ih (nodup_insert key h x)

theorem nodup_ofList (l : List α) : ((ofList key l).map key).Nodup :=
  nodup_foldl_insert key l nodup_nil

theorem foldl_insert_of_nodup (h : ((l ++ xs).map key).Nodup) :
    xs.foldl (fun merged x => insert key x merged) l = l ++ xs := by
  induction xs generalizing l with
  | nil => rw [foldl_nil, append_nil]
  | cons x xs ih =>
    have hx : key x ∉ l.map key := by
      intro hmem
      rw [map_append, map_cons] at h
      exact (nodup_append.mp h).2.2 _ hmem _ mem_cons_self rfl
    rw [foldl_cons, insert_of_notMem key hx, ih (by simpa using h), append_assoc, singleton_append]

theorem ofList_eq_self (h : (l.map key).Nodup) : ofList key l = l :=
  foldl_insert_of_nodup key h

/-! ## Keeping what is there -/

theorem insertNew_of_mem (h : key x ∈ l.map key) : insertNew key x l = l := by
  obtain ⟨y, hy, hkey⟩ := mem_map.mp h
  rw [insertNew, if_pos (any_eq_true.mpr ⟨y, hy, decide_eq_true hkey⟩)]

theorem insertNew_of_notMem (h : key x ∉ l.map key) : insertNew key x l = l ++ [x] := by
  rw [insertNew, if_neg]
  rintro hany
  obtain ⟨y, hy, hkey⟩ := any_eq_true.mp hany
  exact h (mem_map.mpr ⟨y, hy, of_decide_eq_true hkey⟩)

theorem mem_map_insertNew {k : κ} :
    k ∈ (insertNew key x l).map key ↔ k ∈ l.map key ∨ k = key x := by
  by_cases h : key x ∈ l.map key
  · rw [insertNew_of_mem key h]
    constructor
    · exact .inl
    · rintro (hk | rfl)
      · exact hk
      · exact h
  · rw [insertNew_of_notMem key h, map_append, mem_append, map_singleton, mem_singleton]

theorem mem_map_foldl_insertNew {k : κ} :
    k ∈ (xs.foldl (fun merged x => insertNew key x merged) l).map key ↔
      k ∈ l.map key ∨ k ∈ xs.map key := by
  induction xs generalizing l with
  | nil => simp
  | cons x xs ih =>
    rw [foldl_cons, ih, mem_map_insertNew, map_cons, mem_cons, or_assoc]

theorem foldl_insertNew_foldl_insertNew (xs l m : List α) :
    (xs.foldl (fun merged x => insertNew key x merged) l).foldl
        (fun merged x => insertNew key x merged) m =
      xs.foldl (fun merged x => insertNew key x merged)
        (l.foldl (fun merged x => insertNew key x merged) m) := by
  induction xs generalizing l with
  | nil => rfl
  | cons x xs ih =>
    rw [foldl_cons, foldl_cons, ih]
    congr 1
    by_cases h : key x ∈ l.map key
    · obtain ⟨y, hy, hkey⟩ := mem_map.mp h
      rw [insertNew_of_mem key h, insertNew_of_mem key]
      rw [← hkey, mem_map_foldl_insertNew]
      exact .inr (mem_map_of_mem hy)
    · rw [insertNew_of_notMem key h, foldl_append]
      rfl

theorem foldl_insertNew_of_nodup (h : (xs.map key).Nodup) (l : List α) :
    xs.foldl (fun merged x => insertNew key x merged) l =
      l ++ xs.filter fun x => !l.any fun y => key y = key x := by
  induction xs generalizing l with
  | nil => rw [foldl_nil, filter_nil, append_nil]
  | cons x xs ih =>
    rw [map_cons, nodup_cons] at h
    rw [foldl_cons, ih h.2, insertNew]
    split
    · rename_i hany
      rw [filter_cons_of_neg (by simpa using hany)]
    rename_i hany
    rw [filter_cons_of_pos (by simpa using hany), append_assoc]
    refine congrArg (l ++ x :: ·) (filter_congr fun z hz => ?_)
    have hne : key x ≠ key z := fun hkey => h.1 (hkey ▸ mem_map_of_mem hz)
    simp [hne]

end Raeva.Keyed
