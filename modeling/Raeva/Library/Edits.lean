import Mathlib.Data.List.Forall2
import Mathlib.Data.List.InsertIdx

/-!
# Edits of a list at a position

A position that a search of a list returns cuts it into what stands before, the
element found and what follows.  Insertion, removal and update at that position
are then equations between appended lists.
-/

namespace Raeva

variable {α β : Type*} {l as : List α}

theorem findSome?_cons_eq_or (f : α → Option β) (a : α) (l : List α) :
    (a :: l).findSome? f = (f a).or (l.findSome? f) := by
  rw [List.findSome?_cons]
  cases f a <;> rfl

theorem exists_append_of_findIdx? {p : α → Bool} {i : ℕ} (h : l.findIdx? p = some i) :
    ∃ before a after, l = before ++ a :: after ∧ before.length = i ∧ p a = true ∧
      ∀ b ∈ before, p b = false := by
  induction l generalizing i with
  | nil => cases h
  | cons x l ih =>
    rw [List.findIdx?_cons] at h
    split at h
    · rename_i hx
      cases h
      exact ⟨[], x, l, rfl, rfl, hx, by simp⟩
    · rename_i hx
      obtain ⟨j, hj, rfl⟩ := Option.map_eq_some_iff.mp h
      obtain ⟨before, a, after, rfl, rfl, ha, hbefore⟩ := ih hj
      refine ⟨x :: before, a, after, rfl, rfl, ha, fun b hb => ?_⟩
      rcases List.mem_cons.mp hb with rfl | hb
      · simpa using hx
      · exact hbefore b hb

theorem insertIdx_length_append (before after : List α) (a : α) :
    (before ++ after).insertIdx before.length a = before ++ a :: after := by
  induction before with
  | nil => rfl
  | cons x before ih => exact congrArg (x :: ·) ih

theorem eraseIdx_length_append (before after : List α) (a : α) :
    (before ++ a :: after).eraseIdx before.length = before ++ after := by
  induction before with
  | nil => rfl
  | cons x before ih => exact congrArg (x :: ·) ih

theorem mem_of_forall₂ {R : α → β → Prop} {bs : List β} (h : List.Forall₂ R as bs) {b : β}
    (hb : b ∈ bs) : ∃ a ∈ as, R a b := by
  induction h with
  | nil => cases hb
  | cons hR _ ih =>
    rcases List.mem_cons.mp hb with rfl | hb
    · exact ⟨_, List.mem_cons_self, hR⟩
    · obtain ⟨a, ha, hR'⟩ := ih hb
      exact ⟨a, List.mem_cons_of_mem _ ha, hR'⟩

theorem forall₂_modify {R : α → β → Prop} {f : β → β} {bs : List β} (h : List.Forall₂ R as bs)
    (i : ℕ) (hf : ∀ a b, R a b → R a (f b)) : List.Forall₂ R as (bs.modify i f) := by
  induction h generalizing i with
  | nil => simp
  | cons hab hrest ih =>
    cases i with
    | zero => exact .cons (hf _ _ hab) hrest
    | succ i => exact .cons hab (ih i)

theorem forall₂_trans {R : α → α → Prop} (hR : ∀ a b c, R a b → R b c → R a c) {bs cs : List α}
    (hab : List.Forall₂ R as bs) (hbc : List.Forall₂ R bs cs) : List.Forall₂ R as cs := by
  induction hab generalizing cs with
  | nil => exact hbc
  | cons hhead _ ih =>
    cases hbc with
    | cons hhead' htail' => exact .cons (hR _ _ _ hhead hhead') (ih htail')

theorem map_modify_of_eq {f : α → β} {g : α → α} {i : ℕ} (h : ∀ a, l[i]? = some a → f (g a) = f a) :
    (l.modify i g).map f = l.map f := by
  induction l generalizing i with
  | nil => simp
  | cons x l ih =>
    cases i with
    | zero => simpa using h x rfl
    | succ i => simpa using ih fun a ha => h a (by simpa using ha)

end Raeva
