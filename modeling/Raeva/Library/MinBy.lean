import Mathlib.Data.List.Forall2

/-!
# Least elements of a list

`Iterator::min_by` and `Iterator::max_by_key` for a comparison that need not
be a lawful order: the elements are compared pairwise from the left.  For a
transitive comparison the result is the first of the least elements, which
removing other elements and appending larger ones do not change.
-/

namespace Raeva

open List

variable {α : Type}

/-- The left fold of `min_by`: the earlier element stays unless it is greater. -/
def minFrom (cmp : α → α → Ordering) (a : α) (l : List α) : α :=
  l.foldl (fun x y => if (cmp x y).isGT then y else x) a

def minBy (cmp : α → α → Ordering) : List α → Option α
  | [] => none
  | a :: l => some (minFrom cmp a l)

def maxByKey (key : α → Nat) : List α → Option α
  | [] => none
  | a :: l => some (l.foldl (fun x y => if key y < key x then x else y) a)

variable {l : List α} {a : α} {cmp cmp' : α → α → Ordering} {l' : List α}

@[simp] theorem minBy_nil (cmp : α → α → Ordering) : minBy cmp [] = none := rfl

@[simp] theorem minBy_cons (cmp : α → α → Ordering) (a : α) (l : List α) :
    minBy cmp (a :: l) = some (minFrom cmp a l) := rfl

@[simp] theorem minFrom_nil (cmp : α → α → Ordering) (a : α) : minFrom cmp a [] = a := rfl

theorem minFrom_cons (cmp : α → α → Ordering) (a b : α) (l : List α) :
    minFrom cmp a (b :: l) = minFrom cmp (if (cmp a b).isGT then b else a) l := rfl

theorem minFrom_mem (cmp : α → α → Ordering) (a : α) (l : List α) : minFrom cmp a l ∈ a :: l := by
  induction l generalizing a with
  | nil => simp
  | cons b l ih =>
    rw [minFrom_cons]
    split
    · exact mem_cons_of_mem a (ih b)
    rcases mem_cons.mp (ih a) with h | h
    · rw [h]
      exact mem_cons_self
    · exact mem_cons_of_mem a (mem_cons_of_mem b h)

theorem mem_of_minBy (h : minBy cmp l = some a) : a ∈ l := by
  cases l with
  | nil => simp at h
  | cons b l =>
    rw [minBy_cons, Option.some.injEq] at h
    exact h ▸ minFrom_mem cmp b l

theorem minBy_isSome (h : l ≠ []) : ∃ a, minBy cmp l = some a := by
  cases l with
  | nil => exact absurd rfl h
  | cons b l => exact ⟨_, rfl⟩

theorem minBy_eq_none_iff : minBy cmp l = none ↔ l = [] := by
  cases l <;> simp

theorem minFrom_congr (h : ∀ x ∈ a :: l, ∀ y ∈ a :: l, cmp x y = cmp' x y) :
    minFrom cmp a l = minFrom cmp' a l := by
  induction l generalizing a with
  | nil => rfl
  | cons b l ih =>
    rw [minFrom_cons, minFrom_cons, ← h a (by simp) b (by simp)]
    split
    · exact ih fun x hx y hy =>
        h x (mem_cons_of_mem a hx) y (mem_cons_of_mem a hy)
    · refine ih fun x hx y hy => h x ?_ y ?_
      · rcases mem_cons.mp hx with rfl | hx <;> simp [*]
      · rcases mem_cons.mp hy with rfl | hy <;> simp [*]

theorem minBy_congr (h : ∀ x ∈ l, ∀ y ∈ l, cmp x y = cmp' x y) : minBy cmp l = minBy cmp' l := by
  cases l with
  | nil => rfl
  | cons a l => rw [minBy_cons, minBy_cons, minFrom_congr h]

theorem minBy_forall₂ {R : α → α → Prop} (hcmp : ∀ a a' b b', R a a' → R b b' → cmp a' b' = cmp a b)
    (h : List.Forall₂ R l l') : Option.Rel R (minBy cmp l) (minBy cmp l') := by
  have hfrom : ∀ {l l' : List α}, List.Forall₂ R l l' → ∀ {a a'}, R a a' →
      R (minFrom cmp a l) (minFrom cmp a' l') := by
    intro l l' h
    induction h with
    | nil => exact id
    | cons hb _ ih =>
      intro a a' ha
      rw [minFrom_cons, minFrom_cons, hcmp _ _ _ _ ha hb]
      split
      · exact ih hb
      · exact ih ha
  cases h with
  | nil => exact .none
  | cons ha h => exact .some (hfrom h ha)

theorem minBy_append (h : minBy cmp l = some a) (hle : ∀ x ∈ l', (cmp a x).isGT = false) :
    minBy cmp (l ++ l') = some a := by
  have hfrom : ∀ l' : List α, (∀ x ∈ l', (cmp a x).isGT = false) → minFrom cmp a l' = a := by
    intro l' hle
    induction l' with
    | nil => rfl
    | cons b l' ih =>
      rw [minFrom_cons, hle b (by simp)]
      exact ih fun x hx => hle x (mem_cons_of_mem b hx)
  cases l with
  | nil => simp at h
  | cons b l =>
    rw [minBy_cons, Option.some.injEq] at h
    rw [cons_append, minBy_cons, Option.some.injEq, minFrom, foldl_append]
    change minFrom cmp (minFrom cmp b l) l' = a
    rw [h]
    exact hfrom l' hle

section TransCmp

variable {cmp : α → α → Ordering} [Std.TransCmp cmp]

/-- The first of the least elements: everything before it is greater, nothing
after it is smaller. -/
def IsFirstMin (cmp : α → α → Ordering) (l : List α) (a : α) : Prop :=
  ∃ before after, l = before ++ a :: after ∧
    (∀ x ∈ before, cmp a x = .lt) ∧ ∀ x ∈ after, (cmp a x).isLE = true

variable {l : List α} {a : α}

private theorem minFrom_spec (cmp : α → α → Ordering) [Std.TransCmp cmp] (a : α)
    (l before after : List α)
    (hbefore : ∀ x ∈ before, cmp a x = .lt) (hafter : ∀ x ∈ after, (cmp a x).isLE = true) :
    IsFirstMin cmp (before ++ a :: (after ++ l)) (minFrom cmp a l) := by
  induction l generalizing a before after with
  | nil => exact ⟨before, after, by simp, hbefore, hafter⟩
  | cons b l ih =>
    rw [minFrom_cons]
    split
    · -- `b` becomes the least: it is below `a`, hence below all that `a` is below.
      rename_i hgt
      have hba : cmp b a = .lt := Std.OrientedCmp.lt_of_gt (Ordering.isGT_iff_eq_gt.mp hgt)
      have hspec := ih b (before ++ a :: after) [] (by
        intro x hx
        rcases mem_append.mp hx with hx | hx
        · exact Std.TransCmp.lt_trans hba (hbefore x hx)
        · rcases mem_cons.mp hx with rfl | hx
          · exact hba
          · exact Std.TransCmp.lt_of_lt_of_isLE hba (hafter x hx)) (by simp)
      simpa using hspec
    · rename_i hgt
      have hle : (cmp a b).isLE = true := by
        cases hab : cmp a b <;> simp_all
      have hspec := ih a before (after ++ [b]) hbefore (by
        intro x hx
        rcases mem_append.mp hx with hx | hx
        · exact hafter x hx
        · rw [mem_singleton.mp hx]
          exact hle)
      simpa using hspec

theorem isFirstMin_of_minBy (h : minBy cmp l = some a) : IsFirstMin cmp l a := by
  cases l with
  | nil => simp at h
  | cons b l =>
    rw [minBy_cons, Option.some.injEq] at h
    subst h
    have hspec := minFrom_spec cmp b l [] [] (by simp) (by simp)
    simpa using hspec

theorem minBy_of_isFirstMin (h : IsFirstMin cmp l a) : minBy cmp l = some a := by
  obtain ⟨before, after, rfl, hbefore, hafter⟩ := h
  have hfrom : ∀ (before : List α) (c : α), cmp a c = .lt → (∀ x ∈ before, cmp a x = .lt) →
      minFrom cmp c (before ++ [a]) = a := by
    intro before
    induction before with
    | nil =>
      intro c hc _
      simp [minFrom_cons, Std.OrientedCmp.gt_of_lt hc]
    | cons b before ih =>
      intro c hc hall
      rw [cons_append, minFrom_cons]
      split
      · exact ih b (hall b (by simp)) fun x hx => hall x (mem_cons_of_mem b hx)
      · exact ih c hc fun x hx => hall x (mem_cons_of_mem b hx)
  have hfirst : minBy cmp (before ++ [a]) = some a := by
    cases before with
    | nil => rfl
    | cons b before =>
      rw [cons_append, minBy_cons, hfrom before b (hbefore b (by simp))
        fun x hx => hbefore x (mem_cons_of_mem b hx)]
  rw [show before ++ a :: after = (before ++ [a]) ++ after by simp]
  refine minBy_append hfirst fun x hx => ?_
  have := hafter x hx
  cases hax : cmp a x <;> simp_all

theorem minBy_cons_of_minBy {b : α} (h : minBy cmp l = some a) :
    minBy cmp (b :: l) = some (if (cmp b a).isLE then b else a) := by
  obtain ⟨before, after, rfl, hbefore, hafter⟩ := isFirstMin_of_minBy h
  apply minBy_of_isFirstMin
  split
  next hle =>
      refine ⟨[], before ++ a :: after, rfl, by simp, ?_⟩
      intro x hx
      rcases mem_append.mp hx with hx | hx
      · exact Std.TransCmp.isLE_trans hle (by simp [hbefore x hx])
      · rcases mem_cons.mp hx with rfl | hx
        · exact hle
        · exact Std.TransCmp.isLE_trans hle (hafter x hx)
  next hgt =>
      have hlt : cmp a b = .lt := by
        apply Std.OrientedCmp.lt_of_gt
        cases hba : cmp b a <;> simp_all
      refine ⟨b :: before, after, rfl, ?_, hafter⟩
      intro x hx
      rcases mem_cons.mp hx with rfl | hx
      · exact hlt
      · exact hbefore x hx

theorem minBy_filter (h : minBy cmp l = some a) {p : α → Bool} (hp : p a = true) :
    minBy cmp (l.filter p) = some a := by
  obtain ⟨before, after, rfl, hbefore, hafter⟩ := isFirstMin_of_minBy h
  refine minBy_of_isFirstMin ⟨before.filter p, after.filter p, by simp [hp], ?_, ?_⟩
  · exact fun x hx => hbefore x ((mem_filter.mp hx).1)
  · exact fun x hx => hafter x ((mem_filter.mp hx).1)

end TransCmp

end Raeva
