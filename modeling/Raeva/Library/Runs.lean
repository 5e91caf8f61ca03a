import Mathlib.Data.List.Basic

/-!
# Comparing joined lists run by run

Two lists that are given in runs are compared without joining the runs, a common
length at a time.
-/

namespace Raeva

open List

variable {α : Type} {run : List α} {runs : List (List α)}

/-- Take runs until one holds something. -/
def refill : List α → List (List α) → List α × List (List α)
  | [], run :: runs => refill run runs
  | run, runs => (run, runs)

@[simp] theorem refill_nil (runs : List (List α)) (run : List α) :
    refill [] (run :: runs) = refill run runs :=
  rfl

def remaining (run : List α) (runs : List (List α)) : List α :=
  run ++ runs.flatten

theorem remaining_refill (run : List α) (runs : List (List α)) :
    remaining (refill run runs).1 (refill run runs).2 = remaining run runs := by
  induction runs generalizing run with
  | nil => cases run <;> rfl
  | cons next runs ih =>
    cases run with
    | nil =>
      rw [refill_nil, ih]
      rfl
    | cons a run => rfl

theorem remaining_eq_nil_of_refill (h : (refill run runs).1 = []) : remaining run runs = [] := by
  induction runs generalizing run with
  | nil =>
    cases run with
    | nil => rfl
    | cons a run => cases h
  | cons next runs ih =>
    cases run with
    | nil => exact ih h
    | cons a run => cases h

theorem length_remaining_drop {n : ℕ} (h : (refill run runs).1 ≠ []) (hn : 0 < n) :
    (remaining ((refill run runs).1.drop n) (refill run runs).2).length <
      (remaining run runs).length := by
  rw [← remaining_refill run runs, remaining, remaining, length_append, length_append, length_drop]
  have hpos := length_pos_iff.mpr h
  omega

theorem remaining_eq_take_append (run : List α) (runs : List (List α)) (n : ℕ) :
    remaining run runs =
      (refill run runs).1.take n ++ remaining ((refill run runs).1.drop n) (refill run runs).2 := by
  rw [← remaining_refill run runs, remaining, remaining, ← append_assoc, take_append_drop]

variable [Ord α]

/-- The order of two lists given in runs, the first `n` items of each compared at
once while neither ends before. -/
def compareRuns (a : List α) (ours : List (List α)) (b : List α) (theirs : List (List α)) :
    Ordering :=
  let left := refill a ours
  let right := refill b theirs
  if _hends : left.1 = [] ∨ right.1 = [] then compare left.1.length right.1.length
  else
    let n := min left.1.length right.1.length
    match compare (left.1.take n) (right.1.take n) with
    | .eq => compareRuns (left.1.drop n) left.2 (right.1.drop n) right.2
    | order => order
termination_by (remaining a ours).length
decreasing_by
  rw [not_or] at _hends
  exact length_remaining_drop _hends.1 (Nat.lt_min.mpr
    ⟨length_pos_iff.mpr _hends.1, length_pos_iff.mpr _hends.2⟩)

theorem compare_append_append {x y s t : List α} (h : x.length = y.length) :
    compare (x ++ s) (y ++ t) = (compare x y).then (compare s t) := by
  induction x generalizing y with
  | nil =>
    obtain rfl := length_eq_zero_iff.mp h.symm
    rfl
  | cons a x ih =>
    cases y with
    | nil => cases h
    | cons b y =>
      rw [cons_append, cons_append, List.compare_cons_cons, List.compare_cons_cons,
        ih (Nat.succ.inj h), Ordering.then_assoc]

theorem compareRuns_eq (a : List α) (ours : List (List α)) (b : List α) (theirs : List (List α)) :
    compareRuns a ours b theirs = compare (remaining a ours) (remaining b theirs) := by
  have hlength : ∀ l r : List α, (l.take (min l.length r.length)).length =
      (r.take (min l.length r.length)).length := by
    intro l r
    rw [length_take, length_take]
    omega
  fun_induction compareRuns a ours b theirs with
  | case1 a ours b theirs left right h =>
    -- One side is at its end.
    rcases h with h | h
    · rw [remaining_eq_nil_of_refill h, ← remaining_refill b theirs]
      change compare left.1.length right.1.length = compare [] (remaining right.1 right.2)
      rw [h]
      cases hright : right.1 with
      | nil =>
        rw [← hright, remaining_refill, remaining_eq_nil_of_refill hright, hright]
        rfl
      | cons y ys => rfl
    · rw [remaining_eq_nil_of_refill h, ← remaining_refill a ours]
      change compare left.1.length right.1.length = compare (remaining left.1 left.2) []
      rw [h]
      cases hleft : left.1 with
      | nil =>
        rw [← hleft, remaining_refill, remaining_eq_nil_of_refill hleft, hleft]
        rfl
      | cons x xs => rfl
  | case2 a ours b theirs left right h n heq ih =>
    rw [ih, remaining_eq_take_append a ours n, remaining_eq_take_append b theirs n,
      compare_append_append (hlength _ _)]
    change _ = (compare (left.1.take n) (right.1.take n)).then _
    rw [heq]
    rfl
  | case3 a ours b theirs left right h n hne =>
    rw [remaining_eq_take_append a ours n, remaining_eq_take_append b theirs n,
      compare_append_append (hlength _ _)]
    change compare (left.1.take n) (right.1.take n) =
      (compare (left.1.take n) (right.1.take n)).then _
    cases hcompare : compare (left.1.take n) (right.1.take n) with
    | lt => rfl
    | eq => exact absurd hcompare hne
    | gt => rfl

end Raeva
