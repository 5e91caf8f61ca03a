import Mathlib.Init
import Mathlib.Tactic.TypeStar

/-!
# Comparing lists run by run

A list whose elements have one of two kinds is a sequence of runs, each of one
kind.  Two lists are compared run by run, the shorter run filled up with the
padding of its kind.  This is a total preorder on all lists if the comparison
of elements is one.
-/

namespace Raeva

section Padded

variable {σ α : Type}

theorem then_isLE_trans (cmp : α → α → Ordering) [Std.TransCmp cmp] {x y z : α}
    {r r' r'' : Ordering}
    (hr : r.isLE = true → r'.isLE = true → r''.isLE = true)
    (h : ((cmp x y).then r).isLE = true) (h' : ((cmp y z).then r').isLE = true) :
    ((cmp x z).then r'').isLE = true := by
  rw [Ordering.isLE_then_iff_or] at h h' ⊢
  rcases h with h | ⟨h, hle⟩ <;> rcases h' with h' | ⟨h', hle'⟩
  · exact .inl (Std.TransCmp.lt_trans h h')
  · exact .inl (Std.TransCmp.lt_of_lt_of_eq h h')
  · exact .inl (Std.TransCmp.lt_of_eq_of_lt h h')
  · exact .inr ⟨Std.TransCmp.eq_trans h h', hr hle hle'⟩

/-- A comparison that looks at the heads of two lists, or at the padding where one has ended, and
goes on with their tails is a total preorder. -/
theorem transCmp_of_heads (f : σ → List α → List α → Ordering) (cmp : σ → α → α → Ordering)
    (pad : σ → α) (next : σ → σ) [∀ s, Std.TransCmp (cmp s)] (hnil : ∀ s, f s [] [] = .eq)
    (hstep : ∀ s l l', f s l l' =
      (cmp s (l.headD (pad s)) (l'.headD (pad s))).then (f (next s) l.tail l'.tail)) (s : σ) :
    Std.TransCmp (f s) := by
  have htail : ∀ {n : Nat} {l : List α}, l.length ≤ n + 1 → l.tail.length ≤ n := by
    intro n l hl
    rw [List.length_tail]
    omega
  have hswap : ∀ n s l l', l.length ≤ n → l'.length ≤ n → f s l l' = (f s l' l).swap := by
    intro n
    induction n with
    | zero =>
      intro s l l' hl hl'
      rw [List.length_eq_zero_iff.mp (Nat.le_zero.mp hl),
        List.length_eq_zero_iff.mp (Nat.le_zero.mp hl'), hnil]
      rfl
    | succ n ih =>
      intro s l l' hl hl'
      have hhead : (cmp s (l'.headD (pad s)) (l.headD (pad s))).swap =
          cmp s (l.headD (pad s)) (l'.headD (pad s)) := Std.OrientedCmp.eq_swap.symm
      rw [hstep s l l', hstep s l' l, Ordering.swap_then, hhead, ih _ _ _ (htail hl) (htail hl')]
  have htrans : ∀ n s l l' l'', l.length ≤ n → l'.length ≤ n → l''.length ≤ n →
      (f s l l').isLE = true → (f s l' l'').isLE = true → (f s l l'').isLE = true := by
    intro n
    induction n with
    | zero =>
      intro s l l' l'' hl _ hl'' _ _
      rw [List.length_eq_zero_iff.mp (Nat.le_zero.mp hl),
        List.length_eq_zero_iff.mp (Nat.le_zero.mp hl''), hnil]
      rfl
    | succ n ih =>
      intro s l l' l'' hl hl' hl''
      rw [hstep s l l', hstep s l' l'', hstep s l l'']
      exact then_isLE_trans (cmp s) (ih _ _ _ _ (htail hl) (htail hl') (htail hl''))
  exact
    { eq_swap := hswap _ s _ _ (Nat.le_max_left _ _) (Nat.le_max_right _ _)
      isLE_trans := fun {l l' l''} =>
        htrans (l.length + l'.length + l''.length) s l l' l'' (by omega) (by omega) (by omega) }

end Padded

/-! ## Runs -/

section Alternating

variable {α : Type} (kind : α → Bool)

def continuesRun (b : Bool) (l : List α) : Bool :=
  l.head?.any fun x => kind x == b

/-- Put an element at the start of the first run. -/
def consHead (x : α) : List (List α) → List (List α)
  | [] => [[x]]
  | r :: rs => (x :: r) :: rs

/-- The runs of a list, of alternating kinds from `b` on; the first is empty if
the list starts with the other kind. -/
def alternating : Bool → List α → List (List α)
  | _, [] => []
  | b, x :: l =>
    if kind x = b then consHead x (alternating b l) else [] :: consHead x (alternating (!b) l)

variable (pad : Bool → α) (cmp : α → α → Ordering)

def paddedCmp (p : α) : List α → List α → Ordering
  | [], [] => .eq
  | x :: r, [] => (cmp x p).then (paddedCmp p r [])
  | [], y :: r' => (cmp p y).then (paddedCmp p [] r')
  | x :: r, y :: r' => (cmp x y).then (paddedCmp p r r')

def runsCmp : Bool → List (List α) → List (List α) → Ordering
  | _, [], [] => .eq
  | b, r :: rs, [] => (paddedCmp cmp (pad b) r []).then (runsCmp (!b) rs [])
  | b, [], r' :: rs' => (paddedCmp cmp (pad b) [] r').then (runsCmp (!b) [] rs')
  | b, r :: rs, r' :: rs' => (paddedCmp cmp (pad b) r r').then (runsCmp (!b) rs rs')

variable {kind pad cmp} {b : Bool} {l l' : List α}

instance [Std.TransCmp cmp] (p : α) : Std.TransCmp (paddedCmp cmp p) := by
  refine transCmp_of_heads (fun _ : Unit => paddedCmp cmp p) (fun _ => cmp) (fun _ => p) id
    (fun _ => by rw [paddedCmp]) (fun _ l l' => ?_) ()
  have hrefl : cmp p p = .eq := Std.ReflCmp.compare_self
  cases l <;> cases l' <;> simp [paddedCmp, hrefl]

instance [Std.TransCmp cmp] (b : Bool) : Std.TransCmp (runsCmp pad cmp b) := by
  refine transCmp_of_heads (runsCmp pad cmp) (fun b => paddedCmp cmp (pad b)) (fun _ => []) not
    (fun _ => by rw [runsCmp]) (fun _ l l' => ?_) b
  cases l <;> cases l' <;> simp [runsCmp, paddedCmp]

theorem runsCmp_consHead (x y : α) (rs rs' : List (List α)) :
    runsCmp pad cmp b (consHead x rs) (consHead y rs') =
      (cmp x y).then (runsCmp pad cmp b rs rs') := by
  cases rs <;> cases rs' <;> simp [consHead, runsCmp, paddedCmp, Ordering.then_assoc]

theorem alternating_of_not_continues (h : continuesRun kind b l = false) :
    (l = [] ∧ alternating kind b l = []) ∨
      alternating kind b l = [] :: alternating kind (!b) l := by
  cases l with
  | nil => exact .inl ⟨rfl, rfl⟩
  | cons x l =>
    have hx : kind x ≠ b := by simpa [continuesRun] using h
    have hx' : kind x = !b := by simpa [Bool.eq_not] using hx
    exact .inr (by simp [alternating, hx'])

/-- The lists compared run by run, from a run of kind `b` on. -/
def runCmp (kind : α → Bool) (pad : Bool → α) (cmp : α → α → Ordering) (b : Bool)
    (l l' : List α) : Ordering :=
  runsCmp pad cmp b (alternating kind b l) (alternating kind b l')

instance [Std.TransCmp cmp] (b : Bool) : Std.TransCmp (runCmp kind pad cmp b) where
  eq_swap := (inferInstance : Std.TransCmp (runsCmp pad cmp b)).eq_swap
  isLE_trans := (inferInstance : Std.TransCmp (runsCmp pad cmp b)).isLE_trans

@[simp] theorem runCmp_nil : runCmp kind pad cmp b [] [] = .eq := by
  rw [runCmp, alternating, runsCmp]

theorem runCmp_flip (h : continuesRun kind b l = false) (h' : continuesRun kind b l' = false) :
    runCmp kind pad cmp b l l' = runCmp kind pad cmp (!b) l l' := by
  rw [runCmp, runCmp]
  rcases alternating_of_not_continues h with ⟨rfl, h⟩ | h <;>
    rcases alternating_of_not_continues h' with ⟨rfl, h'⟩ | h' <;>
      simp [h, h', runsCmp, paddedCmp, alternating]

theorem runCmp_cons_cons {x y : α} (hx : kind x = b) (hy : kind y = b) :
    runCmp kind pad cmp b (x :: l) (y :: l') = (cmp x y).then (runCmp kind pad cmp b l l') := by
  rw [runCmp, alternating, alternating, if_pos hx, if_pos hy, runsCmp_consHead, runCmp]

/-- An element of a run that the other list does not go on with is compared with the padding. -/
theorem runCmp_cons {x : α} (hx : kind x = b) (h' : continuesRun kind b l' = false) :
    runCmp kind pad cmp b (x :: l) l' = (cmp x (pad b)).then (runCmp kind pad cmp b l l') := by
  rw [runCmp, alternating, if_pos hx, runCmp]
  rcases alternating_of_not_continues h' with ⟨-, h'⟩ | h' <;> rw [h'] <;>
    cases alternating kind b l <;> simp [consHead, runsCmp, paddedCmp, Ordering.then_assoc]

end Alternating

end Raeva
