import Mathlib.Data.List.Induction
import Raeva.Library.Attempt

/-!
# Checks in order

A loop that checks each element of a list against those before it and stops
at the first fault.  Where the check compares with the first element of the
same key, or with all of them, passing it means that all elements agree,
whatever their order.
-/

namespace Raeva

open List

variable {α κ ε : Type}

def refuseIf (condition : Bool) (fault : ε) : Except ε Unit :=
  if condition then .error fault else .ok ()

variable {β : Type} {l seen : List α} {clash : α → α → Option ε} {key : α → κ} {k : κ} {x : α}
  {step : α → Except ε Unit} {f : α → Except ε β} {ν : Type}

@[simp] theorem refuseIf_eq_ok_iff {condition : Bool} {fault : ε} :
    refuseIf condition fault = .ok () ↔ condition = false := by
  cases condition <;> simp [refuseIf]

theorem exists_of_isOk {x : Except ε β} (h : x.isOk = true) : ∃ b, x = .ok b := by
  cases x with
  | error e => cases h
  | ok b => exact ⟨b, rfl⟩

theorem bind_unit_eq_ok_iff {x : Except ε Unit} {y : Except ε β} {b : β} :
    (x >>= fun _ => y) = .ok b ↔ x = .ok () ∧ y = .ok b := by
  constructor
  · intro h
    obtain ⟨⟨⟩, hx, hy⟩ := bind_eq_ok h
    exact ⟨hx, hy⟩
  · rintro ⟨rfl, rfl⟩
    rfl

theorem mapError_eq_ok_iff {ε' : Type} {f : ε → ε'} {x : Except ε β} {b : β} :
    x.mapError f = .ok b ↔ x = .ok b := by
  cases x <;> simp [Except.mapError]

theorem map_eq_ok_iff {γ : Type} {f : β → γ} {x : Except ε β} {c : γ} :
    x.map f = .ok c ↔ ∃ b, x = .ok b ∧ f b = c := by
  cases x <;> simp [Except.map]

theorem forM_eq_ok_iff : l.forM step = .ok () ↔ ∀ x ∈ l, step x = .ok () := by
  induction l with
  | nil => simp [List.forM, pure, Except.pure]
  | cons y l ih =>
    rw [List.forM, bind_unit_eq_ok_iff, ih, forall_mem_cons]

theorem optionForM_eq_ok_iff {o : Option α} : o.forM step = .ok () ↔ ∀ x ∈ o, step x = .ok () := by
  cases o <;> simp [Option.forM, pure, Except.pure]

theorem mapM_eq_ok_iff {g : α → β} {P : α → Prop} (hf : ∀ a b, f a = .ok b ↔ P a ∧ g a = b)
    {bs : List β} : l.mapM f = .ok bs ↔ (∀ a ∈ l, P a) ∧ l.map g = bs := by
  simp only [mapM_eq_ok_iff_forall₂, hf]
  rw [forall₂_and_left, ← forall₂_eq_eq_eq, forall₂_map_left_iff]

theorem exists_mapM_eq_ok_iff : (∃ l', l.mapM f = .ok l') ↔ ∀ x ∈ l, ∃ y, f x = .ok y := by
  constructor
  · rintro ⟨l', h⟩ x hx
    obtain ⟨y, -, hy⟩ := mem_of_forall₂ (mapM_eq_ok_iff_forall₂.mp h).flip hx
    exact ⟨y, hy⟩
  intro h
  induction l with
  | nil => exact ⟨[], rfl⟩
  | cons x l ih =>
    obtain ⟨⟨y, hy⟩, hl⟩ := forall_mem_cons.mp h
    obtain ⟨ys, hys⟩ := ih hl
    exact ⟨y :: ys, by rw [mapM_cons, hy, hys]; rfl⟩

/-- Check the elements of a list one after the other, each with those seen
before it. -/
def checkEach (step : List α → α → Except ε Unit) : List α → List α → Except ε Unit
  | _, [] => .ok ()
  | seen, x :: rest => do
      step seen x
      checkEach step (seen ++ [x]) rest

theorem checkEach_eq_ok_iff {step : List α → α → Except ε Unit} :
    checkEach step seen l = .ok () ↔
      ∀ before x after, l = before ++ x :: after → step (seen ++ before) x = .ok () := by
  induction l generalizing seen with
  | nil => simp [checkEach]
  | cons y l ih =>
    rw [checkEach]
    constructor
    · intro h before x after heq
      obtain ⟨⟨⟩, hy, hrest⟩ := bind_eq_ok h
      cases before with
      | nil =>
        obtain ⟨rfl, -⟩ := List.cons.inj heq
        simpa using hy
      | cons z before =>
        obtain ⟨rfl, hl⟩ := List.cons.inj heq
        simpa using ih.mp hrest before x after hl
    · intro h
      have hy : step seen y = .ok () := by simpa using h [] y l rfl
      rw [hy]
      refine ih.mpr fun before x after heq => ?_
      simpa using h (y :: before) x after (by rw [heq]; rfl)

/-- Fail with the first fault among elements that were seen. -/
def againstAll (clash : α → α → Option ε) (seen : List α) (x : α) : Except ε Unit :=
  match seen.findSome? fun y => clash y x with
  | some fault => .error fault
  | none => .ok ()

def againstFirst [DecidableEq κ] (key : α → κ) (clash : α → α → Option ε) (seen : List α) (x : α) :
    Except ε Unit :=
  match (seen.find? fun y => key y = key x).bind fun y => clash y x with
  | some fault => .error fault
  | none => .ok ()

theorem againstAll_eq_ok_iff : againstAll clash seen x = .ok () ↔ ∀ y ∈ seen, clash y x = none := by
  rw [againstAll]
  cases h : seen.findSome? fun y => clash y x with
  | none => simpa using findSome?_eq_none_iff.mp h
  | some fault =>
    obtain ⟨y, hy, hclash⟩ := exists_of_findSome?_eq_some h
    simp only [reduceCtorEq, false_iff]
    intro hall
    rw [hall y hy] at hclash
    cases hclash

theorem againstFirst_eq_ok_iff [DecidableEq κ] : againstFirst key clash seen x = .ok () ↔
      ∀ y, (seen.find? fun y => key y = key x) = some y → clash y x = none := by
  rw [againstFirst]
  cases seen.find? fun y => key y = key x with
  | none => simp
  | some y => cases h : clash y x <;> simp [h]

def lookupLast [DecidableEq κ] (key : α → κ) (l : List α) (k : κ) : Option α :=
  l.reverse.find? fun x => key x = k

theorem lookupLast_mem [DecidableEq κ] (h : lookupLast key l k = some x) : x ∈ l ∧ key x = k := by
  have hkey := find?_some h
  exact ⟨mem_reverse.mp (mem_of_find?_eq_some h), of_decide_eq_true hkey⟩

theorem lookupLast_eq_none [DecidableEq κ] (h : lookupLast key l k = none) :
    ∀ x ∈ l, key x ≠ k := by
  intro x hx
  simpa using find?_eq_none.mp h x (mem_reverse.mpr hx)

theorem lookupLast_value [DecidableEq κ] (value : α → ν)
    (h : ∀ a ∈ l, ∀ b ∈ l, key a = key b → value a = value b) (hx : x ∈ l) :
    ∃ y, lookupLast key l (key x) = some y ∧ value y = value x := by
  cases hfind : lookupLast key l (key x) with
  | none => exact absurd rfl (lookupLast_eq_none hfind x hx)
  | some y =>
    obtain ⟨hy, hkey⟩ := lookupLast_mem hfind
    exact ⟨y, rfl, h y hy x hx hkey⟩

theorem lookupLast_eq_some_iff [DecidableEq κ]
    (h : ∀ ⦃a⦄, a ∈ l → ∀ ⦃b⦄, b ∈ l → key a = key b → a = b) :
    lookupLast key l k = some x ↔ x ∈ l ∧ key x = k := by
  refine ⟨lookupLast_mem, ?_⟩
  rintro ⟨hx, rfl⟩
  obtain ⟨y, hy, hyx⟩ := lookupLast_value id (fun _ ha _ hb => h ha hb) hx
  exact hy.trans (congrArg some hyx)

theorem find?_key_mem [DecidableEq κ] {y : α} (h : (l.find? fun y => key y = k) = some y) :
    y ∈ l ∧ key y = k :=
  ⟨mem_of_find?_eq_some h, by simpa using find?_some h⟩

theorem find?_key_eq_some [DecidableEq κ]
    (h : ∀ ⦃a⦄, a ∈ l → ∀ ⦃b⦄, b ∈ l → key a = key b → a = b) (hx : x ∈ l)
    (hk : key x = k) : (l.find? fun y => key y = k) = some x := by
  cases hfind : l.find? fun y => key y = k with
  | none => exact absurd (decide_eq_true hk) (find?_eq_none.mp hfind x hx)
  | some y =>
    obtain ⟨hy, hyk⟩ := find?_key_mem hfind
    rw [h hy hx (hyk.trans hk.symm)]

theorem checkEach_bind_eq_ok_iff {step next : List α → α → Except ε Unit} :
    checkEach (fun seen x => do step seen x; next seen x) [] l = .ok () ↔
      checkEach step [] l = .ok () ∧ checkEach next [] l = .ok () := by
  simp only [checkEach_eq_ok_iff, nil_append, bind_unit_eq_ok_iff]
  constructor
  · intro h
    exact ⟨fun before x after hl => (h before x after hl).1,
      fun before x after hl => (h before x after hl).2⟩
  · rintro ⟨hstep, hnext⟩ before x after hl
    exact ⟨hstep before x after hl, hnext before x after hl⟩

theorem checkEach_const_eq_ok_iff :
    checkEach (fun _ x => step x) [] l = .ok () ↔ ∀ x ∈ l, step x = .ok () := by
  rw [checkEach_eq_ok_iff]
  constructor
  · intro h x hx
    obtain ⟨before, after, hl⟩ := append_of_mem hx
    exact h before x after hl
  · rintro h before x after rfl
    exact h x (by simp)

theorem pairwise_iff_forall_split {R : α → α → Prop} : l.Pairwise R ↔
    ∀ before x after, l = before ++ x :: after → ∀ y ∈ before, R y x := by
  constructor
  · rintro h before x after rfl y hy
    exact (pairwise_append.mp h).2.2 y hy x mem_cons_self
  intro h
  induction l using List.reverseRecOn with
  | nil => exact .nil
  | append_singleton l x ih =>
    refine pairwise_append.mpr ⟨ih fun before y after heq => ?_, pairwise_singleton _ _, ?_⟩
    · exact h before y (after ++ [x]) (by simp [heq])
    · simpa using h l x [] rfl

theorem checkEach_refuseIf_eq_ok_iff [DecidableEq κ] {fault : α → ε} :
    checkEach (fun seen x => refuseIf (seen.any fun y => key y = key x) (fault x)) [] l = .ok () ↔
      (l.map key).Nodup := by
  rw [checkEach_eq_ok_iff, Nodup, pairwise_map, pairwise_iff_forall_split]
  simp only [nil_append, refuseIf_eq_ok_iff, any_eq_false, decide_eq_true_eq, ne_eq]

/-- If each element is checked against all those before it, no two of them
clash. -/
theorem checkEach_againstAll_eq_ok_iff :
    checkEach (againstAll clash) [] l = .ok () ↔ l.Pairwise fun a b => clash a b = none := by
  rw [checkEach_eq_ok_iff, pairwise_iff_forall_split]
  simp only [nil_append, againstAll_eq_ok_iff]

/-- If a check against the first element of the same key compares a value, all
elements of one key have the same value. -/
theorem checkEach_againstFirst_eq_ok_iff [DecidableEq κ] (value : α → ν)
    (hclash : ∀ a b, key a = key b → (clash a b = none ↔ value a = value b)) :
    checkEach (againstFirst key clash) [] l = .ok () ↔
      ∀ a ∈ l, ∀ b ∈ l, key a = key b → value a = value b := by
  rw [checkEach_eq_ok_iff]
  constructor
  · intro h a ha b hb hkey
    -- Each element has the value of the first one of its key.
    have hfirst : ∀ x ∈ l, ∀ y, (l.find? fun z => key z = key x) = some y → value y = value x := by
      intro x hx y hy
      obtain ⟨before, after, rfl⟩ := append_of_mem hx
      have hyx : key y = key x := (find?_key_mem hy).2
      cases hbefore : before.find? fun z => key z = key x with
      | some z =>
        rw [find?_append, hbefore, Option.some_or, Option.some.injEq] at hy
        subst hy
        exact (hclash _ _ hyx).mp
          (againstFirst_eq_ok_iff.mp (h before x after rfl) _ hbefore)
      | none =>
        simp only [find?_append, hbefore, Option.none_or, find?_cons, decide_true,
          Option.some.injEq] at hy
        rw [hy]
    cases hfind : l.find? fun z => key z = key a with
    | none =>
      have := find?_eq_none.mp hfind a ha
      simp at this
    | some y => rw [← hfirst a ha y hfind, hfirst b hb y (hkey ▸ hfind)]
  · rintro h before x after rfl
    refine againstFirst_eq_ok_iff.mpr fun y hy => ?_
    obtain ⟨hy, hkey⟩ := find?_key_mem hy
    exact (hclash y x hkey).mpr (h y (mem_append_left _ hy) x (by simp) hkey)

end Raeva
