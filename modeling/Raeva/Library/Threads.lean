import Mathlib.Data.Nat.Notation
import Mathlib.Logic.Function.Basic
import Mathlib.Logic.Relation

/-!
# Threads over a shared state

Any number of threads act on one shared state, one atomic action at a time and
in any order.  Each thread has a phase of its own, which only it changes.  An
invariant of the shared state together with an assertion about each thread holds
in every reachable state when a thread's action keeps the invariant, its own
assertion and the assertions of the others.

A log that threads append to is often worked off in batches.  `Consecutive`
says that the batches are blocks of the log that follow one another.
-/

namespace Raeva

open List

structure Threads (ι σ φ : Type*) where
  shared : σ
  phase : ι → φ

namespace Threads

variable {ι σ φ : Type*} [DecidableEq ι]

def Step (act : ι → σ → φ → σ → φ → Prop) (t t' : Threads ι σ φ) : Prop :=
  ∃ i s p, act i t.shared (t.phase i) s p ∧ t' = ⟨s, Function.update t.phase i p⟩

def Reaches (act : ι → σ → φ → σ → φ → Prop) : Threads ι σ φ → Threads ι σ φ → Prop :=
  Relation.ReflTransGen (Step act)

/-- An invariant of the shared state and an assertion about each thread. -/
def Holds (I : σ → Prop) (A : ι → σ → φ → Prop) (t : Threads ι σ φ) : Prop :=
  I t.shared ∧ ∀ i, A i t.shared (t.phase i)

/-- Every action keeps the invariant and all assertions. -/
structure Kept (act : ι → σ → φ → σ → φ → Prop) (I : σ → Prop) (A : ι → σ → φ → Prop) : Prop where
  own : ∀ {i s p s' p'}, I s → A i s p → act i s p s' p' → I s' ∧ A i s' p'
  other : ∀ {i j s p s' p' q}, i ≠ j → I s → A i s p → A j s q → act i s p s' p' → A j s' q

variable {act : ι → σ → φ → σ → φ → Prop} {I : σ → Prop} {A : ι → σ → φ → Prop}
  {t t' : Threads ι σ φ}

theorem Kept.step (h : Kept act I A) (hstep : Step act t t') (ht : Holds I A t) : Holds I A t' := by
  obtain ⟨i, s, p, hact, rfl⟩ := hstep
  obtain ⟨hshared, hthreads⟩ := ht
  obtain ⟨hs, hp⟩ := h.own hshared (hthreads i) hact
  refine ⟨hs, fun j => ?_⟩
  by_cases hji : j = i
  · subst hji
    simpa using hp
  · simp only [Function.update_of_ne hji]
    exact h.other (Ne.symm hji) hshared (hthreads i) (hthreads j) hact

theorem Kept.reaches (h : Kept act I A) (hreach : Reaches act t t') (ht : Holds I A t) :
    Holds I A t' := by
  induction hreach with
  | refl => exact ht
  | tail _ hstep ih => exact h.step hstep ih

/-- A relation on shared states that every action meets relates the ends of a
run. -/
theorem Reaches.rel {R : σ → σ → Prop} (hrefl : ∀ s, R s s)
    (htrans : ∀ a b c, R a b → R b c → R a c) (hact : ∀ i s p s' p', act i s p s' p' → R s s')
    (hreach : Reaches act t t') : R t.shared t'.shared := by
  induction hreach with
  | refl => exact hrefl _
  | tail _ hstep ih =>
    obtain ⟨i, s, p, hstep, rfl⟩ := hstep
    exact htrans _ _ _ ih (hact _ _ _ _ _ hstep)

end Threads

/-! ## Batches of a log -/

/-- Blocks from `first` up to, and without, `upto` that follow one another from
`a` to `c`. -/
inductive Consecutive {β : Type*} (first upto : β → ℕ) : ℕ → List β → ℕ → Prop
  | nil (a : ℕ) : Consecutive first upto a [] a
  | cons {a c : ℕ} {b : β} {rest : List β} (hfirst : first b = a) (hle : a ≤ upto b)
      (hrest : Consecutive first upto (upto b) rest c) : Consecutive first upto a (b :: rest) c

namespace Consecutive

variable {β : Type*} {first upto : β → ℕ} {a c : ℕ} {l : List β}

theorem le (h : Consecutive first upto a l c) : a ≤ c := by
  induction h with
  | nil a => exact Nat.le_refl a
  | cons _ hle _ ih => exact Nat.le_trans hle ih

theorem concat (h : Consecutive first upto a l c) {b : β} (hfirst : first b = c)
    (hle : c ≤ upto b) : Consecutive first upto a (l ++ [b]) (upto b) := by
  induction h with
  | nil a => exact .cons hfirst hle (.nil _)
  | cons hfirst' hle' _ ih => exact .cons hfirst' hle' (ih hfirst hle)

theorem of_concat {b : β} (h : Consecutive first upto a (l ++ [b]) c) :
    Consecutive first upto a l (first b) ∧ first b ≤ upto b ∧ upto b = c := by
  induction l generalizing a with
  | nil =>
    cases h with
    | cons hfirst hle hrest =>
      cases hrest
      subst hfirst
      exact ⟨.nil _, hle, rfl⟩
  | cons b' l ih =>
    cases h with
    | cons hfirst hle hrest =>
      obtain ⟨hl, hb, hc⟩ := ih hrest
      exact ⟨.cons hfirst hle hl, hb, hc⟩

theorem of_append {l' : List β} (h : Consecutive first upto a (l ++ l') c) :
    ∃ b, Consecutive first upto a l b := by
  induction l generalizing a with
  | nil => exact ⟨a, .nil a⟩
  | cons block l ih =>
    cases h with
    | cons hfirst hle hrest =>
      obtain ⟨b, hl⟩ := ih hrest
      exact ⟨b, .cons hfirst hle hl⟩

theorem exists_mem (h : Consecutive first upto a l c) {k : ℕ} (hak : a ≤ k) (hkc : k < c) :
    ∃ b ∈ l, first b ≤ k ∧ k < upto b := by
  induction h with
  | nil a => omega
  | @cons a c b rest hfirst hle hrest ih =>
    by_cases hk : k < upto b
    · exact ⟨b, mem_cons_self, by omega, hk⟩
    · obtain ⟨b', hb', hcovers⟩ := ih (by omega) hkc
      exact ⟨b', mem_cons_of_mem b hb', hcovers⟩

theorem le_of_mem (h : Consecutive first upto a l c) {b : β} (hb : b ∈ l) :
    a ≤ first b ∧ upto b ≤ c := by
  induction h with
  | nil a => cases hb
  | @cons a c b' rest hfirst hle hrest ih =>
    rcases mem_cons.mp hb with rfl | hb
    · exact ⟨by omega, hrest.le⟩
    · obtain ⟨hlower, hupper⟩ := ih hb
      exact ⟨by omega, hupper⟩

theorem index_unique (h : Consecutive first upto a l c) {m n k : ℕ} {b b' : β}
    (hm : l[m]? = some b) (hn : l[n]? = some b') (hb : first b ≤ k ∧ k < upto b)
    (hb' : first b' ≤ k ∧ k < upto b') : m = n := by
  induction h generalizing m n with
  | nil a => cases hm
  | @cons a c b₀ rest hfirst hle hrest ih =>
    have hlater : ∀ {n : ℕ} {b : β}, rest[n]? = some b → upto b₀ ≤ first b := fun hn =>
      (hrest.le_of_mem (mem_of_getElem? hn)).1
    cases m with
    | zero =>
      cases n with
      | zero => rfl
      | succ n =>
        obtain rfl : b₀ = b := by simpa using hm
        have hle' := hlater (by simpa using hn)
        omega
    | succ m =>
      cases n with
      | zero =>
        obtain rfl : b₀ = b' := by simpa using hn
        have hle' := hlater (by simpa using hm)
        omega
      | succ n =>
        have hmn : m = n := ih (by simpa using hm) (by simpa using hn)
        rw [hmn]

end Consecutive

end Raeva
