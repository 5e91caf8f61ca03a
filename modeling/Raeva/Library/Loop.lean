import Mathlib.Algebra.BigOperators.Group.List.Basic
import Mathlib.Algebra.GroupWithZero.Nat

/-!
# Loops

A loop by what one round can do: end with a result, or go on in another state.  A
run of it is finite, so a loop that has a run from a state ends there.  A function
that recurses on fuel makes such a run where a variant bounds the rounds.
-/

namespace Raeva

variable {σ ρ ρ' : Type*} {step : σ → ρ ⊕ σ → Prop}

inductive Runs (step : σ → ρ ⊕ σ → Prop) : σ → ρ → Prop where
  | done {s : σ} {r : ρ} : step s (.inl r) → Runs step s r
  | next {s s' : σ} {r : ρ} : step s (.inr s') → Runs step s' r → Runs step s r

theorem Runs.invariant (P : σ → Prop) (Q : ρ → Prop) {s : σ} {r : ρ} (h : Runs step s r)
    (hnext : ∀ s s', P s → step s (.inr s') → P s') (hdone : ∀ s r, P s → step s (.inl r) → Q r)
    (hs : P s) : Q r := by
  induction h with
  | done hstep => exact hdone _ _ hs hstep
  | next hstep _ ih => exact ih (hnext _ _ hs hstep)

/-- A loop of at most so many rounds, and `stop` once they run out. -/
def loop (step : σ → ρ ⊕ σ) (stop : σ → ρ) : ℕ → σ → ρ
  | 0, s => stop s
  | n + 1, s => (step s).elim id (loop step stop n)

/-- A function on fuel makes a run to the end, up to a part `π` of the result: every round
takes one unit and lowers the variant `μ`, while `P` holds. -/
theorem Runs.exists_of_fuel (f : ℕ → σ → ρ') (π : ρ → ρ') (P : σ → Prop) (μ : σ → ℕ)
    (hstep : ∀ s, P s → (∃ r, step s (.inl r) ∧ ∀ n, f (n + 1) s = π r) ∨
        ∃ s', step s (.inr s') ∧ P s' ∧ μ s' < μ s ∧ ∀ n, f (n + 1) s = f n s')
    {n : ℕ} {s : σ} (hs : P s) (hn : μ s < n) : ∃ r, Runs step s r ∧ f n s = π r := by
  induction n generalizing s with
  | zero => omega
  | succ n ih =>
    rcases hstep s hs with ⟨r, hr, hf⟩ | ⟨s', hs', hP, hμ, hf⟩
    · exact ⟨r, .done hr, hf n⟩
    · obtain ⟨r, hr, hfr⟩ := ih hP (by omega)
      exact ⟨r, .next hs' hr, (hf n).trans hfr⟩

theorem Runs.of_fuel (f : ℕ → σ → ρ) (P : σ → Prop) (μ : σ → ℕ)
    (hstep : ∀ s, P s → (∃ r, step s (.inl r) ∧ ∀ n, f (n + 1) s = r) ∨
        ∃ s', step s (.inr s') ∧ P s' ∧ μ s' < μ s ∧ ∀ n, f (n + 1) s = f n s')
    {n : ℕ} {s : σ} (hs : P s) (hn : μ s < n) : Runs step s (f n s) := by
  obtain ⟨r, hrun, hr⟩ := Runs.exists_of_fuel f id P μ hstep hs hn
  rw [hr]
  exact hrun

/-- A loop runs to its end where every round lowers the variant `μ`, while `P` holds. -/
theorem runs_loop {round : σ → ρ ⊕ σ} (stop : σ → ρ) (P : σ → Prop) (μ : σ → ℕ)
    (hround : ∀ s s', P s → round s = .inr s' → P s' ∧ μ s' < μ s) {n : ℕ} {s : σ} (hs : P s)
    (hn : μ s < n) : Runs (fun s next => round s = next) s (loop round stop n s) := by
  refine .of_fuel (loop round stop) P μ (fun s hs => ?_) hs hn
  cases hnext : round s with
  | inl r => exact .inl ⟨r, rfl, fun n => by rw [loop, hnext]; rfl⟩
  | inr s' =>
    obtain ⟨hP, hlt⟩ := hround s s' hs hnext
    exact .inr ⟨s', rfl, hP, hlt, fun n => by rw [loop, hnext]; rfl⟩

theorem sum_map_change {α : Type*} {l : List α} {a : α} (f f' : α → ℕ) (hl : l.Nodup) (ha : a ∈ l)
    (h : ∀ v ∈ l, v ≠ a → f v = f' v) : (l.map f).sum + f' a = (l.map f').sum + f a := by
  classical
  have hrest : (l.erase a).map f = (l.erase a).map f' := by
    apply List.map_congr_left
    intro v hv
    obtain ⟨hne, hv⟩ := hl.mem_erase_iff.mp hv
    exact h v hv hne
  have hf := List.sum_map_erase f ha
  have hf' := List.sum_map_erase f' ha
  rw [hrest] at hf
  omega

/-- What the items that are not visited yet weigh. -/
def unvisited {α : Type*} (visited : α → Bool) (weight : α → ℕ) (l : List α) : ℕ :=
  (l.map fun v => if visited v then 0 else weight v).sum

theorem unvisited_update {α : Type*} [DecidableEq α] (visited : α → Bool) (weight : α → ℕ)
    {l : List α} {a : α} (hl : l.Nodup) (ha : a ∈ l) (h : visited a = false) :
    unvisited (Function.update visited a true) weight l + weight a =
      unvisited visited weight l := by
  have hsum := sum_map_change (fun v => if Function.update visited a true v then 0 else weight v)
    (fun v => if visited v then 0 else weight v) hl ha (by
      intro v _ hne
      simp [hne])
  simpa [h, unvisited] using hsum

end Raeva
