import Mathlib.Init
import Mathlib.Tactic.TypeStar

/-!
# Runs of a stateful procedure

A procedure that acts on a state in atomic actions, any of which may fail.  A
run records every action as the states before and after it, also when the
procedure fails later, so that a property of all reachable states can be stated
of the run itself.  `Run.Triple` is the partial-correctness judgement: it
carries an assumption about all steps, an invariant of all reached states, a
precondition and a postcondition.
-/

namespace Raeva

open List

/-- A procedure on `σ` that may fail with `ε`: its steps, in order, each with
the states before and after it, and how it ends. -/
def Run (σ ε α : Type) : Type :=
  σ → List (σ × σ) × Except ε (α × σ)

namespace Run

variable {σ ε α β : Type}

def pure (a : α) : Run σ ε α :=
  fun s => ([], .ok (a, s))

def bind (m : Run σ ε α) (k : α → Run σ ε β) : Run σ ε β :=
  fun s =>
    match m s with
    | (seen, .error e) => (seen, .error e)
    | (seen, .ok (a, s')) => (seen ++ (k a s').1, (k a s').2)

instance : Monad (Run σ ε) where
  pure := Run.pure
  bind := Run.bind

def fail (e : ε) : Run σ ε α :=
  fun _ => ([], .error e)

def read (f : σ → α) : Run σ ε α :=
  fun s => ([], .ok (f s, s))

def check (f : σ → Except ε α) : Run σ ε α :=
  fun s => ([], (f s).map fun a => (a, s))

def act (f : σ → Except ε (α × σ)) : Run σ ε α :=
  fun s =>
    match f s with
    | .error e => ([], .error e)
    | .ok (a, s') => ([(s, s')], .ok (a, s'))

def step (f : σ → Except ε σ) : Run σ ε Unit :=
  act fun s => (f s).map fun s' => ((), s')

def modify (f : σ → σ) : Run σ ε Unit :=
  step fun s => .ok (f s)

def each (f : α → Run σ ε Unit) : List α → Run σ ε Unit
  | [] => Run.pure ()
  | a :: rest => Run.bind (f a) fun _ => each f rest

def steps (m : Run σ ε α) (s : σ) : List (σ × σ) :=
  (m s).1

def result (m : Run σ ε α) (s : σ) : Except ε (α × σ) :=
  (m s).2

section Triple

variable (N : σ → σ → Prop) (I : σ → Prop)

/-- From a state with `I` and `P`, as long as all steps meet the assumption
`N`: all steps lead to states with `I`, and a normal end has `Q`. -/
def Triple (P : σ → Prop) (m : Run σ ε α) (Q : α → σ → Prop) : Prop :=
  ∀ s, I s → P s → (∀ t ∈ m.steps s, N t.1 t.2) →
    (∀ t ∈ m.steps s, I t.2) ∧ ∀ a s', m.result s = .ok (a, s') → I s' ∧ Q a s'

variable {N I}

variable {P : σ → Prop} {m : Run σ ε α} {Q : α → σ → Prop} {k : α → Run σ ε β}

theorem Triple.pure {a : α} (h : ∀ s, I s → P s → Q a s) :
    Triple N I P (Pure.pure a : Run σ ε α) Q := by
  intro s hI hP _
  refine ⟨fun t ht => absurd ht not_mem_nil, ?_⟩
  intro a' s' heq
  cases heq
  exact ⟨hI, h s hI hP⟩

theorem Triple.fail {P : σ → Prop} {Q : α → σ → Prop} {e : ε} :
    Triple N I P (Run.fail e : Run σ ε α) Q := by
  intro s _ _ _
  exact ⟨fun t ht => absurd ht not_mem_nil, fun a s' heq => by cases heq⟩

theorem Triple.read {P : σ → Prop} {Q : α → σ → Prop} {f : σ → α}
    (h : ∀ s, I s → P s → Q (f s) s) : Triple N I P (Run.read f : Run σ ε α) Q := by
  intro s hI hP _
  refine ⟨fun t ht => absurd ht not_mem_nil, ?_⟩
  intro a' s' heq
  cases heq
  exact ⟨hI, h s hI hP⟩

theorem Triple.check {f : σ → Except ε α} (h : ∀ s a, I s → P s → f s = .ok a → Q a s) :
    Triple N I P (Run.check f) Q := by
  intro s hI hP _
  refine ⟨fun t ht => absurd ht not_mem_nil, ?_⟩
  intro a s' heq
  simp only [result, Run.check] at heq
  cases hf : f s with
  | error e => simp [hf, Except.map] at heq
  | ok b =>
    simp only [hf, Except.map, Except.ok.injEq, Prod.mk.injEq] at heq
    obtain ⟨rfl, rfl⟩ := heq
    exact ⟨hI, h s b hI hP hf⟩

theorem Triple.act {f : σ → Except ε (α × σ)}
    (h : ∀ s a s', N s s' → I s → P s → f s = .ok (a, s') → I s' ∧ Q a s') :
    Triple N I P (Run.act f) Q := by
  intro s hI hP hsteps
  simp only [steps, result, Run.act] at hsteps ⊢
  cases hf : f s with
  | error e => exact ⟨by simp, by simp⟩
  | ok p =>
    obtain ⟨a, s'⟩ := p
    simp only [hf, mem_singleton, forall_eq] at hsteps ⊢
    obtain ⟨hI', hQ⟩ := h s a s' hsteps hI hP hf
    refine ⟨hI', fun b t heq => ?_⟩
    cases heq
    exact ⟨hI', hQ⟩

theorem Triple.step {Q : Unit → σ → Prop} {f : σ → Except ε σ}
    (h : ∀ s s', N s s' → I s → P s → f s = .ok s' → I s' ∧ Q () s') :
    Triple N I P (Run.step f) Q := by
  refine Triple.act fun s a s' hN hI hP heq => ?_
  cases hf : f s with
  | error e => simp [hf, Except.map] at heq
  | ok t =>
    simp only [hf, Except.map, Except.ok.injEq, Prod.mk.injEq] at heq
    obtain ⟨-, rfl⟩ := heq
    exact h s t hN hI hP hf

theorem Triple.modify {Q : Unit → σ → Prop} {f : σ → σ}
    (h : ∀ s, N s (f s) → I s → P s → I (f s) ∧ Q () (f s)) :
    Triple N I P (Run.modify f : Run σ ε Unit) Q := by
  refine Triple.step fun s s' hN hI hP heq => ?_
  cases heq
  exact h s hN hI hP

theorem Triple.bind {R : α → σ → Prop} {Q : β → σ → Prop} (hm : Triple N I P m R)
    (hk : ∀ a, Triple N I (R a) (k a) Q) : Triple N I P (m >>= k) Q := by
  intro s hI hP hsteps
  have hunfold : (m >>= k) s = Run.bind m k s := rfl
  simp only [steps, result, hunfold, Run.bind] at hsteps ⊢
  rcases hms : m s with ⟨seen, e | ⟨a, s'⟩⟩
  · simp only [hms] at hsteps ⊢
    have hm' := hm s hI hP (by simpa [steps, hms] using hsteps)
    refine ⟨by simpa [steps, hms] using hm'.1, by simp⟩
  simp only [hms] at hsteps ⊢
  have hseen : ∀ t ∈ m.steps s, N t.1 t.2 := by
    intro t ht
    exact hsteps t (mem_append_left _ (by simpa [steps, hms] using ht))
  obtain ⟨hfirst, hend⟩ := hm s hI hP hseen
  obtain ⟨hI', hR⟩ := hend a s' (by simp [result, hms])
  obtain ⟨hrest, hlast⟩ := hk a s' hI' hR
    fun t ht => hsteps t (mem_append_right _ ht)
  refine ⟨?_, hlast⟩
  intro t ht
  rcases mem_append.mp ht with ht | ht
  · exact hfirst t (by simpa [steps, hms] using ht)
  · exact hrest t ht

/-- A read keeps what holds. -/
theorem Triple.bind_read {Q : β → σ → Prop} {f : σ → α} (hk : ∀ a, Triple N I P (k a) Q) :
    Triple N I P (Run.read f >>= k) Q :=
  Triple.bind (Triple.read fun _ _ h => h) hk

theorem Triple.skip {a : α} : Triple N I P (Pure.pure a : Run σ ε α) fun _ => P :=
  Triple.pure fun _ _ h => h

theorem Triple.pre {P' : σ → Prop} (hP : ∀ s, I s → P s → P' s) (hm : Triple N I P' m Q) :
    Triple N I P m Q :=
  fun s hI hPs => hm s hI (hP s hI hPs)

theorem Triple.post {Q' : α → σ → Prop} (hm : Triple N I P m Q')
    (hQ : ∀ a s, I s → Q' a s → Q a s) : Triple N I P m Q := by
  intro s hI hP hsteps
  obtain ⟨hfirst, hend⟩ := hm s hI hP hsteps
  refine ⟨hfirst, fun a s' heq => ?_⟩
  obtain ⟨hI', hQ'⟩ := hend a s' heq
  exact ⟨hI', hQ a s' hI' hQ'⟩

theorem Triple.of_pre {p : Prop} (h : p → Triple N I P m Q) : Triple N I (fun s => p ∧ P s) m Q :=
  fun s hI hP => h hP.1 s hI hP.2

theorem Triple.each {f : α → Run σ ε Unit} {l : List α}
    (h : ∀ a ∈ l, Triple N I P (f a) fun _ => P) : Triple N I P (Run.each f l) fun _ => P := by
  induction l with
  | nil => exact Triple.skip
  | cons a rest ih =>
    exact Triple.bind (h a mem_cons_self)
      fun _ => ih fun b hb => h b (mem_cons_of_mem a hb)

end Triple

end Run

end Raeva
