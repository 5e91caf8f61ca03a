import Mathlib.Data.List.Forall2
import Raeva.Library.Attempt

/-!
# Two runs that read alike

A computation records in its state which keys it reads.  A second computation
follows the first when it does the same from every state, as long as the keys
recorded by the end of the first run are keys on which the two agree.  A run
that goes on keeps what was recorded before, so this composes: each part of a
run is repeated under the agreement on the keys of the whole.
-/

namespace Raeva.Attempt

variable {σ ε α β κ : Type}

/-- The computation `m` forgets no recorded key, and `m'` does what `m` does from
every state from which `m` records only keys of `agreed`. -/
structure Replays (reads : σ → κ → Prop) (agreed : κ → Prop) (m m' : Attempt σ ε α) : Prop where
  keeps : ∀ s k, reads s k → reads (m s).2 k
  repeats : ∀ s, (∀ k, reads (m s).2 k → agreed k) → m' s = m s

theorem bind_eq (m : Attempt σ ε α) (f : α → Attempt σ ε β) (s : σ) :
    (m >>= f) s = match m s with
      | (.ok a, t) => f a t
      | (.error e, t) => (.error e, t) :=
  rfl

namespace Replays

variable {reads : σ → κ → Prop} {agreed : κ → Prop}

theorem same {m : Attempt σ ε α} (h : ∀ s k, reads s k → reads (m s).2 k) :
    Replays reads agreed m m :=
  ⟨h, fun _ _ => rfl⟩

theorem pure (a : α) : Replays reads agreed (Pure.pure a : Attempt σ ε α) (Pure.pure a) :=
  same fun _ _ h => h

theorem fail (e : ε) : Replays reads agreed (Attempt.fail e : Attempt σ ε α) (Attempt.fail e) :=
  same fun _ _ h => h

theorem get : Replays reads agreed (Attempt.get : Attempt σ ε σ) Attempt.get :=
  same fun _ _ h => h

theorem modify {f : σ → σ} (hf : ∀ s k, reads s k → reads (f s) k) :
    Replays reads agreed (Attempt.modify f : Attempt σ ε Unit) (Attempt.modify f) :=
  same hf

theorem bind {m m' : Attempt σ ε α} {f f' : α → Attempt σ ε β} (hm : Replays reads agreed m m')
    (hf : ∀ a, Replays reads agreed (f a) (f' a)) :
    Replays reads agreed (m >>= f) (m' >>= f') where
  keeps := by
    intro s k hk
    have hmid := hm.keeps s k hk
    rw [bind_eq]
    rcases hms : m s with ⟨e | a, t⟩
    · simpa [hms] using hmid
    · rw [hms] at hmid
      exact (hf a).keeps t k hmid
  repeats := by
    intro s hs
    rw [bind_eq] at hs
    rw [bind_eq, bind_eq]
    rcases hms : m s with ⟨e | a, t⟩
    · rw [hms] at hs
      rw [hm.repeats s (by rwa [hms]), hms]
    rw [hms] at hs
    have hmid : ∀ k, reads (m s).2 k → agreed k := by
      intro k hk
      rw [hms] at hk
      exact hs k ((hf a).keeps t k hk)
    rw [hm.repeats s hmid, hms]
    exact (hf a).repeats t hs

/-- A read: the key is recorded first, and what follows may depend on what is
found under it. -/
theorem read {k : κ} {f : σ → σ} {m m' : Attempt σ ε α} (hf : ∀ s k', reads s k' → reads (f s) k')
    (hrecords : ∀ s, reads (f s) k) (hm : Replays reads agreed m m)
    (h : agreed k → Replays reads agreed m m') :
    Replays reads agreed (Attempt.modify f >>= fun _ => m) (Attempt.modify f >>= fun _ => m') where
  keeps := (bind (modify hf) fun _ => hm).keeps
  repeats := by
    intro s hs
    have hk : agreed k := hs k (hm.keeps (f s) k (hrecords s))
    exact (h hk).repeats (f s) hs

theorem firstSome {ms ms' : List (Attempt σ ε (Option α))}
    (h : List.Forall₂ (Replays reads agreed) ms ms') :
    Replays reads agreed (Attempt.firstSome ms) (Attempt.firstSome ms') := by
  induction h with
  | nil => exact pure none
  | cons hm _ ih =>
    refine bind hm fun found => ?_
    cases found with
    | some a => exact pure (some a)
    | none => exact ih

theorem foldlM {f f' : β → α → Attempt σ ε β} (hf : ∀ b a, Replays reads agreed (f b a) (f' b a))
    (l : List α) (b : β) : Replays reads agreed (l.foldlM f b) (l.foldlM f' b) := by
  induction l generalizing b with
  | nil => exact pure b
  | cons a l ih => exact bind (hf b a) ih

end Replays

end Raeva.Attempt
