import Raeva.Resolver.Simulation

/-!
# The states of a resolution

The walks a resolution passes through: between two mediations, and after every
action of a mediation, also of one that fails or runs out of fuel.  Each is the
walk of a stage of the machine.
-/

namespace Raeva

namespace Solver

open Stage

variable [Lowercase]

/-- The walks between two mediations, in the resolutions of `root` in which
every action meets `N`. -/
inductive Between (N : Walk → Walk → Prop) (solver : Solver) (root : SolverRoot) : Walk → Prop where
  | start {w : Walk} (h : solver.start root = .ok w) : Between N solver root w
  | mediated {w w₁ w' : Walk} {item : QueueItem} {queue : List QueueItem}
      {outcome : Except ResolveError (Option Resolution)} {fuel : ℕ}
      (h : Between N solver root w) (hpop : popQueue w.queue = some (item, queue))
      (hread : solver.readItem w item queue = (outcome, w₁))
      (hN : ∀ t ∈ (solver.mediate fuel item outcome).steps w₁, N t.1 t.2)
      (hresult : (solver.mediate fuel item outcome).result w₁ = .ok ((), w')) :
      Between N solver root w'
  | walked {w w' : Walk} {queued : Bool} (h : Between N solver root w)
      (hpop : popQueue w.queue = none)
      (hwalk : w.walkExcludedDependencies solver.backend = .ok (w', queued)) :
      Between N solver root w'

inductive Reached (N : Walk → Walk → Prop) (solver : Solver) (root : SolverRoot) : Walk → Prop where
  | between {w : Walk} (h : Between N solver root w) : Reached N solver root w
  | read {w w₁ : Walk} {item : QueueItem} {queue : List QueueItem}
      {outcome : Except ResolveError (Option Resolution)}
      (h : Between N solver root w) (hpop : popQueue w.queue = some (item, queue))
      (hread : solver.readItem w item queue = (outcome, w₁)) : Reached N solver root w₁
  | action {w w₁ : Walk} {item : QueueItem} {queue : List QueueItem}
      {outcome : Except ResolveError (Option Resolution)} {fuel : ℕ} {t : Walk × Walk}
      (h : Between N solver root w) (hpop : popQueue w.queue = some (item, queue))
      (hread : solver.readItem w item queue = (outcome, w₁))
      (hN : ∀ t ∈ (solver.mediate fuel item outcome).steps w₁, N t.1 t.2)
      (ht : t ∈ (solver.mediate fuel item outcome).steps w₁) : Reached N solver root t.2

abbrev anyStep : Walk → Walk → Prop :=
  fun _ _ => True

variable {N : Walk → Walk → Prop} {solver : Solver} {root : SolverRoot} {w : Walk} {fuel : ℕ}
  {graph : Graph} {w₁ : Walk} {item : QueueItem} {queue : List QueueItem}
  {outcome : Except ResolveError (Option Resolution)}

theorem readItem_spec (hcache : solver.backend.Supports w.relocations)
    (h : solver.readItem w item queue = (outcome, w₁)) :
    (∃ relocations, solver.backend.Supports relocations ∧ w₁ = { w with queue, relocations }) ∧
      ∀ r, outcome = .ok (some r) → r.ReadOf solver item := by
  unfold readItem at h
  have hcache' := resolveItem_keeps solver item _ hcache
  rcases hresolve : resolveItem solver item w.relocations with ⟨result, relocations⟩
  rw [hresolve] at hcache'
  simp only [hresolve, Prod.mk.injEq] at h
  obtain ⟨houtcome, rfl⟩ := h
  refine ⟨⟨relocations, hcache', rfl⟩, fun r hr => ?_⟩
  cases result with
  | error e =>
    rw [← houtcome] at hr
    cases hr
  | ok found =>
    rw [← houtcome] at hr
    cases hr
    exact resolveItem_readOf ⟨_, _, hcache, hresolve⟩

theorem Visits.read (h : Visits N solver root none ∅ w)
    (hpop : popQueue w.queue = some (item, queue))
    (hread : solver.readItem w item queue = (outcome, w₁)) :
    Visits N solver root none {r | r.ReadOf solver item ∧ w₁.isLive item = true} w₁ := by
  obtain ⟨⟨relocations, hcache, rfl⟩, -⟩ := readItem_spec (Stage.Reach.supports h) hread
  exact Reach.turn h (.read hpop relocations hcache)

theorem Between.visits (h : Between N solver root w) :
    Visits N solver root none ∅ w ∧ w.dirty = [] := by
  induction h with
  | start h =>
    obtain ⟨node, hqueues⟩ := start_queues h
    refine ⟨Reach.start h, ?_⟩
    rw [hqueues.frame]
    rfl
  | mediated _ hpop hread hN hresult ih =>
    have hvisits := ih.1.read hpop hread
    obtain ⟨⟨relocations, -, rfl⟩, houtcome⟩ := readItem_spec (Stage.Reach.supports ih.1) hread
    exact ((mediate_triple houtcome _ hvisits.seen ⟨hvisits, ih.2⟩ hN).2 _ _ hresult).2
  | walked _ hpop hwalk ih =>
    refine ⟨Reach.turn ih.1 (.walked hwalk), ?_⟩
    rw [(Walk.walkExcludedDependencies_queues hwalk).frame]
    exact ih.2

theorem Reached.seen (h : Reached N solver root w) : Seen N solver root w := by
  cases h with
  | between h => exact h.visits.1.seen
  | read h hpop hread => exact (h.visits.1.read hpop hread).seen
  | action h hpop hread hN ht =>
    have hvisits := h.visits.1.read hpop hread
    obtain ⟨⟨relocations, -, rfl⟩, houtcome⟩ :=
      readItem_spec (Stage.Reach.supports h.visits.1) hread
    exact (mediate_triple houtcome _ hvisits.seen ⟨hvisits, h.visits.2⟩ hN).1 _ ht

theorem Reached.sound (h : Reached N solver root w) : w.Sound := by
  obtain ⟨e, hand, hvisits⟩ := h.seen
  exact hvisits.sound

theorem solveFrom_between (h : Between anyStep solver root w)
    (hsolve : solver.solveFrom fuel w = .ok graph) :
    ∃ w', Between anyStep solver root w' ∧ w'.finish solver.backend = .ok graph := by
  induction fuel generalizing w with
  | zero => cases hsolve
  | succ fuel ih =>
    unfold solveFrom at hsolve
    cases hpop : popQueue w.queue with
    | some p =>
      obtain ⟨item, queue⟩ := p
      simp only [hpop] at hsolve
      obtain ⟨⟨⟨⟩, w'⟩, hresult, hsolve⟩ := bind_eq_ok hsolve
      exact ih (.mediated h hpop rfl (fun _ _ => trivial) hresult) hsolve
    | none =>
      simp only [hpop] at hsolve
      obtain ⟨⟨w', queued⟩, hwalk, hsolve⟩ := bind_eq_ok hsolve
      have hbetween := Between.walked h hpop hwalk
      cases queued with
      | true => exact ih hbetween hsolve
      | false =>
        obtain ⟨-, -, hfinish⟩ := bind_eq_ok hsolve
        refine ⟨w', hbetween, ?_⟩
        cases hf : w'.finish solver.backend with
        | error e => simp [hf, Except.mapError] at hfinish
        | ok g => simpa [hf, Except.mapError] using hfinish

theorem solve_between (h : solver.solve fuel root = .ok graph) :
    ∃ w, Between anyStep solver root w ∧ w.finish solver.backend = .ok graph := by
  unfold solve at h
  obtain ⟨w, hstart, hsolve⟩ := bind_eq_ok h
  cases hs : solver.start root with
  | error e => simp [hs, Except.mapError] at hstart
  | ok w₀ =>
    simp only [hs, Except.mapError, Except.ok.injEq] at hstart
    subst hstart
    exact solveFrom_between (.start hs) hsolve

end Solver

end Raeva
