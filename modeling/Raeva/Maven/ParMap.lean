import Mathlib.Algebra.BigOperators.Fin
import Mathlib.Algebra.Order.Group.Multiset
import Raeva.Library.Threads

/-!
# Mapping a list on several threads

The threads of `par_map` take the next index from one shared counter until it has
passed the end of the list.  Each keeps its results with their indices, and the
caller puts them in place once every thread is done.
-/

namespace Raeva.ParMap

variable {α ρ : Type}

inductive Phase (ρ : Type) where
  | claiming (done : List (ℕ × ρ))
  | mapping (index : ℕ) (done : List (ℕ × ρ))
  | finished (done : List (ℕ × ρ))

namespace Phase

def done : Phase ρ → List (ℕ × ρ)
  | claiming done | mapping _ done | finished done => done

/-- The indices the thread took from the counter and found in the list. -/
def claimed : Phase ρ → List ℕ
  | claiming done | finished done => done.map Prod.fst
  | mapping index done => index :: done.map Prod.fst

/-- The turns the thread has left once every index is claimed. -/
def turns : Phase ρ → ℕ
  | claiming _ => 1
  | mapping _ _ => 2
  | finished _ => 0

end Phase

/-- One turn of a worker on the shared counter: it claims an index, or maps the
item it claimed. -/
inductive Work (items : List α) (f : α → ρ) : ℕ → Phase ρ → ℕ → Phase ρ → Prop
  | claim {next : ℕ} {done : List (ℕ × ρ)} (h : next < items.length) :
    Work items f next (.claiming done) (next + 1) (.mapping next done)
  | stop {next : ℕ} {done : List (ℕ × ρ)} (h : items.length ≤ next) :
    Work items f next (.claiming done) (next + 1) (.finished done)
  | map {next index : ℕ} {done : List (ℕ × ρ)} {item : α} (h : items[index]? = some item) :
    Work items f next (.mapping index done) next (.claiming (done ++ [(index, f item)]))

/-- Workers that never started have not moved from their first phase. -/
def start (workers : ℕ) : Threads (Fin workers) ℕ (Phase ρ) :=
  ⟨0, fun _ => .claiming []⟩

def place (out : List (Option ρ)) (done : List (ℕ × ρ)) : List (Option ρ) :=
  done.foldl (fun out result => out.set result.1 (some result.2)) out

/-- What the caller returns once it has joined the workers; `none` stands for the
failed expectation. -/
def collect {workers : ℕ} (items : List α) (t : Threads (Fin workers) ℕ (Phase ρ)) :
    Option (List ρ) :=
  let out := (List.finRange workers).foldl (fun out i => place out (t.phase i).done)
    (List.replicate items.length none)
  out.mapM id

def maxParMapThreads : ℕ := 8

def threads (available : ℕ) (items : List α) : ℕ :=
  min (min available maxParMapThreads) items.length

/-- What `par_map` may return where `available` threads run in parallel: the
caller works alone, or with as many workers as could be spawned until all are
done. -/
inductive Returns (available : ℕ) (items : List α) (f : α → ρ) : Option (List ρ) → Prop
  | alone (h : threads available items ≤ 1) : Returns available items f (some (items.map f))
  | joined {spawned : ℕ} {t : Threads (Fin (spawned + 1)) ℕ (Phase ρ)}
    (h : 1 < threads available items) (hspawned : spawned < threads available items)
    (hrun : Threads.Reaches (fun _ => Work items f) (start (spawned + 1)) t)
    (hended : ∀ i, (t.phase i).turns = 0) : Returns available items f (collect items t)

variable {items : List α} {f : α → ρ} {workers : ℕ} {t t' : Threads (Fin workers) ℕ (Phase ρ)}

/-- The turns left: two for each index that is not claimed, and those of the
threads. -/
def remaining (items : List α) (t : Threads (Fin workers) ℕ (Phase ρ)) : ℕ :=
  2 * (items.length - t.shared) + ∑ i, (t.phase i).turns

/-- Each index is claimed by one thread once the counter has passed it. -/
def ClaimedOnce (items : List α) (t : Threads (Fin workers) ℕ (Phase ρ)) : Prop :=
  ∀ k, ∑ i, (t.phase i).claimed.count k = if k < t.shared ∧ k < items.length then 1 else 0

/-- What holds of a thread by itself: its results are those of the items, an index
it maps is in the list, and it ended because the counter had passed the list. -/
structure Sound (items : List α) (f : α → ρ) (next : ℕ) (p : Phase ρ) : Prop where
  done : ∀ result ∈ p.done, items[result.1]?.map f = some result.2
  mapping : ∀ index done, p = .mapping index done → index < items.length
  ended : p.turns = 0 → items.length ≤ next

theorem sum_update (g : Phase ρ → ℕ) (phase : Fin workers → Phase ρ) (i : Fin workers)
    (p : Phase ρ) :
    ∑ j, g (Function.update phase i p j) + g (phase i) = ∑ j, g (phase j) + g p := by
  have hothers : ∑ j ∈ Finset.univ.erase i, g (Function.update phase i p j) =
      ∑ j ∈ Finset.univ.erase i, g (phase j) :=
    Finset.sum_congr rfl fun j hj => by rw [Function.update_of_ne (Finset.ne_of_mem_erase hj)]
  rw [← Finset.add_sum_erase _ _ (Finset.mem_univ i),
    ← Finset.add_sum_erase _ (fun j => g (phase j)) (Finset.mem_univ i), Function.update_self,
    hothers]
  omega

theorem step_remaining (h : Threads.Step (fun _ => Work items f) t t') :
    remaining items t' + 1 = remaining items t := by
  obtain ⟨i, next, p, hwork, rfl⟩ := h
  have hsum := sum_update Phase.turns t.phase i p
  generalize t.phase i = q at hwork hsum
  rw [remaining, remaining]
  cases hwork <;> simp only [Phase.turns] at hsum ⊢ <;> omega

theorem ClaimedOnce.step (h : Threads.Step (fun _ => Work items f) t t')
    (ht : ClaimedOnce items t) : ClaimedOnce items t' := by
  obtain ⟨i, next, p, hwork, rfl⟩ := h
  intro k
  have hsum := sum_update (fun p => p.claimed.count k) t.phase i p
  rw [ht k] at hsum
  generalize t.phase i = q at hwork hsum
  cases hwork with
  | claim h =>
    simp only [Phase.claimed, List.count_cons, beq_iff_eq] at hsum ⊢
    split_ifs at hsum ⊢ <;> omega
  | stop h =>
    simp only [Phase.claimed] at hsum ⊢
    split_ifs at hsum ⊢ <;> omega
  | map h =>
    simp only [Phase.claimed, List.map_append, List.count_append, List.count_cons] at hsum ⊢
    simp only [List.map_cons, List.map_nil, List.count_singleton] at hsum
    split_ifs at hsum ⊢ <;> omega

theorem kept : Threads.Kept (fun _ : Fin workers => Work items f) (fun _ => True)
    (fun _ => Sound items f) where
  own := by
    intro i s p s' p' _ hp hwork
    refine ⟨trivial, ?_⟩
    cases hwork with
    | claim h => exact ⟨hp.done, fun _ _ heq => by injection heq with heq; omega, nofun⟩
    | stop h => exact ⟨hp.done, nofun, fun _ => Nat.le_succ_of_le h⟩
    | map h =>
      refine ⟨fun result hresult => ?_, nofun, nofun⟩
      rcases List.mem_append.mp hresult with hresult | hresult
      · exact hp.done result hresult
      · obtain rfl := List.mem_singleton.mp hresult
        simp [h]
  other := by
    intro i j s p s' p' q _ _ _ hq hwork
    have hle : s ≤ s' := by cases hwork <;> omega
    exact ⟨hq.done, hq.mapping, fun h => (hq.ended h).trans hle⟩

/-! ## Putting the results in place -/

theorem length_place (out : List (Option ρ)) (done : List (ℕ × ρ)) :
    (place out done).length = out.length := by
  induction done generalizing out with
  | nil => rfl
  | cons result done ih => exact (ih _).trans List.length_set

theorem getElem?_place {done : List (ℕ × ρ)} {out : List (Option ρ)} {k : ℕ} {r : ρ}
    (hdone : ∀ result ∈ done, result.1 = k → result.2 = r) (hlength : k < out.length)
    (h : out[k]? = some (some r) ∨ k ∈ done.map Prod.fst) :
    (place out done)[k]? = some (some r) := by
  induction done generalizing out with
  | nil => exact h.resolve_right List.not_mem_nil
  | cons result done ih =>
    refine ih (fun result' h' => hdone result' (List.mem_cons_of_mem _ h'))
      (by simpa using hlength) ?_
    dsimp only
    by_cases hk : result.1 = k
    · left
      rw [hk, hdone result List.mem_cons_self hk]
      simp [hlength]
    · rw [List.getElem?_set_ne hk]
      simpa [Ne.symm hk] using h

theorem ClaimedOnce.exists_done (h : ClaimedOnce items t) (hended : ∀ i, (t.phase i).turns = 0)
    (hshared : items.length ≤ t.shared) {k : ℕ} (hk : k < items.length) :
    k ∈ ((List.finRange workers).flatMap fun i => (t.phase i).done).map Prod.fst := by
  have hsum := h k
  rw [if_pos ⟨hk.trans_le hshared, hk⟩] at hsum
  obtain ⟨i, -, hi⟩ := Finset.exists_ne_zero_of_sum_ne_zero (hsum ▸ one_ne_zero)
  have hmem := List.count_pos_iff.mp (Nat.pos_of_ne_zero hi)
  have hturns := hended i
  rw [List.map_flatMap, List.mem_flatMap]
  refine ⟨i, List.mem_finRange i, ?_⟩
  generalize t.phase i = p at hmem hturns
  cases p with
  | finished done => exact hmem
  | claiming done | mapping index done => cases hturns

theorem collect_eq (hclaims : ClaimedOnce items t)
    (hsound : ∀ i, Sound items f t.shared (t.phase i))
    (hended : ∀ i, (t.phase i).turns = 0) (hshared : items.length ≤ t.shared) :
    collect items t = some (items.map f) := by
  have hplace : ∀ out : List (Option ρ),
      (List.finRange workers).foldl (fun out i => place out (t.phase i).done) out =
        place out ((List.finRange workers).flatMap fun i => (t.phase i).done) := fun out =>
    List.foldl_flatMap.symm
  have hout : place (List.replicate items.length none)
      ((List.finRange workers).flatMap fun i => (t.phase i).done) = (items.map f).map some := by
    refine List.ext_getElem? fun k => ?_
    by_cases hk : k < items.length
    · rw [getElem?_place (r := f items[k]) ?_ (by simpa using hk)
        (.inr (hclaims.exists_done hended hshared hk))]
      · simp [hk]
      intro result hresult heq
      obtain ⟨i, -, hresult⟩ := List.mem_flatMap.mp hresult
      have hsome := (hsound i).done result hresult
      simpa [heq, hk] using hsome.symm
    · rw [List.getElem?_eq_none, List.getElem?_eq_none] <;> simpa [length_place] using hk
  rw [collect, hplace, hout, List.map_map, List.mapM_map]
  exact List.mapM_pure

theorem reaches_sound (h : Threads.Reaches (fun _ => Work items f) (start workers) t) :
    ClaimedOnce items t ∧ ∀ i, Sound items f t.shared (t.phase i) := by
  refine ⟨?_, (kept.reaches h ⟨trivial, fun i => ⟨nofun, nofun, nofun⟩⟩).2⟩
  induction h with
  | refl => simp [ClaimedOnce, start, Phase.claimed]
  | tail _ hstep ih => exact ih.step hstep

theorem exists_step (hsound : ∀ i, Sound items f t.shared (t.phase i)) {i : Fin workers}
    (hi : (t.phase i).turns ≠ 0) : ∃ t', Threads.Step (fun _ => Work items f) t t' := by
  have hmapping := (hsound i).mapping
  suffices ∃ next p, Work items f t.shared (t.phase i) next p by
    obtain ⟨next, p, hwork⟩ := this
    exact ⟨_, i, next, p, hwork, rfl⟩
  generalize t.phase i = p at hi hmapping
  cases p with
  | claiming done =>
    rcases Nat.lt_or_ge t.shared items.length with h | h
    · exact ⟨_, _, .claim h⟩
    · exact ⟨_, _, .stop h⟩
  | mapping index done =>
    have hindex := hmapping index done rfl
    exact ⟨_, _, .map (List.getElem?_eq_getElem hindex)⟩
  | finished done => exact absurd rfl hi

theorem exists_ended (h : Threads.Reaches (fun _ => Work items f) (start workers) t) :
    ∃ t', Threads.Reaches (fun _ => Work items f) (start workers) t' ∧
      ∀ i, (t'.phase i).turns = 0 := by
  induction hn : remaining items t generalizing t with
  | zero => exact ⟨t, h, by simpa using (Nat.add_eq_zero_iff.mp hn).2⟩
  | succ n ih =>
    by_cases hended : ∀ i, (t.phase i).turns = 0
    · exact ⟨t, h, hended⟩
    obtain ⟨i, hi⟩ := not_forall.mp hended
    obtain ⟨t', hstep⟩ := exists_step (reaches_sound h).2 hi
    exact ih (h.tail hstep) (by have := step_remaining hstep; omega)

/-- Whatever the interleaving, each index is claimed by one thread, every turn
leaves fewer, the threads can go on until all are done, and the results are those
of the items in their order. -/
theorem par_map_in_order (available : ℕ) (items : List α) (f : α → ρ) :
    (∃ result, Returns available items f result) ∧
      (∀ result, Returns available items f result → result = some (items.map f)) ∧
      ∀ (spawned : ℕ) (t : Threads (Fin (spawned + 1)) ℕ (Phase ρ)),
        Threads.Reaches (fun _ => Work items f) (start (spawned + 1)) t →
          (∀ k, ∑ i, (t.phase i).claimed.count k =
            if k < t.shared ∧ k < items.length then 1 else 0) ∧
          (∀ t', Threads.Step (fun _ => Work items f) t t' →
            remaining items t' < remaining items t) ∧
          ((∃ t', Threads.Step (fun _ => Work items f) t t') ∨
            ∀ k < items.length, ∑ i, (t.phase i).claimed.count k = 1) := by
  have hshared : ∀ {spawned : ℕ} {t : Threads (Fin (spawned + 1)) ℕ (Phase ρ)},
      Threads.Reaches (fun _ => Work items f) (start (spawned + 1)) t →
        (∀ i, (t.phase i).turns = 0) → items.length ≤ t.shared := fun h hended =>
    ((reaches_sound h).2 0).ended (hended 0)
  refine ⟨?_, ?_, ?_⟩
  · rcases Nat.lt_or_ge 1 (threads available items) with h | h
    · have hstart : Threads.Reaches (fun _ => Work items f) (start 1) (start 1) := .refl
      obtain ⟨t, hrun, hended⟩ := exists_ended hstart
      exact ⟨_, .joined h (by omega) hrun hended⟩
    · exact ⟨_, .alone h⟩
  · intro result hresult
    cases hresult with
    | alone => rfl
    | joined _ _ hrun hended =>
      obtain ⟨hclaims, hsound⟩ := reaches_sound hrun
      exact collect_eq hclaims hsound hended (hshared hrun hended)
  · intro spawned t hrun
    obtain ⟨hclaims, hsound⟩ := reaches_sound hrun
    refine ⟨hclaims, fun t' hstep => by have := step_remaining hstep; omega, ?_⟩
    by_cases hended : ∀ i, (t.phase i).turns = 0
    · refine .inr fun k hk => ?_
      rw [hclaims k, if_pos ⟨hk.trans_le (hshared hrun hended), hk⟩]
    · obtain ⟨i, hi⟩ := not_forall.mp hended
      exact .inl (exists_step hsound hi)

end Raeva.ParMap
