import Raeva.Resolver.Trim

/-!
# Operations that only queue

Queueing the declarations of a winner, scanning losers for shadows and walking
below excluded dependencies add to the queue and to the notes of which losers
were scanned; the groups stay as they are.
-/

namespace Raeva

open List

/-- Only the notes about losers and probed ranges may differ. -/
structure Selected.SameCore (s s' : Selected) : Prop where
  eq : s' = { s with scanned := s'.scanned, walked := s'.walked, dirtyChecked := s'.dirtyChecked }

namespace Selected.SameCore

variable {s s' s'' : Selected}

theorem refl (s : Selected) : s.SameCore s :=
  ⟨rfl⟩

theorem trans (h : s.SameCore s') (h' : s'.SameCore s'') : s.SameCore s'' :=
  ⟨by rw [h'.eq, h.eq]⟩

theorem node_eq (h : s.SameCore s') : s'.node = s.node := by rw [h.eq]
theorem candidates_eq (h : s.SameCore s') : s'.candidates = s.candidates := by rw [h.eq]
theorem winner_eq (h : s.SameCore s') : s'.winner = s.winner := by rw [h.eq]
theorem conflict_eq (h : s.SameCore s') : s'.conflict = s.conflict := by rw [h.eq]
theorem settled_eq (h : s.SameCore s') : s'.settled = s.settled := by rw [h.eq]

end Selected.SameCore

theorem mem_of_mem_firstUnseen {α : Type} {key : α → ℕ} {seen : Finset ℕ} {l : List α} {a : α}
    (h : a ∈ (firstUnseen key seen l).1) : a ∈ l := by
  induction l generalizing seen with
  | nil => simp [firstUnseen] at h
  | cons b l ih =>
    unfold firstUnseen at h
    split at h
    · exact mem_cons_of_mem b (ih h)
    · rcases mem_cons.mp h with rfl | h
      · exact mem_cons_self
      · exact mem_cons_of_mem b (ih h)

namespace Walk

/-- A dependency that the model of `reader` declares, below `c`. -/
def IsChild (backend : Backend) (reader c : Candidate) (parent generation : ℕ)
    (shadow : Option ShadowOrigin) (item : QueueItem) : Prop :=
  ∃ resolved declaredAt dependency index, reader.resolvedProject = some resolved ∧
    resolved.project.dependencies[index]? = some dependency ∧
    item = childItem backend c resolved.project parent generation shadow declaredAt dependency index

def IsShadowBelow (backend : Backend) (reader c : Candidate) (item : QueueItem) : Prop :=
  ∃ origin, IsChild backend reader c Graph.root 0 (some origin) item

/-- A shadow below a candidate, by its own model or that of the winner with its coordinate. -/
def IsShadowItem (backend : Backend) (w : Walk) (item : QueueItem) : Prop :=
  ∃ k s, w.selected.lookup k = some s ∧ ∃ c ∈ s.candidates, ∃ reader,
    (reader = c ∨ s.winner = some reader ∧ reader.coord = c.coord) ∧
      IsShadowBelow backend reader c item

/-- Only `New` declarations are queued, and only notes of the groups change. -/
structure Queues (New : QueueItem → Prop) (w w' : Walk) : Prop where
  frame : w' =
    { w with selected := w'.selected, queue := w'.queue, nextDeclaredAt := w'.nextDeclaredAt }
  lookup_none : ∀ k, w.selected.lookup k = none → w'.selected.lookup k = none
  lookup_some : ∀ k s, w.selected.lookup k = some s →
    ∃ s', w'.selected.lookup k = some s' ∧ s.SameCore s'
  queue : ∀ item ∈ w'.queue, item ∈ w.queue ∨ New item

namespace Queues

variable {New New' : QueueItem → Prop} {w w' w'' : Walk}

theorem refl (New : QueueItem → Prop) (w : Walk) : Queues New w w where
  frame := rfl
  lookup_none _ h := h
  lookup_some _ s h := ⟨s, h, .refl s⟩
  queue _ h := .inl h

theorem trans (h : Queues New w w') (h' : Queues New w' w'') : Queues New w w'' where
  frame := by rw [h'.frame, h.frame]
  lookup_none k hk := h'.lookup_none k (h.lookup_none k hk)
  lookup_some k s hk := by
    obtain ⟨s₁, hs₁, hcore₁⟩ := h.lookup_some k s hk
    obtain ⟨s₂, hs₂, hcore₂⟩ := h'.lookup_some k s₁ hs₁
    exact ⟨s₂, hs₂, hcore₁.trans hcore₂⟩
  queue item hitem := by
    rcases h'.queue item hitem with hitem | hnew
    · exact h.queue item hitem
    · exact .inr hnew

theorem weaken (h : Queues New w w') (hnew : ∀ item, New item → New' item) : Queues New' w w' :=
  ⟨h.frame, h.lookup_none, h.lookup_some,
    fun item hitem => (h.queue item hitem).imp_right (hnew item)⟩

theorem lookup_of_lookup (h : Queues New w w') {k : CoordKey} {s' : Selected}
    (hk : w'.selected.lookup k = some s') :
    ∃ s, w.selected.lookup k = some s ∧ s.SameCore s' := by
  cases hs : w.selected.lookup k with
  | none => simp [h.lookup_none k hs] at hk
  | some s =>
    obtain ⟨s₁, hs₁, hcore⟩ := h.lookup_some k s hs
    obtain rfl : s₁ = s' := Option.some.inj (hs₁.symm.trans hk)
    exact ⟨s, rfl, hcore⟩

theorem push {item : QueueItem} (hnew : New item) (h : w.push item = .ok w') : Queues New w w' := by
  unfold Walk.push at h
  cases hpush : pushQueue w.queue item with
  | error e => simp [hpush] at h
  | ok queue =>
    simp only [hpush, Except.ok.injEq] at h
    subst h
    refine ⟨rfl, fun _ hk => hk, fun _ s hk => ⟨s, hk, .refl s⟩, fun other hother => ?_⟩
    rw [show _ = item :: w.queue from pushQueue_eq hpush] at hother
    rcases mem_cons.mp hother with rfl | hother
    · exact .inr hnew
    · exact .inl hother

theorem setSelected {key : CoordKey} {s s' : Selected} (hs : w.selected.lookup key = some s)
    (hcore : s.SameCore s') : Queues New w (w.setSelected key s') where
  frame := rfl
  lookup_none k hk := by
    have hne : k ≠ key := by
      rintro rfl
      simp [hs] at hk
    simp [hne, hk]
  lookup_some k t hk := by
    by_cases hkey : k = key
    · subst hkey
      obtain rfl : s = t := Option.some.inj (hs.symm.trans hk)
      exact ⟨s', by simp, hcore⟩
    · exact ⟨t, by simp [hkey, hk], .refl t⟩
  queue _ hitem := .inl hitem

end Queues

section

variable {backend : Backend} {w w' : Walk}

variable {key : CoordKey} {state state' : Walk × Bool} {resolved : ResolvedProject}
  {reader loser : Candidate}

theorem queueChildren_queues {winner : Candidate} {parent generation : ℕ}
    {shadow : Option ShadowOrigin}
    (h : w.queueChildren backend winner parent generation shadow = .ok w') :
    Queues (IsChild backend winner winner parent generation shadow) w w' := by
  unfold queueChildren at h
  split at h
  · cases h
    exact .refl _ w
  split at h
  · cases h
  · rename_i resolved hresolved
    refine foldlM_rel (.refl _) (fun _ _ _ => .trans) (fun entry hentry _ _ hpush => ?_) h
    exact .push ⟨resolved, _, _, _, hresolved, mem_zipIdx_iff_getElem?.mp hentry, rfl⟩ hpush

theorem queueShadow_queues {of : Candidate} {origin : ShadowOrigin} {dependency : Dependency}
    {index : ℕ} (hresolved : reader.resolvedProject = some resolved)
    (hdependency : resolved.project.dependencies[index]? = some dependency)
    (h : w.queueShadow backend of resolved.project origin dependency index = .ok w') :
    Queues (IsShadowBelow backend reader of) w w' := by
  unfold queueShadow at h
  split at h
  · cases h
    exact .refl _ w
  · exact .push ⟨origin, resolved, _, dependency, index, hresolved, hdependency, rfl⟩ h

theorem scanLoser_queues {path : PathNode} (h : w.scanLoser backend key path loser = .ok w') :
    Queues (IsShadowBelow backend loser loser) w w' := by
  unfold scanLoser at h
  split at h
  · cases h
  rename_i resolved hresolved
  refine foldlM_rel (.refl _) (fun _ _ _ => .trans) (fun entry hentry b b' hstep => ?_) h
  simp only at hstep
  split at hstep
  · cases hstep
    exact .refl _ b
  · exact queueShadow_queues hresolved (mem_zipIdx_iff_getElem?.mp hentry) hstep

theorem scanLosers_queues {start : ℕ} (h : w.scanLosers backend key start = .ok w') :
    Queues (IsShadowItem backend w) w w' := by
  unfold scanLosers at h
  split at h
  · cases h
    exact .refl _ w
  rename_i s hs
  split at h
  · split at h
    · cases h
    simp only at h
    generalize hlosers : firstUnseen (fun c : Candidate => c.item.declaredAt) s.scanned _ = losers
      at h
    refine (Queues.setSelected hs ⟨rfl⟩).trans
      (foldlM_rel (R := Queues (IsShadowItem backend w)) (.refl _) (fun _ _ _ => .trans)
        (fun loser hloser _ _ hstep => (scanLoser_queues hstep).weaken ?_) h)
    intro item hitem
    subst hlosers
    have hmem := (mem_filter.mp (mem_of_mem_firstUnseen hloser)).1
    exact ⟨key, s, hs, loser, mem_of_mem_drop hmem, loser, .inl rfl, hitem⟩
  · cases h
    exact .refl _ w

theorem walkLoser_queues {excluded : List ExclusionKey}
    (hresolved : reader.resolvedProject = some resolved)
    (h : walkLoser backend key resolved.project excluded state loser = .ok state') :
    Queues (IsShadowBelow backend reader loser) state.1 state'.1 := by
  unfold walkLoser at h
  refine foldlM_rel (R := fun a b => Queues (IsShadowBelow backend reader loser) a.1 b.1)
    (fun b => .refl _ b.1) (fun _ _ _ => .trans) (fun entry hentry b b' hstep => ?_) h
  simp only at hstep
  split at hstep
  · cases hstep
    exact .refl _ b.1
  split at hstep
  · cases hstep
    exact .refl _ b.1
  obtain ⟨w₁, hw₁, hrest⟩ := bind_eq_ok hstep
  cases hrest
  exact queueShadow_queues hresolved (mem_zipIdx_iff_getElem?.mp hentry) hw₁

theorem walkGroup_queues (h : walkGroup backend state key = .ok state') :
    Queues (IsShadowItem backend state.1) state.1 state'.1 := by
  unfold walkGroup at h
  simp only at h
  split at h
  · cases h
    exact .refl _ _
  rename_i s hs
  split at h
  · cases h
    exact .refl _ _
  rename_i winner hwinner
  split at h
  · cases h
    exact .refl _ _
  rename_i resolved hresolved
  have hresolved' := (Option.filter_eq_some_iff.mp hresolved).1
  generalize hlosers : firstUnseen (fun c : Candidate => c.item.declaredAt) s.walked _ = losers
    at h
  refine (Queues.setSelected hs ⟨rfl⟩).trans
    (foldlM_rel (R := fun a b => Queues (IsShadowItem backend state.1) a.1 b.1)
      (fun b => .refl _ b.1) (fun _ _ _ => .trans)
      (fun loser hloser _ _ hstep => (walkLoser_queues hresolved' hstep).weaken ?_) h)
  intro item hitem
  subst hlosers
  obtain ⟨hmem, hfilter⟩ := mem_filter.mp (mem_of_mem_firstUnseen hloser)
  simp only [Bool.and_eq_true, sameText_iff] at hfilter
  exact ⟨key, s, hs, loser, hmem, winner, .inr ⟨hwinner, hfilter.1.1.2.symm⟩, hitem⟩

theorem IsShadowItem.of_queues {New : QueueItem → Prop} {item : QueueItem} (h : Queues New w w')
    (hitem : IsShadowItem backend w' item) : IsShadowItem backend w item := by
  obtain ⟨k, s', hs', hbelow⟩ := hitem
  obtain ⟨s, hs, hcore⟩ := h.lookup_of_lookup hs'
  rw [hcore.candidates_eq, hcore.winner_eq] at hbelow
  exact ⟨k, s, hs, hbelow⟩

theorem foldlM_walkGroup_queues {keys : List CoordKey}
    (h : keys.foldlM (walkGroup backend) state = .ok state') :
    Queues (IsShadowItem backend state.1) state.1 state'.1 := by
  induction keys generalizing state with
  | nil =>
    rw [foldlM_nil] at h
    cases h
    exact .refl _ _
  | cons key keys ih =>
    rw [foldlM_cons] at h
    obtain ⟨state₁, hstate₁, hrest⟩ := bind_eq_ok h
    have hfirst := walkGroup_queues hstate₁
    exact hfirst.trans ((ih hrest).weaken fun item => .of_queues hfirst)

theorem walkExcludedDependencies_queues {queued : Bool}
    (h : w.walkExcludedDependencies backend = .ok (w', queued)) :
    Queues (IsShadowItem backend w) w w' :=
  foldlM_walkGroup_queues h

end

end Walk

end Raeva
