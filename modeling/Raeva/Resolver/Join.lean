import Raeva.Resolver.Queueing

/-!
# What joining a group and winning it can do

Every way `joinGroup` and `commit` can go, said once, for the invariants to be
derived from.
-/

namespace Raeva

open List

namespace Walk

def Below (w : Walk) (path : PathNode) (target : CoordKey) : Prop :=
  ∃ k ∈ path.keys, w.groupOf k = w.groupOf target

variable {w w' : Walk} {backend : Backend} {r : Resolution} {key : CoordKey}

theorem beneathOwnGroup_iff (w : Walk) (path : PathNode) (target : CoordKey) :
    w.beneathOwnGroup path target = true ↔ w.Below path target := by
  unfold beneathOwnGroup
  split
  · rename_i hempty
    -- Without groups every key is its own representative.
    have hgroup (k : CoordKey) : w.groupOf k = k := by
      refine ParentMap.root_of_lookup_none (AList.lookup_eq_none.mpr ?_)
      simp only [List.isEmpty_iff] at hempty
      simp [AList.mem_keys, AList.keys, hempty]
    rw [PathNode.contains_iff]
    constructor
    · exact fun hmem => ⟨target, hmem, rfl⟩
    · rintro ⟨k, hk, heq⟩
      rw [hgroup, hgroup] at heq
      exact heq ▸ hk
  · simp [Below]

theorem below_iff (w : Walk) (path : PathNode) (target : CoordKey) :
    (path.contains target || w.beneathOwnGroup path target) = true ↔ w.Below path target := by
  rw [Bool.or_eq_true, PathNode.contains_iff, beneathOwnGroup_iff]
  constructor
  · rintro (hmem | hbelow)
    · exact ⟨target, hmem, rfl⟩
    · exact hbelow
  · exact .inr

theorem mem_versions {arc : ℕ} {c : Candidate} (hc : c ∈ r.versions arc) :
    c.item = r.candidate.item ∧ c.key = r.candidate.key := by
  unfold Resolution.versions at hc
  simp only [mem_append, mem_map, mem_singleton] at hc
  rcases hc with ⟨⟨resolved, position⟩, -, rfl⟩ | rfl
  · exact ⟨rfl, rfl⟩
  · exact ⟨rfl, rfl⟩

/-- Allocations and the list of unscanned ranges may differ. -/
def Prepared (w w' : Walk) : Prop :=
  ∃ nextArc unscanned, w' = { w with nextArc, unscanned }

theorem noteUnscanned_prepared {w₁ : Walk} (h : w.Prepared w₁) (key : CoordKey)
    (candidates : List Candidate) : w.Prepared (w₁.noteUnscanned key candidates) := by
  obtain ⟨nextArc, unscanned, rfl⟩ := h
  unfold noteUnscanned
  split
  · split
    · exact ⟨_, _, rfl⟩
    · exact ⟨_, _, rfl⟩
  · exact ⟨_, _, rfl⟩

/-- What is left to do after candidates joined a settled group behind its
winner. -/
inductive BehindSteps (backend : Backend) (key : CoordKey) (w w' : Walk) : Prop where
  | dirty (hdirty : key ∈ w.dirtySet) (heq : w' = w)
  | confirm (lowest : Candidate) (start : ℕ)
      (heq : w' = { w with confirm := w.confirm ++ [(key, lowest, start)] })
  | again (heq : w' = w.markDirty key)
  | scan (start : ℕ) (h : w.scanLosers backend key start = .ok w')

theorem afterBehind_steps [Lowercase] {start : ℕ} {lowest : Option Candidate}
    (h : w.afterBehind backend key start lowest = .ok w') : BehindSteps backend key w w' := by
  unfold afterBehind at h
  split at h
  · rename_i hdirty
    exact .dirty (by simpa [isDirty] using hdirty) (Except.ok.inj h).symm
  split at h
  · exact .confirm _ start (Except.ok.inj h).symm
  simp only at h
  split at h
  · exact .again (Except.ok.inj h).symm
  · exact .scan start h

/-- How a read declaration joins its group.  `w₁` is the walk with the new
candidates allocated. -/
inductive JoinSteps [Lowercase] (backend : Backend) (r : Resolution) (w w' : Walk) : Prop where
  /-- It lies below its own artifact. -/
  | cut (hbelow : w.Below r.candidate.item.path r.candidate.key)
      (heq : w' = w.cutEdge r.candidate.item r.candidate.key)
  /-- A shadow that is neither a candidate nor walked below. -/
  | dropped (hshadow : r.candidate.item.shadow ≠ none) (heq : w.Prepared w')
  /-- A shadow that is walked below. -/
  | walk (w₁ : Walk) (highest : Candidate) (origin : ShadowOrigin) (hw₁ : w.Prepared w₁)
      (hbelow : ¬ w.Below r.candidate.item.path r.candidate.key)
      (hshadow : r.candidate.item.shadow ≠ none)
      (hhighest : ∃ arc, highest ∈ r.versions arc)
      (hqueues : Queues (IsChild backend highest highest Graph.root 0 (some origin)) w₁ w')
  /-- A range of shadows, to be loaded and walked below. -/
  | walkLoad (w₁ : Walk) (arc : ℕ) (hw₁ : w.Prepared w₁)
      (hbelow : ¬ w.Below r.candidate.item.path r.candidate.key)
      (hshadow : r.candidate.item.shadow ≠ none)
      (heq : w' = { w₁ with walkLoads := r.versions arc :: w₁.walkLoads })
  /-- Shadows join a selected group. -/
  | shadow (w₁ : Walk) (arc : ℕ) (s : Selected) (origin : ShadowOrigin) (hw₁ : w.Prepared w₁)
      (hbelow : ¬ w.Below r.candidate.item.path r.candidate.key)
      (hshadow : r.candidate.item.shadow ≠ none)
      (hs : w.selected.lookup (w.groupOf r.candidate.key) = some s)
      (heq : w' = ((w₁.setSelected (w.groupOf r.candidate.key)
        (s.withCandidates (s.candidates ++ r.versions arc))).addShadowTarget origin
          (w.groupOf r.candidate.key)).markDirty (w.groupOf r.candidate.key))
  /-- A declaration opens a group. -/
  | group (w₁ : Walk) (arc : ℕ) (highest : Candidate) (hw₁ : w.Prepared w₁)
      (hbelow : ¬ w.Below r.candidate.item.path r.candidate.key)
      (hshadow : r.candidate.item.shadow = none)
      (hnone : w.selected.lookup (w.groupOf r.candidate.key) = none)
      (hhighest : ∃ arc, highest ∈ r.versions arc)
      (heq : w' = w₁.addGroup r.candidate.item (w.groupOf r.candidate.key) (r.versions arc) highest)
  /-- A declaration joins a group, which is mediated again. -/
  | again (w₁ : Walk) (arc : ℕ) (s : Selected) (p : Candidate → Bool) (hw₁ : w.Prepared w₁)
      (hbelow : ¬ w.Below r.candidate.item.path r.candidate.key)
      (hshadow : r.candidate.item.shadow = none)
      (hs : w.selected.lookup (w.groupOf r.candidate.key) = some s)
      (heq : w' = ((w₁.setSelected (w.groupOf r.candidate.key)
        (s.withCandidates (s.candidates.filter p ++ r.versions arc))).declareEdge r.candidate.item
          (w.groupOf r.candidate.key) s.node).markDirty (w.groupOf r.candidate.key))
  /-- A declaration joins a settled group behind its winner. -/
  | behind (w₁ : Walk) (arc : ℕ) (s : Selected) (lowest : Option Candidate) (state : Settled)
      (hw₁ : w.Prepared w₁)
      (hbelow : ¬ w.Below r.candidate.item.path r.candidate.key)
      (hshadow : r.candidate.item.shadow = none)
      (hs : w.selected.lookup (w.groupOf r.candidate.key) = some s)
      (hbehind : s.behind (r.versions arc) = some (lowest, state))
      (hsteps : BehindSteps backend (w.groupOf r.candidate.key)
        ((w₁.setSelected (w.groupOf r.candidate.key)
          { s with candidates := s.candidates ++ r.versions arc
                   settled := some state }).declareEdge
            r.candidate.item (w.groupOf r.candidate.key) s.node) w')

/-- The cases of `join_group`, with the walk between its writes. -/
theorem joinGroup_steps [Lowercase] (h : w.joinGroup backend r = .ok w') :
    JoinSteps backend r w w' := by
  unfold joinGroup at h
  simp only at h
  split at h
  · rename_i hbelow
    exact .cut ((below_iff w _ _).mp hbelow) (Except.ok.inj h).symm
  rename_i hnot
  have hbelow : ¬ w.Below r.candidate.item.path r.candidate.key :=
    fun hb => hnot ((below_iff w _ _).mpr hb)
  split at h
  · cases h
  generalize hw₁ : w.setNextArc (w.nextArc + (r.versions w.nextArc).length) = w₁ at h
  have hprep : w.Prepared w₁ := by
    subst hw₁
    exact ⟨_, _, rfl⟩
  have hgroup : w₁.groupOf r.candidate.key = w.groupOf r.candidate.key := by
    subst hw₁
    rfl
  obtain ⟨w₂, hw₂, hprep', hselected⟩ : ∃ w₂, w₁.noteUnscanned (w.groupOf r.candidate.key)
      (r.versions w.nextArc) = w₂ ∧ w.Prepared w₂ ∧ w₂.selected = w.selected := by
    have hprep' := noteUnscanned_prepared hprep (w.groupOf r.candidate.key) (r.versions w.nextArc)
    refine ⟨_, rfl, hprep', ?_⟩
    obtain ⟨_, _, heq⟩ := hprep'
    rw [heq]
  have hhighest : ∃ arc, { r.candidate with arc := w.nextArc + r.alternatives.length } ∈
      r.versions arc := ⟨w.nextArc, mem_append_right _ (mem_singleton_self _)⟩
  rw [hgroup] at h
  unfold addCandidates at h
  cases hshadow : r.candidate.item.shadow with
  | none =>
    simp only [hshadow] at h
    unfold addDeclared at h
    simp only [hw₂, hselected] at h
    cases hs : w.selected.lookup (w.groupOf r.candidate.key) with
    | none =>
      simp only [hs, Except.ok.injEq] at h
      exact .group w₂ w.nextArc _ hprep' hbelow hshadow hs hhighest h.symm
    | some s =>
      simp only [hs] at h
      split at h
      · exact .again w₂ w.nextArc s _ hprep' hbelow hshadow hs (Except.ok.inj h).symm
      rename_i lowest state hbehind
      split at hbehind
      · rename_i hlength
        rw [filter_eq_self.mpr ((length_filter_eq_length_iff).mp hlength)] at h
        exact .behind w₂ w.nextArc s lowest state hprep' hbelow hshadow hs hbehind
          (afterBehind_steps h)
      · cases hbehind
  | some origin =>
    have hne : r.candidate.item.shadow ≠ none := by simp [hshadow]
    simp only [hshadow] at h
    split at h
    · -- A candidate where Maven gathers it.
      unfold addShadow at h
      simp only [hw₂, hselected] at h
      cases hs : w.selected.lookup (w.groupOf r.candidate.key) with
      | none =>
        simp only [hs, Except.ok.injEq] at h
        subst h
        exact .dropped hne hprep'
      | some s =>
        simp only [hs, Except.ok.injEq] at h
        split at h
        · subst h
          exact .dropped hne hprep'
        · exact .shadow w₂ w.nextArc s origin hprep' hbelow hne hs h.symm
    · split at h
      · exact .walk w₁ _ origin hprep hbelow hne hhighest (queueChildren_queues h)
      · exact .walkLoad w₁ w.nextArc hprep hbelow hne (Except.ok.inj h).symm
    · cases h
      exact .dropped hne hprep

/-- The group after `winner` won it. -/
structure WonBy (winner : Candidate) (s s' : Selected) : Prop where
  node_eq : s'.node = s.node
  candidates_eq : s'.candidates = s.candidates
  winner_eq : s'.winner = some winner
  conflict_eq : s'.conflict = s.conflict
  settled_eq : s'.settled = s.settled

/-- How a candidate becomes the winner: its node is retired and renamed, and its
declarations are queued in the node's new generation. -/
inductive CommitSteps (backend : Backend) (key : CoordKey) (winner : Candidate) (w w' : Walk) :
    Prop where
  | steps (s s₁ : Selected) (convert : Option (ShadowOrigin × PathNode)) (project : ResolvedProject)
      (w₁ w₂ : Walk)
      (hproject : winner.resolvedProject = some project)
      (hs : w.selected.lookup key = some s) (hwon : WonBy winner s s₁)
      (hw₁ : w₁ = (w.setSelected key s₁).retire s.node convert)
      (hw₂ : w₂ = w₁ ∨ ∃ node, w₁.graph.node s.node = some node ∧
        w₂ = w₁.setGraph (w₁.graph.setNode s.node (winner.wonNode project node)))
      (hqueues : Queues (IsChild backend winner winner s.node (w₁.generations[s.node]?.getD 0) none)
        (w₂.revalidateShadows key) w')

/-- The writes of `commit`, one after the other. -/
theorem commit_steps {winner : Candidate} (h : w.commit backend key winner = .ok w') :
    CommitSteps backend key winner w w' := by
  unfold commit at h
  cases hproject : winner.resolvedProject with
  | none => simp [hproject] at h
  | some project =>
    simp only [hproject] at h
    obtain ⟨-, -, h⟩ := bind_eq_ok h
    cases hs : w.selected.lookup key with
    | none => simp [hs] at h
    | some s =>
      simp only [hs] at h
      generalize (if (winner.item.order, winner.coord.display) ∈ s.winners then s.changes + 1
        else s.changes) = changes at h
      split at h
      · cases h
      generalize hpath : winner.item.path.extend winner.coord winner.resolved.version
        (backend.extendRepoContext winner.item.path.repos winner.coord project.project) = path
        at h
      generalize hs₁ : ({ s with
        winners := insert (winner.item.order, winner.coord.display) s.winners
        changes
        winner := some winner
        winnerPath := some path
        scanned := ∅
        walked := ∅
        dirtyChecked := ∅ } : Selected) = s₁ at h
      have hwon : WonBy winner s s₁ := by
        subst hs₁
        exact ⟨rfl, rfl, rfl, rfl, rfl⟩
      generalize hw₁ : (w.setSelected key s₁).retire s.node _ = w₁ at h
      cases hnode : w₁.graph.node s.node with
      | none =>
        simp only [hnode] at h
        exact .steps s s₁ _ project w₁ w₁ hproject hs hwon hw₁.symm (.inl rfl)
          (queueChildren_queues h)
      | some node =>
        simp only [hnode] at h
        exact .steps s s₁ _ project w₁ _ hproject hs hwon hw₁.symm
          (.inr ⟨node, hnode, rfl⟩) (queueChildren_queues h)

end Walk

end Raeva
