import Raeva.Resolver.Reached

/-!
# Groups that wait for no mediation

A group that is neither dirty nor under mediation keeps what its last mediation
established, whatever joins or leaves the walk meanwhile.
-/

namespace Raeva

/-- What may happen to a group that is not mediated for it. -/
inductive Selected.Kept [Lowercase] (s s' : Selected) : Prop where
  | core (h : s.SameCore s')
  | loaded {l : List Candidate} (hl : List.Forall₂ Stage.Reloaded s.candidates l)
      (h : SameCore (s.withCandidates l) s')
  | behind {candidates : List Candidate} {lowest : Option Candidate} {state : Settled}
      (h : s.behind candidates = some (lowest, state))
      (hcore : SameCore
        { s with candidates := s.candidates ++ candidates, settled := some state } s')

namespace Walk

variable [Lowercase]

/-- Groups outside `T` that change in another way become dirty. -/
structure Advances (T : CoordKey → Prop) (w w' : Walk) : Prop where
  dirtySet_subset : w.dirtySet ⊆ w'.dirtySet
  dirtyOk : w.DirtyOk → w'.DirtyOk
  lookup : ∀ k s', w'.selected.lookup k = some s' →
    T k ∨ k ∈ w'.dirtySet ∨ ∃ s, w.selected.lookup k = some s ∧ s.Kept s'

namespace Advances

variable {T : CoordKey → Prop} {w w₁ w' : Walk} {key : CoordKey}

theorem refl (T : CoordKey → Prop) (w : Walk) : Advances T w w where
  dirtySet_subset := Finset.Subset.refl _
  dirtyOk hok := hok
  lookup _ s' hs' := .inr (.inr ⟨s', hs', .core (.refl s')⟩)

theorem congr (h : Advances T w w₁) (hselected : w'.selected = w₁.selected)
    (hdirty : w'.dirty = w₁.dirty) (hset : w'.dirtySet = w₁.dirtySet) : Advances T w w' where
  dirtySet_subset := by
    rw [hset]
    exact h.dirtySet_subset
  dirtyOk hok := by
    have hok' := h.dirtyOk hok
    rwa [DirtyOk, hdirty, hset]
  lookup k s' hs' := by
    rw [hset]
    exact h.lookup k s' (hselected ▸ hs')

theorem trims (h : Advances T w w₁) (ht : Trims T w₁ w') : Advances T w w' where
  dirtySet_subset := h.dirtySet_subset.trans ht.dirtySet_subset
  dirtyOk hok := ht.dirtyOk (h.dirtyOk hok)
  lookup k s' hs' := by
    obtain ⟨s, hs, -, hsame⟩ := ht.lookup_of_lookup hs'
    rcases hsame with rfl | hT | hdirty
    · rcases h.lookup k s' hs with hT | hdirty | hkept
      · exact .inl hT
      · exact .inr (.inl (ht.dirtySet_subset hdirty))
      · exact .inr (.inr hkept)
    · exact .inl hT
    · exact .inr (.inl hdirty)

theorem queues {New : QueueItem → Prop} (h : Advances T w w₁) (hq : Queues New w₁ w') :
    Advances T w w' where
  dirtySet_subset := by
    rw [hq.frame]
    exact h.dirtySet_subset
  dirtyOk hok := by
    rw [hq.frame]
    exact h.dirtyOk hok
  lookup k s' hs' := by
    obtain ⟨s, hs, hcore⟩ := hq.lookup_of_lookup hs'
    refine (h.lookup k s hs).imp_right
      (.imp (fun hdirty => ?_) fun ⟨s₀, hs₀, hkept⟩ => ⟨s₀, hs₀, ?_⟩)
    · rw [hq.frame]
      exact hdirty
    cases hkept with
    | core h => exact .core (h.trans hcore)
    | loaded hl h => exact .loaded hl (h.trans hcore)
    | behind hbehind h => exact .behind hbehind (h.trans hcore)

theorem setSelected (h : Advances T w w₁) (hkey : T key) (s' : Selected) :
    Advances T w (w₁.setSelected key s') where
  dirtySet_subset := h.dirtySet_subset
  dirtyOk := h.dirtyOk
  lookup k s'' hs'' := by
    rw [lookup_setSelected] at hs''
    split at hs''
    · rename_i hk
      exact .inl (hk ▸ hkey)
    · exact h.lookup k s'' hs''

theorem eraseSelected (h : Advances T w w₁) (key : CoordKey) :
    Advances T w (w₁.eraseSelected key) where
  dirtySet_subset := h.dirtySet_subset
  dirtyOk := h.dirtyOk
  lookup k s'' hs'' := by
    rw [lookup_eraseSelected] at hs''
    split at hs''
    · cases hs''
    · exact h.lookup k s'' hs''

theorem retire (h : Advances T w w₁) (node : ℕ) (convert : Option (ShadowOrigin × PathNode)) :
    Advances T w (w₁.retire node convert) := by
  have hrenew : Advances T w (w₁.renew node) := h.congr rfl rfl rfl
  exact hrenew.trims (retire_trims T w₁ node convert)

theorem setGraph (h : Advances T w w₁) (graph : Graph) : Advances T w (w₁.setGraph graph) :=
  h.congr rfl rfl rfl

theorem setKept {s s' : Selected} (hs : w.selected.lookup key = some s) (hkept : s.Kept s') :
    Advances T w (w.setSelected key s') where
  dirtySet_subset := Finset.Subset.refl _
  dirtyOk hok := hok
  lookup k s'' hs'' := by
    rw [lookup_setSelected] at hs''
    split at hs''
    · rename_i hk
      subst hk
      cases hs''
      exact .inr (.inr ⟨s, hs, hkept⟩)
    · exact .inr (.inr ⟨s'', hs'', .core (.refl s'')⟩)

theorem markDirty (h : Advances (fun k => T k ∨ k = key) w w₁) :
    Advances T w (w₁.markDirty key) where
  dirtySet_subset := by
    rw [dirtySet_markDirty]
    exact h.dirtySet_subset.trans (Finset.subset_insert _ _)
  dirtyOk hok := (h.dirtyOk hok).markDirty key
  lookup k s' hs' := by
    rw [selected_markDirty] at hs'
    rw [dirtySet_markDirty, Finset.mem_insert]
    rcases h.lookup k s' hs' with (hT | rfl) | hdirty | hkept
    · exact .inl hT
    · exact .inr (.inl (.inl rfl))
    · exact .inr (.inl (.inr hdirty))
    · exact .inr (.inr hkept)

end Advances

variable {T : CoordKey → Prop} {w w' : Walk} {backend : Backend} {key : CoordKey}

theorem giveWay_advances (key : CoordKey) (s : Selected) (best : Candidate) (stops : Bool) :
    Advances T w (w.giveWay key s best stops) := by
  unfold giveWay
  simp only
  refine .markDirty (.trims ?_ (revalidateShadows_trims _ _ key))
  have hset := (Advances.refl (fun k => T k ∨ k = key) w).setSelected (.inr rfl)
  split
  · exact (hset _).setGraph _
  · exact hset _

theorem union_advances (source target : CoordKey) : Advances T w (w.union source target) := by
  unfold union
  simp only
  have hlink (T' : CoordKey → Prop) :
      Advances T' w (w.link (w.groupOf target) (w.groupOf source)) :=
    (Advances.refl T' w).congr (selected_link ..) (by rw [link_eq]) (by rw [link_eq])
  split
  · exact .refl T w
  split
  · exact hlink T
  rename_i moved hmoved
  refine .markDirty ?_
  generalize hw₁ : ((w.link (w.groupOf target) (w.groupOf source)).eraseSelected
    (w.groupOf target)).absorb (w.groupOf source) moved = w₁
  have hinto : (fun k => T k ∨ k = w.groupOf source) (w.groupOf source) := .inr rfl
  have habsorb : Advances (fun k => T k ∨ k = w.groupOf source) w w₁ := by
    subst hw₁
    unfold absorb
    have herase := (hlink fun k => T k ∨ k = w.groupOf source).eraseSelected (w.groupOf target)
    split
    · exact herase.setSelected hinto moved
    · exact ((herase.setSelected hinto _).setGraph _).retire _ none
  unfold dropBeneath
  split
  · exact habsorb
  · exact habsorb.setSelected hinto _

theorem dropGroup_advances (key : CoordKey) : Advances T w (w.dropGroup key) := by
  unfold dropGroup
  split
  · exact .refl T w
  · exact ((((Advances.refl T w).eraseSelected key).setGraph _).retire _ none).trims
      (revalidateShadows_trims T _ key)

theorem commit_advances {winner : Candidate} (hkey : T key)
    (h : w.commit backend key winner = .ok w') : Advances T w w' := by
  cases commit_steps h with
  | steps s s₁ convert project w₁ w₂ hproject hs hwon hw₁ hw₂ hqueues =>
    have hretired : Advances T w w₁ := by
      rw [hw₁]
      exact ((Advances.refl T w).setSelected hkey s₁).retire s.node convert
    have hrenamed : Advances T w w₂ := by
      rcases hw₂ with rfl | ⟨node, -, rfl⟩
      · exact hretired
      · exact hretired.setGraph _
    exact (hrenamed.trims (revalidateShadows_trims T w₂ key)).queues hqueues

theorem Prepared.advances (h : w.Prepared w') : Advances T w w' := by
  obtain ⟨nextArc, unscanned, rfl⟩ := h
  exact (Advances.refl T w).congr rfl rfl rfl

theorem BehindSteps.advances {w₁ : Walk} (h : BehindSteps backend key w₁ w')
    (hadv : ∀ T, Advances T w w₁) : Advances T w w' := by
  cases h with
  | dirty hdirty heq =>
    subst heq
    exact hadv T
  | confirm lowest start heq =>
    subst heq
    exact (hadv T).congr rfl rfl rfl
  | again heq =>
    subst heq
    exact (hadv _).markDirty
  | scan start h => exact (hadv T).queues (scanLosers_queues h)

theorem joinGroup_advances {r : Resolution} (h : w.joinGroup backend r = .ok w') :
    Advances T w w' := by
  have hdeclare {T : CoordKey → Prop} {w₁ : Walk} (hadv : Advances T w w₁) (key : CoordKey)
      (node : ℕ) : Advances T w (w₁.declareEdge r.candidate.item key node) :=
    hadv.congr rfl rfl rfl
  cases joinGroup_steps h with
  | cut hbelow heq =>
    subst heq
    unfold cutEdge
    split
    · split
      · exact (Advances.refl T w).setGraph _
      · exact .refl T w
    · exact .refl T w
  | dropped hshadow hprep => exact hprep.advances
  | walk w₁ highest origin hw₁ hbelow hshadow hhighest hqueues => exact hw₁.advances.queues hqueues
  | walkLoad w₁ arc hw₁ hbelow hshadow heq =>
    subst heq
    exact hw₁.advances.congr rfl rfl rfl
  | shadow w₁ arc s origin hw₁ hbelow hshadow hs heq =>
    subst heq
    exact ((hw₁.advances.setSelected (.inr rfl) _).trims
      (.addShadowTarget _ _ origin _)).markDirty
  | group w₁ arc highest hw₁ hbelow hshadow hnone hhighest heq =>
    subst heq
    unfold addGroup
    simp only
    have hadd (T : CoordKey → Prop) (node : Node) : Advances T w (w₁.addNode node) :=
      hw₁.advances.congr rfl rfl rfl
    exact (hdeclare ((hadd _ _).setSelected (.inr rfl) _) _ _).markDirty
  | again w₁ arc s p hw₁ hbelow hshadow hs heq =>
    subst heq
    exact (hdeclare (hw₁.advances.setSelected (.inr rfl) _) _ _).markDirty
  | behind w₁ arc s lowest state hw₁ hbelow hshadow hs hbehind hsteps =>
    refine hsteps.advances fun T => hdeclare ?_ _ _
    obtain ⟨nextArc, unscanned, rfl⟩ := hw₁
    exact (Advances.setKept hs (.behind hbehind (.refl _))).congr rfl rfl rfl

end Walk

/-! ## The invariant -/

namespace Stage

variable [Lowercase]

/-- What a mediation establishes and a group keeps, as long as all its
candidates are in `V`. -/
structure Stable (V : Candidate → Prop) (R : Selected → Prop) : Prop where
  decided : ∀ s, (∀ c ∈ s.candidates, V c) → s.Decided → R s
  kept : ∀ s s', (∀ c ∈ s'.candidates, V c) → s.Kept s' → R s → R s'

/-- Every group is under mediation, waits for it or satisfies `R`. -/
structure Mediated (V : Candidate → Prop) (R : Selected → Prop) (st : Stage) : Prop where
  dirtyOk : st.walk.DirtyOk
  versions : ∀ k c, st.walk.Holds k c → V c
  groups : ∀ k s, st.walk.selected.lookup k = some s →
    (∃ key, st.mediated = some key ∧ k = st.walk.groupOf key) ∨ k ∈ st.walk.dirtySet ∨ R s

variable {V : Candidate → Prop} {R : Selected → Prop} {w w' : Walk} {e : Option CoordKey}
  {hand hand' : Set Resolution} {st st' : Stage} {solver : Solver}

theorem Mediated.advances (hR : Stable V R) (h : Mediated V R ⟨w, e, hand⟩)
    (hversions : ∀ k c, w'.Holds k c → V c) {T : CoordKey → Prop} (hadv : Walk.Advances T w w')
    (hT : ∀ k, T k → ∃ key, e = some key ∧ k = w'.groupOf key)
    (hexempt : ∀ k s, w'.selected.lookup k = some s → ∀ key, e = some key → k = w.groupOf key →
      k = w'.groupOf key) :
    Mediated V R ⟨w', e, hand'⟩ where
  dirtyOk := hadv.dirtyOk h.dirtyOk
  versions := hversions
  groups k s' hs' := by
    rcases hadv.lookup k s' hs' with hk | hdirty | ⟨s, hs, hkept⟩
    · exact .inl (hT k hk)
    · exact .inr (.inl hdirty)
    rcases h.groups k s hs with ⟨key, he, hk⟩ | hdirty | hRs
    · exact .inl ⟨key, he, hexempt k s' hs' key he hk⟩
    · exact .inr (.inl (hadv.dirtySet_subset hdirty))
    · exact .inr (.inr (hR.kept s s' (fun c hc => hversions k c ⟨s', hs', hc⟩) hkept hRs))

theorem Mediated.of_groups_eq (hR : Stable V R) (h : Mediated V R ⟨w, e, hand⟩)
    (hversions : ∀ k c, w'.Holds k c → V c) (hgroups : w'.groups = w.groups)
    (hadv : Walk.Advances (fun _ => False) w w') : Mediated V R ⟨w', e, hand'⟩ :=
  h.advances hR hversions hadv (fun _ hk => hk.elim)
    fun _ _ _ key _ hk => by rw [hk, Walk.groupOf, Walk.groupOf, hgroups]

theorem Mediated.of_key {key : CoordKey} (hR : Stable V R)
    (h : Mediated V R ⟨w, some key, hand⟩) (hversions : ∀ k c, w'.Holds k c → V c)
    (hroot : w.groupOf key = key) (hgroups : w'.groups = w.groups)
    (hadv : Walk.Advances (· = key) w w') : Mediated V R ⟨w', some key, hand'⟩ := by
  have hgroupOf (k : CoordKey) : w'.groupOf k = w.groupOf k := by
    rw [Walk.groupOf, Walk.groupOf, hgroups]
  refine h.advances hR hversions hadv (fun k hk => ⟨key, rfl, ?_⟩) fun _ _ _ key _ hk => ?_
  · rw [hgroupOf, hroot, hk]
  · rw [hgroupOf, hk]

/-- An action keeps what a mediation established of a group, or marks the group for another one. -/
theorem Mediated.act (hR : Stable V R) (hok : st.Ok) (h : Mediated V R st)
    (hact : Act solver st st') (hversions : ∀ k c, st'.walk.Holds k c → V c) :
    Mediated V R st' := by
  obtain ⟨hsound, -⟩ := hok
  have hrefl (w : Walk) := Walk.Advances.refl (fun _ => False) w
  cases hact with
  | relocations relocations hcache =>
    exact h.of_groups_eq hR hversions rfl ((hrefl _).congr rfl rfl rfl)
  | markDirty key =>
    exact h.of_groups_eq hR hversions (Walk.groups_markDirty _ _)
      (Walk.Advances.refl _ _).markDirty
  | @note w e hand key s s' hs hnode hcandidates hwinner hcore =>
    have hroot := hsound.selectedRoot key s.node (Walk.nodeOf_of_lookup hs)
    rcases hcore with rfl | hcore
    · exact h.of_key hR hversions hroot rfl ((Walk.Advances.refl (· = key) w).setSelected rfl s')
    · exact h.of_groups_eq hR hversions rfl (.setKept hs (.core hcore))
  | @dropGroup w key hand =>
    exact h.of_groups_eq hR hversions (Walk.lookup_dropGroup w key).2 (Walk.dropGroup_advances key)
  | loaded hs hl nextArc =>
    exact h.of_groups_eq hR hversions rfl
      ((Walk.Advances.setKept hs (.loaded (hl.imp fun _ _ => Refreshed.reloaded) (.refl _))).congr
        rfl rfl rfl)
  | giveWay hs hbest stops =>
    exact h.of_groups_eq hR hversions (Walk.giveWay_carries _ stops hs).groups_eq
      (Walk.giveWay_advances _ _ _ stops)
  | @union w e hand r source hr =>
    refine h.advances hR hversions (Walk.union_advances (T := fun _ => False) source _)
      (fun _ hk => hk.elim) fun k s hs key _ hk => ?_
    -- The group under mediation is renamed only if it lost its selection.
    have hw : w.Sound := hsound
    have hidem : w.groupOf (w.groupOf key) = w.groupOf key :=
      hw.groupOf_groupOf key
    have hself := (hw.union source r.candidate.key).selectedRoot k s.node
      (Walk.nodeOf_of_lookup hs)
    rw [Walk.groupOf_union hw, hk, hidem, ← hk] at hself
    rw [Walk.groupOf_union hw, ← hk]
    exact hself.symm
  | join hr hjoin =>
    exact h.of_groups_eq hR hversions (Walk.groups_joinGroup hjoin)
      (Walk.joinGroup_advances hjoin)
  | scan hscan =>
    have hqueues := Walk.scanLosers_queues hscan
    exact h.of_groups_eq hR hversions (by rw [hqueues.frame]) ((hrefl _).queues hqueues)
  | @commit w w' key hand winner hwinner hcommit =>
    obtain ⟨s, hs, -⟩ := hwinner
    have hroot := hsound.selectedRoot key s.node (Walk.nodeOf_of_lookup hs)
    exact h.of_key hR hversions hroot (Walk.commit_wins hs hcommit).1
      (Walk.commit_advances rfl hcommit)
  | unscanned rest
  | walkLoads hloads
  | confirm => exact h.of_groups_eq hR hversions rfl ((hrefl _).congr rfl rfl rfl)
  | @takeDirty w w' hand key htake =>
    unfold Walk.takeDirty at htake
    split at htake
    · cases htake
    rename_i rest hdirty
    cases htake
    obtain ⟨hnodup, hmem⟩ := h.dirtyOk
    simp only [hdirty, List.nodup_cons, List.mem_cons] at hnodup hmem
    refine ⟨⟨hnodup.2, fun k => ?_⟩, hversions, fun k s hs => ?_⟩
    · change k ∈ w.dirtySet.erase key ↔ k ∈ rest
      rw [Finset.mem_erase, hmem]
      constructor
      · rintro ⟨hne, rfl | hk⟩
        · exact absurd rfl hne
        · exact hk
      · exact fun hk => ⟨fun heq => hnodup.1 (heq ▸ hk), .inr hk⟩
    · rcases h.groups k s hs with ⟨key', he, -⟩ | hk | hRs
      · cases he
      · by_cases hkey : k = key
        · refine .inl ⟨key, rfl, ?_⟩
          subst hkey
          exact (hsound.selectedRoot k s.node (Walk.nodeOf_of_lookup hs)).symm
        · exact .inr (.inl (Finset.mem_erase.mpr ⟨hkey, hk⟩))
      · exact .inr (.inr hRs)

theorem Mediated.turn (hR : Stable V R) (hok : st.Ok) (h : Mediated V R st)
    (hturn : Turn solver st st') : Mediated V R st' := by
  cases hturn with
  | drop hsub | read hpop relocations hcache => exact ⟨h.dirtyOk, h.versions, h.groups⟩
  | @rekey w key hand =>
    refine ⟨h.dirtyOk, h.versions, fun k s hs => (h.groups k s hs).imp_left ?_⟩
    rintro ⟨key', he, rfl⟩
    cases he
    exact ⟨w.groupOf key, rfl, (hok.sound.groupOf_groupOf key).symm⟩
  | @finish w key hand hdone =>
    refine ⟨h.dirtyOk, h.versions, fun k s hs => .inr ?_⟩
    rcases h.groups k s hs with ⟨key', he, rfl⟩ | hk
    · cases he
      refine hdone.imp_right fun hdecided => ?_
      exact hR.decided s (fun c hc => h.versions _ c ⟨s, hs, hc⟩) (hdecided s hs)
    · exact hk
  | walked hwalk =>
    have hqueues := Walk.walkExcludedDependencies_queues hwalk
    refine h.of_groups_eq hR (fun k c hc => h.versions k c (hqueues.holds_iff.mp hc))
      (by rw [hqueues.frame]) ((Walk.Advances.refl _ _).queues hqueues)

/-- In every stage whose candidates have all been in `V`, a group that is not
under mediation and does not wait for it satisfies `R`. -/
theorem Reach.mediated {N : Walk → Walk → Prop} {root : SolverRoot}
    (hR : Stable V R) (hN : ∀ w w', N w w' → ∀ k c, w'.Holds k c → V c)
    (h : Reach N solver root st) : Mediated V R st := by
  induction h with
  | start h =>
    obtain ⟨node, hqueues⟩ := start_queues h
    have hnone (k : CoordKey) := hqueues.lookup_none k rfl
    refine ⟨?_, fun k c ⟨s, hs, _⟩ => ?_, fun k s hs => ?_⟩
    · rw [hqueues.frame]
      exact ⟨List.nodup_nil, fun k => by simp [Walk.new]⟩
    · rw [hnone] at hs
      cases hs
    · rw [hnone] at hs
      cases hs
  | act hreach hact hstep ih => exact ih.act hR hreach.ok hact (hN _ _ hstep)
  | turn hreach hturn ih => exact ih.turn hR hreach.ok hturn

end Stage

/-- Between two mediations every group has what a mediation establishes. -/
theorem Solver.Between.groups [Lowercase] {N : Walk → Walk → Prop} {solver : Solver}
    {root : SolverRoot} {V : Candidate → Prop} {R : Selected → Prop} {w : Walk}
    (hR : Stage.Stable V R) (hN : ∀ w w', N w w' → ∀ k c, w'.Holds k c → V c)
    (h : Solver.Between N solver root w) {k : CoordKey} {s : Selected}
    (hs : w.selected.lookup k = some s) : R s := by
  obtain ⟨hvisits, hdirty⟩ := h.visits
  have hmediated := Stage.Reach.mediated hR hN hvisits
  rcases hmediated.groups k s hs with ⟨key, he, -⟩ | hk | hRs
  · cases he
  · have hmem := (hmediated.dirtyOk.2 k).mp hk
    rw [hdirty] at hmem
    cases hmem
  · exact hRs

end Raeva
