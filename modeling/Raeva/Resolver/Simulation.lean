import Raeva.Resolver.Provenance

/-!
# The solver runs on the mediation machine

Every procedure of the solver takes transitions of the machine only, whatever
the backend answers and however it ends.
-/

namespace Raeva

open List

namespace Solver

open Stage

open Run hiding pure bind

variable [Lowercase] {N : Walk → Walk → Prop} {solver : Solver} {root : SolverRoot}
  {e : Option CoordKey} {hand : Set Resolution}

/-- The walk is at a reachable stage with this group under mediation and this
hand. -/
def Visits (N : Walk → Walk → Prop) (solver : Solver) (root : SolverRoot) (e : Option CoordKey)
    (hand : Set Resolution) (w : Walk) : Prop :=
  Reach N solver root ⟨w, e, hand⟩

def Seen (N : Walk → Walk → Prop) (solver : Solver) (root : SolverRoot) (w : Walk) : Prop :=
  ∃ e hand, Visits N solver root e hand w

/-- A procedure that takes transitions only, from a stage with `P` to one with `Q`. -/
abbrev Moves (N : Walk → Walk → Prop) (solver : Solver) (root : SolverRoot) {α : Type}
    (P : Walk → Prop) (m : Mediating α) (Q : α → Walk → Prop) : Prop :=
  Triple N (Seen N solver root) P m Q

/-- A procedure that leaves the group under mediation. -/
abbrev Stays (N : Walk → Walk → Prop) (solver : Solver) (root : SolverRoot) (e : Option CoordKey)
    {α : Type} (m : Mediating α) : Prop :=
  Moves N solver root (Visits N solver root e ∅) m fun _ => Visits N solver root e ∅

variable {w : Walk} {best : Candidate} {s₀ s : Selected} {key key₀ : CoordKey}
  {hand' : Set Resolution} {probes : List Candidate} {fuel : ℕ}

theorem Visits.seen (h : Visits N solver root e hand w) : Seen N solver root w :=
  ⟨e, hand, h⟩

theorem Visits.drop (h : Visits N solver root e hand w) (hsub : hand' ⊆ hand) :
    Visits N solver root e hand' w :=
  Reach.turn h (.drop hsub)

theorem Visits.act {w' : Walk} {e' : Option CoordKey} (h : Visits N solver root e hand w)
    (hact : Act solver ⟨w, e, hand⟩ ⟨w', e', hand'⟩) (hN : N w w') :
    Seen N solver root w' ∧ Visits N solver root e' hand' w' :=
  ⟨⟨e', hand', Reach.act h hact hN⟩, Reach.act h hact hN⟩

theorem Visits.note {w : Walk} {key : CoordKey} {s s' : Selected}
    (h : Visits N solver root e hand w) (hN : N w (w.setSelected key s'))
    (hs : w.selected.lookup key = some s) (hnode : s'.node = s.node)
    (hcandidates : s'.candidates = s.candidates)
    (hwinner : s'.winner = s.winner ∨ ∃ c ∈ s.candidates, s'.winner = some c)
    (hcore : e = some key ∨ s.SameCore s') :
    Seen N solver root (w.setSelected key s') ∧ Visits N solver root e ∅ (w.setSelected key s') :=
  h.act (.note hs hnode hcandidates hwinner hcore) hN

theorem Visits.sound (h : Visits N solver root e hand w) : w.Sound :=
  (Reach.ok h).sound

/-! ## Loads -/

theorem loadProbe_triple (candidate : Candidate) (K : Table CoordKey Selected → Prop) :
    Moves N solver root (fun w => Visits N solver root e hand w ∧ K w.selected)
      (loadProbe solver candidate)
      fun loaded w =>
        loaded.ReadFrom solver candidate ∧ Visits N solver root e hand w ∧ K w.selected := by
  refine .act fun w loaded w' hN _ ⟨hvisits, hK⟩ heq => ?_
  split at heq
  · rename_i loaded' relocations hload
    cases heq
    have hcache := Reach.supports hvisits
    have hcache' := loadCandidate_keeps solver candidate _ hcache
    rw [hload] at hcache'
    obtain ⟨hseen, hvisits⟩ := hvisits.act (.relocations relocations hcache') hN
    exact ⟨hseen, loadCandidate_readFrom ⟨_, _, hcache, hload⟩, hvisits, hK⟩
  · cases heq

theorem readFrom_of_mem_loadEach {cache : RelocationCache}
    (hcache : solver.backend.Supports cache) :
    solver.backend.Supports (loadEach solver probes cache).2 ∧
    (∀ p ∈ probes.zip (loadEach solver probes cache).1, ∀ loaded, p.2 = .ok loaded →
      loaded.ReadFrom solver p.1) ∧
    ∀ load ∈ (loadEach solver probes cache).1, ∀ loaded, load = .ok loaded →
      ∃ c ∈ probes, loaded.ReadFrom solver c := by
  induction probes generalizing cache with
  | nil => simpa [loadEach] using hcache
  | cons probe rest ih =>
    unfold loadEach
    rcases hload : loadCandidate solver probe cache with ⟨load, cache'⟩
    have hfirst (loaded : Load) (h : load = .ok loaded) : loaded.ReadFrom solver probe :=
      loadCandidate_readFrom ⟨_, _, hcache, h ▸ hload⟩
    have hcache' := loadCandidate_keeps solver probe _ hcache
    rw [hload] at hcache'
    simp only
    split
    · simp only [zip_cons_cons, zip_nil_right, mem_singleton, forall_eq]
      exact ⟨hcache', hfirst, fun loaded h => ⟨probe, mem_cons_self, hfirst loaded h⟩⟩
    obtain ⟨hcache'', hzip, hmem⟩ := ih hcache'
    simp only [zip_cons_cons, mem_cons]
    refine ⟨hcache'', ?_, ?_⟩
    · rintro p (rfl | hp)
      · exact hfirst
      · exact hzip p hp
    · rintro load' (rfl | hload') loaded heq
      · exact ⟨probe, .inl rfl, hfirst loaded heq⟩
      · obtain ⟨c, hc, hread⟩ := hmem load' hload' loaded heq
        exact ⟨c, .inr hc, hread⟩

theorem loadInOrder_triple (probes : List Candidate) :
    Moves N solver root (Visits N solver root e hand) (loadInOrder solver probes)
      fun loads w =>
        ((∀ p ∈ probes.zip loads, ∀ loaded, p.2 = .ok loaded → loaded.ReadFrom solver p.1) ∧
          ∀ load ∈ loads, ∀ loaded, load = .ok loaded → ∃ c ∈ probes, loaded.ReadFrom solver c) ∧
        Visits N solver root e hand w := by
  refine .act fun w loads w' hN _ hvisits heq => ?_
  simp only [Except.ok.injEq, Prod.mk.injEq] at heq
  obtain ⟨rfl, rfl⟩ := heq
  obtain ⟨hcache, hread⟩ := readFrom_of_mem_loadEach (Reach.supports hvisits)
  obtain ⟨hseen, hvisits⟩ := hvisits.act (.relocations _ hcache) hN
  exact ⟨hseen, hread, hvisits⟩

/-! ## Candidates -/

theorem addResolution_triple {r : Resolution} (hr : r ∈ hand) :
    Moves N solver root (Visits N solver root e hand) (addResolution solver r)
      fun _ => Visits N solver root e (shadowsOf hand) := by
  have hkept {hand' : Set Resolution} (hsub : shadowsOf hand ⊆ hand') :
      shadowsOf hand ⊆ shadowsOf hand' := fun r' hr' => ⟨hsub hr', hr'.2⟩
  unfold addResolution
  refine .bind (R := fun _ => Visits N solver root e (insert r (shadowsOf hand)))
    (.check fun w _ _ hvisits _ => hvisits.drop ?_) fun _ => ?_
  · rintro r' (rfl | hr')
    · exact hr
    · exact hr'.1
  refine .bind (.each fun source _ => .modify fun w hN _ hvisits => ?_)
    fun _ => .step fun w w' hN _ hvisits heq => ?_
  · obtain ⟨hseen, hvisits⟩ := hvisits.act (.union source (Set.mem_insert r _)) hN
    exact ⟨hseen, hvisits.drop (Set.insert_subset_insert (hkept (Set.subset_insert r _)))⟩
  · obtain ⟨hseen, hvisits⟩ := hvisits.act (.join (Set.mem_insert r _) heq) hN
    exact ⟨hseen, hvisits.drop (hkept (Set.subset_insert r _))⟩

theorem applyLoad_triple {loaded : Load} (hloaded : loaded.ReadFrom solver best) :
    Moves N solver root
      (fun w => w.Holds key best ∧ Visits N solver root e ∅ w) (applyLoad solver key best loaded)
      fun _ => Visits N solver root e ∅ := by
  have hgiveWay (stops : Bool) {f : Walk → Except Fault Walk}
      (hf : ∀ w s, w.selected.lookup key = some s → f w = .ok (w.giveWay key s best stops)) :
      Moves N solver root (fun w => w.Holds key best ∧ Visits N solver root e ∅ w)
        (.step f) fun _ => Visits N solver root e {r | r.ReadFrom solver best.item best.coord} := by
    refine .step fun w w' hN _ hw heq => ?_
    obtain ⟨⟨s, hs, hbest⟩, hvisits⟩ := hw
    rw [hf w s hs, Except.ok.injEq] at heq
    subst heq
    exact hvisits.act (.giveWay hs hbest stops) hN
  have hadd {r : Resolution} (hr : r.ReadFrom solver best.item best.coord) : Moves N solver root
      (Visits N solver root e {r | r.ReadFrom solver best.item best.coord}) (addResolution solver r)
      fun _ => Visits N solver root e ∅ :=
    (addResolution_triple hr).post fun _ _ _ hvisits => hvisits.drop (Set.empty_subset _)
  unfold applyLoad
  cases loaded with
  | ready candidate =>
    refine .step fun w w' hN _ hw heq => ?_
    obtain ⟨⟨s, hs, hbest⟩, hvisits⟩ := hw
    simp only [hs, Except.ok.injEq] at heq
    subst heq
    refine hvisits.act (.loaded hs ?_ (w.nextArc + 1)) hN
    rw [forall₂_map_right_iff]
    refine forall₂_same.mpr fun c _ => ?_
    split
    · rename_i hc
      exact .of_loadedFrom (hc ▸ hloaded) w.nextArc
    · exact .refl _ c
  | relocated r =>
    exact .bind (hgiveWay true fun w s hs => by simp only [hs]) fun _ => hadd hloaded
  | cyclic r =>
    exact .bind (hgiveWay false fun w s hs => by simp only [hs]) fun _ => hadd hloaded
  | excluded =>
    refine (hgiveWay true fun w s hs => ?_).post fun _ _ _ hvisits =>
      hvisits.drop (Set.empty_subset _)
    simp only [hs]

theorem markDirty_triple (key : Walk → CoordKey) :
    Stays N solver root e (Run.modify fun w => w.markDirty (key w) : Mediating Unit) :=
  .modify fun _ hN _ hvisits => hvisits.act (.markDirty _) hN

theorem applyLoads_triple {loads : List (Candidate × Except ResolveError Load)}
    (hloads : ∀ p ∈ loads, ∀ loaded, p.2 = .ok loaded → loaded.ReadFrom solver p.1) (left : ℕ) :
    Stays N solver root e (applyLoads solver key loads left) := by
  induction loads generalizing left with
  | nil => exact .skip
  | cons p rest ih =>
    obtain ⟨probe, load⟩ := p
    have hrest := ih (fun p hp => hloads p (mem_cons_of_mem _ hp)) (left - 1)
    unfold applyLoads
    refine .bind_read fun key' =>
      .bind (R := fun held w => (held = true → w.Holds key' probe) ∧
        Visits N solver root e ∅ w)
        (.read fun w _ h => ⟨Walk.holds_iff.mp, h⟩) fun held => ?_
    split
    · rename_i hheld
      refine .bind (R := fun loaded w => loaded.ReadFrom solver probe ∧
        w.Holds key' probe ∧ Visits N solver root e ∅ w)
        (.check fun w loaded _ ⟨hholds, hvisits⟩ heq => ?_) fun loaded =>
        .of_pre fun hloaded => .bind (applyLoad_triple hloaded) fun _ => ?_
      · refine ⟨hloads _ mem_cons_self loaded ?_, hholds hheld, hvisits⟩
        cases load with
        | error e => cases heq
        | ok l => exact congrArg Except.ok (Except.ok.inj heq)
      · split
        · exact hrest
        · exact hrest
        · exact .skip
    · refine .pre (fun _ _ h => h.2) ?_
      simp only
      split
      · exact .bind (markDirty_triple _) fun _ => hrest
      · exact hrest

theorem loadOne_triple (key : CoordKey) (candidate : Candidate) :
    Stays N solver root e (loadOne solver key candidate) := by
  unfold loadOne
  split
  · exact .fail
  refine .bind_read fun found => ?_
  split
  · exact .fail
  refine .bind (loadInOrder_triple _) fun loads => .of_pre fun hloads =>
    .bind (applyLoads_triple hloads.1 _) fun relocated => ?_
  split
  · exact .skip
  simp only
  split
  · exact .bind (markDirty_triple _) fun _ => .skip
  · exact .skip

theorem load_triple (key : CoordKey) (candidate : Candidate) :
    Stays N solver root e (load solver key candidate) := by
  unfold load
  refine .bind (loadOne_triple key candidate) fun found => ?_
  split
  · exact .skip
  refine .bind_read fun others => .each fun other _ => ?_
  refine .bind_read fun key' => .bind_read fun held => ?_
  split
  · exact .bind (loadOne_triple key' other) fun _ => .skip
  · exact .skip

theorem loadHeld_triple (key : CoordKey) (candidate : Candidate) :
    Stays N solver root e (loadHeld solver key candidate) := by
  unfold loadHeld
  refine .bind_read fun key' => .bind_read fun held => ?_
  split
  · exact load_triple key' candidate
  · exact .skip

omit [Lowercase] in
theorem getElem?_of_pending {candidate : Candidate} {start index : ℕ}
    (h : w.pending key candidate start = some index) :
    ∃ s, w.selected.lookup key = some s ∧ s.candidates[index]? = some candidate := by
  unfold Walk.pending at h
  split at h
  · cases h
  split at h
  · cases h
  rename_i s hs
  split at h
  · cases h
  rw [Option.map_eq_some_iff] at h
  obtain ⟨offset, hoffset, rfl⟩ := h
  rw [findIdx?_eq_some_iff_getElem] at hoffset
  obtain ⟨hlt, heq, -⟩ := hoffset
  refine ⟨s, (Option.filter_eq_some_iff.mp hs).1, ?_⟩
  rw [← getElem?_drop, getElem?_eq_getElem hlt]
  exact congrArg some (by simpa using heq)

theorem scan_triple (key : CoordKey) (start : ℕ) :
    Stays N solver root e (Run.step (Walk.scanLosers solver.backend key start)) :=
  .step fun _ _ hN _ hvisits heq => hvisits.act (.scan heq) hN

theorem confirm_triple (key : CoordKey) (candidate : Candidate) (start : ℕ) :
    Stays N solver root e (confirm solver key candidate start) := by
  unfold confirm
  refine .bind_read fun key' => .bind (R := fun found w => (∀ index, found = some index →
      ∃ s, w.selected.lookup key' = some s ∧ s.candidates[index]? = some candidate) ∧
        Visits N solver root e ∅ w)
      (.read fun _ _ h => ⟨fun _ => getElem?_of_pending, h⟩) fun found => ?_
  cases found with
  | none => exact .pre (fun _ _ h => h.2) (markDirty_triple _)
  | some index =>
    refine .bind (.pre (fun _ _ h => ⟨h.2, h.1 index rfl⟩)
      (loadProbe_triple candidate fun selected =>
        ∃ s, selected.lookup key' = some s ∧ s.candidates[index]? = some candidate)) fun loaded =>
      .of_pre fun hloaded => ?_
    cases loaded with
    | ready candidate' =>
      refine .bind (R := fun _ => Visits N solver root e ∅)
        (.step fun w w' hN _ hw heq => ?_) fun _ => scan_triple key' start
      obtain ⟨hvisits, s, hs, hindex⟩ := hw
      obtain ⟨hlt, hget⟩ := List.getElem?_eq_some_iff.mp hindex
      simp only [Walk.replaceAt, hs, hlt, if_true, Except.ok.injEq] at heq
      subst heq
      have hrefreshed : Refreshed solver.backend candidate { candidate' with arc := w.nextArc } :=
        .of_loadedFrom hloaded w.nextArc
      exact hvisits.act
        (.loaded hs (forall₂_set (.refl solver.backend) hindex hrefreshed) (w.nextArc + 1)) hN
    | relocated r | cyclic r | excluded => exact .pre (fun _ _ h => h.1) (markDirty_triple _)

/-! ## Mediation of one group -/

def HasCore (key : CoordKey) (s₀ : Selected) (selected : Table CoordKey Selected) : Prop :=
  ∃ s, selected.lookup key = some s ∧ s.candidates = s₀.candidates ∧ s.winner = s₀.winner

theorem noteChecked_triple (key : CoordKey) (candidate : Candidate) {p : Prop} :
    Moves N solver root
      (fun w => Visits N solver root e ∅ w ∧ (p → HasCore key₀ s₀ w.selected))
      (noteChecked key candidate)
      fun _ w => Visits N solver root e ∅ w ∧ (p → HasCore key₀ s₀ w.selected) := by
  refine .modify fun w hN hseen ⟨hvisits, hcore⟩ => ?_
  cases hs : w.selected.lookup key with
  | none => exact ⟨hseen, hvisits, hcore⟩
  | some s =>
    simp only [hs] at hN ⊢
    obtain ⟨hseen, hvisits⟩ := hvisits.note hN hs rfl rfl (.inl rfl) (.inr ⟨rfl⟩)
    refine ⟨hseen, hvisits, fun hp => ?_⟩
    obtain ⟨s', hs', hcandidates, hwinner⟩ := hcore hp
    by_cases hkey : key₀ = key
    · subst hkey
      rw [hs] at hs'
      cases hs'
      exact ⟨_, (Walk.lookup_setSelected _ _ _ _).trans (if_pos rfl), hcandidates, hwinner⟩
    · exact ⟨s', by rw [Walk.lookup_setSelected, if_neg hkey, hs'], hcandidates, hwinner⟩

theorem probeDirty_triple (key : CoordKey) (l : List Candidate) (p : Prop) :
    Moves N solver root
      (fun w => Visits N solver root e ∅ w ∧ (p → HasCore key₀ s₀ w.selected))
      (probeDirty solver key l)
      fun again w => Visits N solver root e ∅ w ∧
        (p → again = false → HasCore key₀ s₀ w.selected) := by
  induction l generalizing p with
  | nil => exact .pure fun _ _ h => ⟨h.1, fun hp _ => h.2 hp⟩
  | cons candidate rest ih =>
    unfold probeDirty
    refine .bind_read fun key' =>
      .bind_read fun held => ?_
    split
    · refine .bind_read fun already => ?_
      split
      · exact .bind (noteChecked_triple key' candidate) fun _ => ih p
      refine .bind (loadProbe_triple candidate fun selected =>
        p → HasCore key₀ s₀ selected) fun loaded => .of_pre fun _ => ?_
      -- After a relocation the group is mediated again anyway.
      have hload : Moves N solver root
          (fun w => Visits N solver root e ∅ w ∧ (p → HasCore key₀ s₀ w.selected))
          (do
            load solver key' candidate
            let _ ← probeDirty solver key rest
            pure true)
          fun again w => Visits N solver root e ∅ w ∧
            (p → again = false → HasCore key₀ s₀ w.selected) :=
        .pre (fun _ _ h => h.1) <|
          .bind (load_triple key' candidate) fun _ =>
            .bind (.pre (fun _ _ h => ⟨h, False.elim⟩) (ih False)) fun _ =>
              .pure fun _ _ h => ⟨h.1, fun _ hfalse => by cases hfalse⟩
      cases loaded with
      | relocated r | cyclic r => exact hload
      | ready c | excluded => exact .bind (noteChecked_triple key' candidate) fun _ => ih p
    · exact ih p

theorem best_congr {s' : Selected} (h : s'.candidates = s.candidates) : s'.best = s.best := by
  rw [Selected.best, Selected.best, Selected.constraints, Selected.constraints, h]

theorem Visits.finish {w : Walk} {key : CoordKey} (h : Visits N solver root (some key) hand w)
    (hroot : w.groupOf key = key)
    (hdone : key ∈ w.dirtySet ∨ ∀ s, w.selected.lookup key = some s → s.Decided) :
    Visits N solver root none ∅ w := by
  have hfinish : Visits N solver root none hand w := .turn h (.finish (by rwa [hroot]))
  exact hfinish.drop (Set.empty_subset _)

/-- The group is settled on a winner that is its best candidate, or it is
mediated again. -/
theorem settleOn_triple (key : CoordKey) (best : Candidate) :
    Moves N solver root
      (fun w => Visits N solver root (some key) ∅ w ∧ w.groupOf key = key ∧ (key ∈ w.dirtySet ∨
          ∃ s, w.selected.lookup key = some s ∧ s.best = some best ∧ s.winner = some best))
      (settleOn solver key) fun _ => Visits N solver root none ∅ := by
  unfold settleOn
  refine .bind (R := fun _ w => Visits N solver root (some key) ∅ w ∧
    w.groupOf key = key ∧
      (key ∈ w.dirtySet ∨ ∃ s, w.selected.lookup key = some s ∧ s.Decided)) ?_ fun _ => ?_
  · refine .modify fun w hN hseen ⟨hvisits, hroot, hdone⟩ => ?_
    cases hs : w.selected.lookup key with
    | none =>
      refine ⟨hseen, hvisits, hroot, hdone.imp_right fun ⟨s, hs', _⟩ => ?_⟩
      rw [hs] at hs'
      cases hs'
    | some s =>
      simp only [hs] at hN ⊢
      obtain ⟨hseen, hvisits⟩ := hvisits.note hN hs rfl rfl (.inl rfl) (.inl rfl)
      refine ⟨hseen, hvisits, hroot, hdone.imp_right fun ⟨s', hs', hbest, hwinner⟩ => ?_⟩
      rw [hs] at hs'
      cases hs'
      refine ⟨s.settle, (Walk.lookup_setSelected _ _ _ _).trans (if_pos rfl), .inl
        ⟨best, (best_congr rfl).trans hbest, hwinner, rfl⟩⟩
  · refine .step fun w w' hN _ ⟨hvisits, hroot, hdone⟩ heq => ?_
    obtain ⟨hseen, hvisits⟩ := hvisits.act (.scan heq) hN
    refine ⟨hseen, ?_⟩
    have hqueues := Walk.scanLosers_queues heq
    refine hvisits.finish (by rw [hqueues.groupOf_eq, hroot]) ?_
    rcases hdone with hmem | ⟨s, hs, hdecided⟩
    · left
      rw [hqueues.frame]
      exact hmem
    · right
      intro s'' hs''
      obtain ⟨s', hs', hcore⟩ := hqueues.lookup_some key s hs
      rw [hs'] at hs''
      cases hs''
      rw [hcore.eq]
      exact hdecided

theorem modifyGroup_triple {P : Walk → Prop} {Q : Walk → Prop} {f : Selected → Selected}
    (hnode : ∀ s, (f s).node = s.node) (hcandidates : ∀ s, (f s).candidates = s.candidates)
    (hPQ : ∀ w s, w.Sound → P w → w.selected.lookup key = some s →
      ((f s).winner = s.winner ∨ ∃ c ∈ s.candidates, (f s).winner = some c) ∧
        Q (w.setSelected key (f s))) :
    Moves N solver root (fun w => Visits N solver root (some key) ∅ w ∧ P w)
      (modifyGroup key f) fun _ w => Visits N solver root (some key) ∅ w ∧ Q w := by
  refine .step fun w w' hN _ ⟨hvisits, hP⟩ heq => ?_
  cases hs : w.selected.lookup key with
  | none => simp [hs] at heq
  | some s =>
    simp only [hs, Except.ok.injEq] at heq
    subst heq
    obtain ⟨hwinner, hQ⟩ := hPQ w s hvisits.sound hP hs
    obtain ⟨hseen, hvisits⟩ := hvisits.note hN hs (hnode s) (hcandidates s) hwinner (.inl rfl)
    exact ⟨hseen, hvisits, hQ⟩

theorem isSome_noteConflict (h : s.candidates ≠ []) : s.noteConflict.conflict.isSome = true := by
  unfold Selected.noteConflict
  simp only
  split
  · rename_i hnone
    rw [Option.or_eq_none_iff] at hnone
    exact absurd (head?_eq_none_iff.mp hnone.2) h
  · rfl

theorem noteConflict_eq (s : Selected) :
    s.noteConflict = { s with conflict := s.noteConflict.conflict } := by
  unfold Selected.noteConflict
  simp only
  split <;> rfl

theorem mem_of_best (h : s.best = some best) : best ∈ s.candidates :=
  mem_of_mem_filter (mem_of_minBy h)

/-- The best candidate wins if it is loaded, or else mediation starts again. -/
theorem win_triple (hbest : s₀.best = some best)
    (again : Moves N solver root (Visits N solver root (some key) ∅)
      (reconsider solver fuel key) fun _ => Visits N solver root none ∅) :
    Moves N solver root
      (fun w => Visits N solver root (some key) ∅ w ∧ HasCore key s₀ w.selected)
      (do
        modifyGroup key fun s => { s with conflict := none }
        if ← Run.read fun w =>
            ((w.selected.lookup key).bind Selected.winner).any (·.same best) then do
          modifyGroup key fun s => { s with winner := some best }
          settleOn solver key
        else if best.resolvedProject.isNone then do
          load solver key best
          reconsider solver fuel key
        else do
          Run.step (Walk.commit solver.backend key best)
          settleOn solver key)
      fun _ => Visits N solver root none ∅ := by
  have hroot {w : Walk} {s : Selected} (hw : w.Sound) (hs : w.selected.lookup key = some s) :
      w.groupOf key = key := hw.selectedRoot key s.node (Walk.nodeOf_of_lookup hs)
  refine .bind (modifyGroup_triple (fun _ => rfl) (fun _ => rfl)
    (Q := fun w => HasCore key s₀ w.selected) fun w s _ hcore hs => ?_) fun _ =>
    .bind_read fun same => ?_
  · obtain ⟨s', hs', hcandidates, hwinner⟩ := hcore
    rw [hs] at hs'
    cases hs'
    exact ⟨.inl rfl, _, (Walk.lookup_setSelected _ _ _ _).trans (if_pos rfl), hcandidates, hwinner⟩
  split
  · -- A declaration took the place of its own shadow.
    refine .bind (modifyGroup_triple (fun _ => rfl) (fun _ => rfl) fun w s hw hcore hs => ?_)
      fun _ => settleOn_triple key best
    have hkey : w.groupOf key = key := hroot hw hs
    obtain ⟨s', hs', hcandidates, hwinner⟩ := hcore
    rw [hs] at hs'
    cases hs'
    exact ⟨.inr ⟨best, hcandidates ▸ mem_of_best hbest, rfl⟩, hkey,
      .inr ⟨_, (Walk.lookup_setSelected _ _ _ _).trans (if_pos rfl),
        (best_congr hcandidates).trans hbest, rfl⟩⟩
  · split
    · exact .bind (.pre (fun _ _ h => h.1) (load_triple key best)) fun _ => again
    refine .bind (.step fun w w' hN _ hw heq => ?_)
      fun _ => settleOn_triple key best
    obtain ⟨hvisits, s, hs, hcandidates, hwinner⟩ := hw
    have hmem : best ∈ s.candidates := hcandidates ▸ mem_of_best hbest
    obtain ⟨hgroups, hwins⟩ := Walk.commit_wins hs heq
    have hkey : w'.groupOf key = key := by
      rw [Walk.groupOf, hgroups]
      exact hroot hvisits.sound hs
    obtain ⟨hseen, hvisits⟩ := hvisits.act (.commit ⟨s, hs, hmem⟩ heq) hN
    refine ⟨hseen, hvisits, hkey, hwins.imp_right ?_⟩
    rintro ⟨s', hs', hcandidates', hwinner'⟩
    exact ⟨s', hs', (best_congr (hcandidates'.trans hcandidates)).trans hbest, hwinner'⟩

/-- Mediating a group takes transitions of the machine only; by induction on the fuel. -/
theorem reconsider_triple (fuel : ℕ) (key : CoordKey) :
    Moves N solver root (Visits N solver root (some key) ∅)
      (reconsider solver fuel key) fun _ => Visits N solver root none ∅ := by
  induction fuel generalizing key with
  | zero => exact .fail
  | succ fuel ih =>
    unfold reconsider
    refine .bind (R := fun key' w => Visits N solver root (some key') ∅ w ∧
        w.groupOf key' = key') (.read fun w _ h =>
          ⟨Reach.turn h .rekey, h.sound.groupOf_groupOf key⟩) fun key' =>
      .bind (R := fun found w => Visits N solver root (some key') ∅ w ∧
        w.groupOf key' = key' ∧ w.selected.lookup key' = found)
        (.read fun w _ h => ⟨h.1, h.2, rfl⟩) fun found => ?_
    cases found with
    | none =>
      refine .pure fun w _ hw => ?_
      obtain ⟨hvisits, hroot, hnone⟩ := hw
      refine hvisits.finish hroot (.inr fun s hs => ?_)
      rw [hnone] at hs
      cases hs
    | some s =>
      refine .bind (R := fun _ w => Visits N solver root (some key') ∅ w ∧
        w.groupOf key' = key' ∧ w.selected.lookup key' = some { s with settled := none })
        (.modify fun w hN _ hw => ?_) fun _ => ?_
      · obtain ⟨hvisits, hroot, hs⟩ := hw
        obtain ⟨hseen, hvisits⟩ := hvisits.note hN hs rfl rfl (.inl rfl) (.inl rfl)
        exact ⟨hseen, hvisits, hroot, (Walk.lookup_setSelected _ _ _ _).trans (if_pos rfl)⟩
      split
      · refine .modify fun w hN _ hw => ?_
        obtain ⟨hvisits, hroot, -⟩ := hw
        obtain ⟨hnone, hgroups⟩ := Walk.lookup_dropGroup w key'
        obtain ⟨hseen, hvisits⟩ := hvisits.act .dropGroup hN
        refine ⟨hseen, hvisits.finish ?_ (.inr fun s hs => ?_)⟩
        · rw [Walk.groupOf, hgroups]
          exact hroot
        · rw [hnone] at hs
          cases hs
      · rename_i hdeclared
        split
        · exact .bind (R := fun _ => Visits N solver root (some key') ∅)
            (.pre (fun _ _ h => h.1)
              (.each fun c _ => loadHeld_triple key' c)) fun _ => ih key'
        cases hbest : s.best with
        | none =>
          refine .post (modifyGroup_triple
            (P := fun w => w.groupOf key' = key' ∧
              w.selected.lookup key' = some { s with settled := none })
            (Q := fun w => w.groupOf key' = key' ∧
              ∀ s', w.selected.lookup key' = some s' → s'.Decided)
            (fun s => by rw [noteConflict_eq]) (fun s => by rw [noteConflict_eq])
            fun w s' _ hw hs' => ⟨.inl (by rw [noteConflict_eq]), hw.1, fun s'' hs'' => ?_⟩)
            fun _ w _ hw => hw.1.finish hw.2.1 (.inr hw.2.2)
          rw [hw.2] at hs'
          cases hs'
          rw [Walk.lookup_setSelected, if_pos rfl] at hs''
          cases hs''
          refine .inr ⟨?_, isSome_noteConflict ?_, ?_⟩
          · rw [noteConflict_eq]
            exact hbest
          · rintro hnil
            exact hdeclared (by simp [show s.candidates = [] from hnil])
          · rw [noteConflict_eq]
        | some best =>
          refine .bind (.pre (fun w _ h => ⟨h.1, fun _ =>
            ⟨_, h.2.2, rfl, rfl⟩⟩) (probeDirty_triple key' _ True)) fun relocated => ?_
          cases relocated with
          | true => exact .pre (fun _ _ h => h.1) (ih key')
          | false =>
            exact .pre (fun _ _ h => ⟨h.1, h.2 trivial rfl⟩)
              (win_triple (best_congr rfl |>.trans hbest) (ih key'))

/-! ## Mediation -/

theorem addLoad_triple {load : Except ResolveError Load}
    (hshadow : ∀ c ∈ probes, c.item.shadow ≠ none)
    (hload : ∀ loaded, load = .ok loaded → ∃ c ∈ probes, loaded.ReadFrom solver c) :
    Moves N solver root (Visits N solver root e (shadowsOf (ofProbes solver probes)))
      (addLoad solver load) fun _ =>
        Visits N solver root e (shadowsOf (ofProbes solver probes)) := by
  have hadd {r : Resolution} {c : Candidate} (hc : c ∈ probes)
      (hr : r.candidate.LoadedFrom solver.backend c ∧ r.alternatives = [] ∨
        r.ReadFrom solver c.item c.coord) : Moves N solver root
      (Visits N solver root e (shadowsOf (ofProbes solver probes))) (addResolution solver r)
      fun _ => Visits N solver root e (shadowsOf (ofProbes solver probes)) := by
    have hmem : r ∈ shadowsOf (ofProbes solver probes) :=
      ⟨⟨c, hc, hr⟩, by rw [shadow_eq_of_ofProbes hr]; exact hshadow c hc⟩
    exact (addResolution_triple hmem).post fun _ _ _ hvisits => hvisits.drop fun _ hr => ⟨hr, hr.2⟩
  match load, hload with
  | .error _, _ => exact .fail
  | .ok (.ready _), hload =>
    obtain ⟨c, hc, hread⟩ := hload _ rfl
    exact hadd hc (.inl ⟨hread, rfl⟩)
  | .ok (.relocated _), hload =>
    obtain ⟨c, hc, hread⟩ := hload _ rfl
    exact hadd hc (.inr hread)
  | .ok (.cyclic _), hload =>
    obtain ⟨c, hc, hread⟩ := hload _ rfl
    exact hadd hc (.inr hread)
  | .ok .excluded, _ => exact .skip

/-- Working off the marked groups leaves none to mediate. -/
theorem settle_triple (fuel : ℕ) :
    Moves N solver root (Visits N solver root none ∅) (settle solver fuel)
      fun _ w => Visits N solver root none ∅ w ∧ w.dirty = [] := by
  induction fuel with
  | zero => exact .fail
  | succ fuel ih =>
    unfold settle
    refine .bind_read fun unscanned => ?_
    split
    · refine .bind (R := fun _ => Visits N solver root none ∅)
        (.modify fun w hN _ hvisits => hvisits.act (.unscanned _) hN) fun _ =>
        .bind (loadHeld_triple _ _) fun _ => ih
    refine .bind (R := fun loads w => Visits N solver root none ∅ w ∧
      w.walkLoads = loads) (.read fun _ _ h => ⟨h, rfl⟩) fun loads => ?_
    split
    · rename_i probes rest
      refine .bind (R := fun _ w => (∀ c ∈ probes, c.item.shadow ≠ none) ∧
          Visits N solver root none (shadowsOf (ofProbes solver probes)) w)
        (.modify fun w hN _ ⟨hvisits, hloads⟩ => ?_) fun _ =>
        .of_pre fun hshadow => .bind (loadInOrder_triple probes) fun loads =>
          .of_pre fun hread => .bind (.each fun load hload =>
            addLoad_triple hshadow (hread.2 load hload)) fun _ =>
              .pre (fun _ _ h => h.drop (Set.empty_subset _)) ih
      have hshadow := hvisits.sound.walkLoads probes (hloads ▸ mem_cons_self)
      obtain ⟨hseen, hvisits⟩ := hvisits.act (.walkLoads hloads) hN
      exact ⟨hseen, hshadow, hvisits.drop fun _ hr => hr.1⟩
    · refine .bind (R := fun _ => Visits N solver root none ∅)
        (.read fun _ _ h => h.1) fun entries => ?_
      split
      · exact .bind (R := fun _ => Visits N solver root none ∅)
          (.modify fun w hN _ hvisits => hvisits.act .confirm hN) fun _ =>
          .bind (.each fun entry _ => confirm_triple _ _ _) fun _ => ih
      refine .bind (R := fun next w => Visits N solver root none ∅ w ∧
        w.takeDirty = next) (.read fun _ _ h => ⟨h, rfl⟩) fun next => ?_
      split
      · rename_i key w₁
        refine .bind (R := fun _ => Visits N solver root (some key) ∅)
          (.modify fun w hN _ ⟨hvisits, hnext⟩ =>
            hvisits.act (.takeDirty hnext) hN) fun _ =>
          .bind (reconsider_triple fuel key) fun _ => ih
      · refine .pure fun w _ ⟨hvisits, hnext⟩ => ⟨hvisits, ?_⟩
        unfold Walk.takeDirty at hnext
        split at hnext
        · assumption
        · cases hnext

theorem mediate_triple {item : QueueItem} {outcome : Except ResolveError (Option Resolution)}
    (hread : ∀ r, outcome = .ok (some r) → r.ReadOf solver item) :
    Moves N solver root
      (fun w => Visits N solver root none {r | r.ReadOf solver item ∧ w.isLive item = true} w ∧
        w.dirty = [])
      (mediate solver fuel item outcome)
      fun _ w => Visits N solver root none ∅ w ∧ w.dirty = [] := by
  unfold mediate
  refine .bind (R := fun live w => Visits N solver root none
    {r | r.ReadOf solver item ∧ live = true} w ∧ w.dirty = []) (.read fun w _ h => h) fun live => ?_
  split
  · rename_i hlive
    match outcome, hread with
    | .error _, _ => exact .fail
    | .ok none, _ =>
      exact .pre (fun _ _ h => h.1.drop (Set.empty_subset _)) (settle_triple fuel)
    | .ok (some r), hread =>
      exact .bind (.pre (fun _ _ h => h.1)
        (addResolution_triple ⟨hread r rfl, hlive⟩)) fun _ =>
          .pre (fun _ _ h => h.drop (Set.empty_subset _)) (settle_triple fuel)
  · exact .pure fun _ _ h => ⟨h.1.drop (Set.empty_subset _), h.2⟩

end Solver

end Raeva
