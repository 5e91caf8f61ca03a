import Raeva.Resolver.Solver
import Raeva.Resolver.Sound

/-!
# The mediation machine

What the solver can do to a walk, as a transition system that forgets the order
its procedures keep.  A stage is a walk together with the group under mediation
and the declarations that were read and may still join.  Every state of a
resolution is the walk of a reachable stage, so what the transitions keep holds
in all of them.
-/

namespace Raeva

open List

/-- A group at the end of its mediation: settled on its best candidate, or in
conflict. -/
def Selected.Decided [Lowercase] (s : Selected) : Prop :=
  (∃ best, s.best = some best ∧ s.winner = some best ∧ s.settled = s.settle.settled) ∨
    s.best = none ∧ s.conflict.isSome ∧ s.settled = none

structure Stage where
  walk : Walk
  /-- The group under mediation. -/
  mediated : Option CoordKey
  /-- Declarations that were read and may still join. -/
  hand : Set Resolution

namespace Stage

/-- What reading a range of a shadow walk can give. -/
def ofProbes [Lowercase] (solver : Solver) (probes : List Candidate) : Set Resolution :=
  {r | ∃ c ∈ probes, r.candidate.LoadedFrom solver.backend c ∧ r.alternatives = [] ∨
    r.ReadFrom solver c.item c.coord}

/-- A declaration joins once. -/
def shadowsOf (hand : Set Resolution) : Set Resolution :=
  {r ∈ hand | r.candidate.item.shadow ≠ none}

/-- Only what was loaded for the candidate differs. -/
def Reloaded (c c' : Candidate) : Prop :=
  ∃ arc resolved resolvedProject, c' = { c with arc, resolved, resolvedProject }

namespace Reloaded

variable {c c' : Candidate}

theorem item_eq (h : Reloaded c c') : c'.item = c.item := by
  obtain ⟨arc, resolved, resolvedProject, rfl⟩ := h
  rfl

theorem coord_eq (h : Reloaded c c') : c'.coord = c.coord := by
  obtain ⟨arc, resolved, resolvedProject, rfl⟩ := h
  rfl

theorem hard_eq (h : Reloaded c c') : c'.hard = c.hard := by
  obtain ⟨arc, resolved, resolvedProject, rfl⟩ := h
  rfl

end Reloaded

/-- A model that was loaded is the one the backend has for the candidate. -/
structure Refreshed (backend : Backend) (c c' : Candidate) : Prop where
  reloaded : Reloaded c c'
  served : ∀ resolved, c'.resolvedProject = some resolved →
    c.resolvedProject = some resolved ∨ backend.Serves c.coord resolved

theorem Refreshed.refl (backend : Backend) (c : Candidate) : Refreshed backend c c :=
  ⟨⟨_, _, _, rfl⟩, fun _ h => .inl h⟩

theorem Refreshed.of_loadedFrom {backend : Backend} {c c₁ : Candidate}
    (h : c₁.LoadedFrom backend c) (arc : ℕ) : Refreshed backend c { c₁ with arc } := by
  obtain ⟨resolved, project, hserved, rfl⟩ := h
  exact ⟨⟨_, _, _, rfl⟩, fun _ h => .inr (Option.some.inj h ▸ hserved)⟩

section Transitions

variable [Lowercase] (solver : Solver)

inductive Act : Stage → Stage → Prop where
  | relocations {w e hand} (relocations : RelocationCache)
      (h : solver.backend.Supports relocations) :
      Act ⟨w, e, hand⟩ ⟨{ w with relocations }, e, hand⟩
  | markDirty {w e hand} (key : CoordKey) : Act ⟨w, e, hand⟩ ⟨w.markDirty key, e, ∅⟩
  /-- Notes about a group, which decide something only under mediation. -/
  | note {w e hand key s s'} (hs : w.selected.lookup key = some s) (hnode : s'.node = s.node)
      (hcandidates : s'.candidates = s.candidates)
      (hwinner : s'.winner = s.winner ∨ ∃ c ∈ s.candidates, s'.winner = some c)
      (hcore : e = some key ∨ s.SameCore s') :
      Act ⟨w, e, hand⟩ ⟨w.setSelected key s', e, ∅⟩
  | dropGroup {w key hand} : Act ⟨w, some key, hand⟩ ⟨w.dropGroup key, some key, ∅⟩
  /-- Loaded projects in place of candidates. -/
  | loaded {w e hand key s l} (hs : w.selected.lookup key = some s)
      (hl : List.Forall₂ (Refreshed solver.backend) s.candidates l) (nextArc : ℕ) :
      Act ⟨w, e, hand⟩ ⟨(w.setSelected key (s.withCandidates l)).setNextArc nextArc, e, ∅⟩
  /-- A candidate leaves its group, and what its load gave may join. -/
  | giveWay {w e hand key s best} (hs : w.selected.lookup key = some s)
      (hbest : best ∈ s.candidates) (stops : Bool) :
      Act ⟨w, e, hand⟩
        ⟨w.giveWay key s best stops, e, {r | r.ReadFrom solver best.item best.coord}⟩
  | union {w e hand r} (source : CoordKey) (hr : r ∈ hand) :
      Act ⟨w, e, hand⟩ ⟨w.union source r.candidate.key, e, insert r (shadowsOf hand)⟩
  | join {w w' e hand r} (hr : r ∈ hand) (h : w.joinGroup solver.backend r = .ok w') :
      Act ⟨w, e, hand⟩ ⟨w', e, shadowsOf hand⟩
  | scan {w w' e hand key start} (h : w.scanLosers solver.backend key start = .ok w') :
      Act ⟨w, e, hand⟩ ⟨w', e, ∅⟩
  | commit {w w' key hand winner} (hwinner : w.Holds key winner)
      (h : w.commit solver.backend key winner = .ok w') : Act ⟨w, some key, hand⟩ ⟨w', some key, ∅⟩
  | unscanned {w e hand} (rest : List (CoordKey × Candidate)) :
      Act ⟨w, e, hand⟩ ⟨{ w with unscanned := rest }, e, ∅⟩
  | walkLoads {w e hand probes rest} (h : w.walkLoads = probes :: rest) :
      Act ⟨w, e, hand⟩ ⟨{ w with walkLoads := rest }, e, ofProbes solver probes⟩
  | confirm {w e hand} : Act ⟨w, e, hand⟩ ⟨{ w with confirm := [] }, e, ∅⟩
  | takeDirty {w w' hand key} (h : w.takeDirty = some (key, w')) :
      Act ⟨w, none, hand⟩ ⟨w', some key, ∅⟩

/-- What happens around the actions: declarations are read, and mediation
moves from group to group. -/
inductive Turn : Stage → Stage → Prop where
  | drop {w e hand hand'} (h : hand' ⊆ hand) : Turn ⟨w, e, hand⟩ ⟨w, e, hand'⟩
  | rekey {w key hand} : Turn ⟨w, some key, hand⟩ ⟨w, some (w.groupOf key), hand⟩
  | finish {w key hand}
      (h : w.groupOf key ∈ w.dirtySet ∨ ∀ s, w.selected.lookup (w.groupOf key) = some s →
        s.Decided) : Turn ⟨w, some key, hand⟩ ⟨w, none, hand⟩
  | read {w hand item queue} (h : popQueue w.queue = some (item, queue))
      (relocations : RelocationCache) (hcache : solver.backend.Supports relocations) :
      Turn ⟨w, none, hand⟩
        ⟨{ w with queue, relocations }, none, {r | r.ReadOf solver item ∧ w.isLive item = true}⟩
  | walked {w w' hand queued} (h : w.walkExcludedDependencies solver.backend = .ok (w', queued)) :
      Turn ⟨w, none, hand⟩ ⟨w', none, ∅⟩

end Transitions

/-- The stages of the resolutions of `root` in which every action meets `N`. -/
inductive Reach [Lowercase] (N : Walk → Walk → Prop) (solver : Solver) (root : SolverRoot) :
    Stage → Prop where
  | start {w} (h : solver.start root = .ok w) : Reach N solver root ⟨w, none, ∅⟩
  | act {st st'} (h : Reach N solver root st) (hact : Act solver st st')
      (hN : N st.walk st'.walk) : Reach N solver root st'
  | turn {st st'} (h : Reach N solver root st) (hturn : Turn solver st st') :
      Reach N solver root st'

def IsRootItem (root : SolverRoot) (item : QueueItem) : Prop :=
  ∃ dependency index declaredAt, root.dependencies[index]? = some dependency ∧
    item =
      { parent := Graph.root
        parentGeneration := rootGeneration
        dependency
        managedScope := false
        depth := 1
        order := TreeOrder.default.child index
        declaredAt
        exclusions := []
        path := .ofRoot root.coord
        shadow := none }

variable {solver : Solver} {root : SolverRoot} {w : Walk} {st st' : Stage} {index : ℕ}
  {r : Resolution}

theorem queueRoot_queues [Lowercase] {w' : Walk} {dependency : Dependency}
    (hdependency : root.dependencies[index]? = some dependency)
    (h : solver.queueRoot (.ofRoot root.coord) w dependency index = .ok w') :
    Walk.Queues (IsRootItem root) w w' := by
  unfold Solver.queueRoot at h
  simp only at h
  -- The checks before the push have no effect on the walk.
  have hpush : ∃ item queue, IsRootItem root item ∧ pushQueue w.queue item = .ok queue ∧
      w' = { w with queue, nextDeclaredAt := w.nextDeclaredAt + 1 } := by
    split at h
    · obtain ⟨_, -, h⟩ := bind_eq_ok h
      obtain ⟨_, -, h⟩ := bind_eq_ok h
      obtain ⟨_, -, h⟩ := bind_eq_ok h
      obtain ⟨queue, hpush, h⟩ := bind_eq_ok h
      exact ⟨_, queue, ⟨dependency, index, _, hdependency, rfl⟩, hpush, (Except.ok.inj h).symm⟩
    · obtain ⟨queue, hpush, h⟩ := bind_eq_ok h
      exact ⟨_, queue, ⟨dependency, index, _, hdependency, rfl⟩, hpush, (Except.ok.inj h).symm⟩
  obtain ⟨item, queue, hitem, hpush, rfl⟩ := hpush
  refine ⟨rfl, fun _ hk => hk, fun _ s hk => ⟨s, hk, .refl s⟩, fun other hother => ?_⟩
  change other ∈ queue at hother
  rw [pushQueue_eq hpush] at hother
  rcases mem_cons.mp hother with rfl | hold
  · exact .inr hitem
  · exact .inl hold

theorem start_queues [Lowercase] (h : solver.start root = .ok w) :
    ∃ node, Walk.Queues (IsRootItem root) (Walk.new (.new node)) w := by
  unfold Solver.start at h
  refine ⟨_, foldlM_rel (R := Walk.Queues (IsRootItem root)) (.refl _) (fun _ _ _ => .trans) ?_ h⟩
  exact fun _ hentry _ _ hstep => queueRoot_queues (mem_zipIdx_iff_getElem?.mp hentry) hstep

/-! ## The structure of every stage -/

structure Ok (st : Stage) : Prop where
  sound : st.walk.Sound
  joins : ∀ r ∈ st.hand, st.walk.Joins r

theorem Ok.of_sound {e : Option CoordKey} (h : w.Sound) : (⟨w, e, ∅⟩ : Stage).Ok :=
  ⟨h, fun _ hr => hr.elim⟩

theorem joins_of_mem_shadowsOf {hand : Set Resolution} (hr : r ∈ shadowsOf hand) : w.Joins r :=
  fun hshadow => absurd hshadow hr.2

theorem forall₂_set {α : Type} {R : α → α → Prop} (hrefl : ∀ a, R a a) {l : List α} {a b : α}
    (ha : l[index]? = some a) (hR : R a b) : List.Forall₂ R l (l.set index b) := by
  induction l generalizing index with
  | nil => exact .nil
  | cons c rest ih =>
    cases index with
    | zero =>
      cases ha
      exact .cons hR (forall₂_same.mpr fun a _ => hrefl a)
    | succ index => exact .cons (hrefl c) (ih ha)

theorem shadow_eq_of_ofProbes [Lowercase] {c : Candidate}
    (h : r.candidate.LoadedFrom solver.backend c ∧ r.alternatives = [] ∨
      r.ReadFrom solver c.item c.coord) :
    r.candidate.item.shadow = c.item.shadow := by
  rcases h with ⟨⟨resolved, project, -, heq⟩, -⟩ | hread
  · rw [heq]
  · obtain ⟨dependency, managedScope, -, heq⟩ := hread.managed
    rw [heq]

theorem current_of_isLive {item : QueueItem} (hshadow : item.shadow = none)
    (h : w.isLive item = true) : w.Current item := by
  simpa [Walk.isLive, hshadow, Walk.Current] using h

theorem ok_start [Lowercase] (h : solver.start root = .ok w) : (⟨w, none, ∅⟩ : Stage).Ok := by
  obtain ⟨node, hqueues⟩ := start_queues h
  refine .of_sound ((Walk.sound_new node).carries (hqueues.carries ?_))
  rintro item ⟨dependency, index, declaredAt, -, rfl⟩ -
  exact ⟨Nat.lt_succ_self rootGeneration, .inl rfl⟩

/-- Every action keeps the walk sound. -/
theorem Ok.act [Lowercase] (h : st.Ok) (hact : Act solver st st') : st'.Ok := by
  obtain ⟨hsound, hjoins⟩ := h
  have hframe {w w' : Walk} (hw : w.Sound) (hc : Walk.Carries w w') : w'.Sound := hw.carries hc
  cases hact with
  | relocations relocations hcache =>
    exact ⟨hframe hsound (.frame rfl (fun _ h => h) fun _ h => .inl h), hjoins⟩
  | markDirty key => exact .of_sound (hsound.trims (.markDirty (fun _ => True) _ key))
  | note hs hnode hcandidates => exact .of_sound (hsound.note hs hnode hcandidates)
  | dropGroup => exact .of_sound (hsound.dropGroup _)
  | loaded hs hl nextArc =>
    refine .of_sound (hsound.loaded hs (fun c hc => ?_) nextArc)
    obtain ⟨c₀, hc₀, hreloaded, -⟩ := mem_of_forall₂ hl hc
    exact ⟨c₀, hc₀, congrArg CoordKey.ofCoord hreloaded.coord_eq, hreloaded.item_eq⟩
  | giveWay hs hbest stops =>
    exact ⟨hsound.carries (Walk.giveWay_carries _ stops hs), fun r hr =>
      hsound.joins_giveWay hs hbest hr.managed⟩
  | union source hr =>
    refine ⟨hsound.union source _, fun r' hr' => ?_⟩
    rcases hr' with rfl | hr'
    · exact (hjoins r' hr).union hsound source
    · exact joins_of_mem_shadowsOf hr'
  | join hr h => exact ⟨hsound.joinGroup (hjoins _ hr) h, fun r' => joins_of_mem_shadowsOf⟩
  | scan h => exact .of_sound (hsound.scanLosers h)
  | commit hwinner h => exact .of_sound (hsound.commit hwinner h)
  | unscanned rest =>
    exact .of_sound (hframe hsound (.frame rfl (fun _ h => h) fun _ h => .inl h))
  | walkLoads h =>
    have hold := hsound.walkLoads _ (h ▸ mem_cons_self)
    refine ⟨hframe hsound (.frame rfl (fun _ h => h) fun probes hprobes => .inl ?_), ?_⟩
    · rw [h]
      exact mem_cons_of_mem _ hprobes
    · rintro r ⟨c, hc, hfrom⟩ hshadow
      exact absurd (shadow_eq_of_ofProbes hfrom ▸ hshadow) (hold c hc)
  | confirm => exact .of_sound (hframe hsound (.frame rfl (fun _ h => h) fun _ h => .inl h))
  | takeDirty h =>
    unfold Walk.takeDirty at h
    split at h
    · cases h
    · cases h
      exact .of_sound (hframe hsound (.frame rfl (fun _ h => h) fun _ h => .inl h))

theorem Act.groups_eq [Lowercase] (hact : Act solver st st') :
    st'.walk.groups = st.walk.groups ∨
      ∃ r ∈ st.hand, ∃ source, st'.walk = st.walk.union source r.candidate.key := by
  cases hact with
  | relocations | note | loaded | unscanned | walkLoads | confirm => exact .inl rfl
  | markDirty key => exact .inl (Walk.groups_markDirty _ key)
  | @dropGroup w key hand => exact .inl (Walk.lookup_dropGroup w key).2
  | giveWay hs hbest stops => exact .inl (Walk.giveWay_carries _ stops hs).groups_eq
  | @union w e hand r source hr => exact .inr ⟨r, hr, source, rfl⟩
  | join hr h => exact .inl (Walk.groups_joinGroup h)
  | scan h => exact .inl (by rw [(Walk.scanLosers_queues h).frame])
  | commit hwinner h =>
    obtain ⟨s, hs, -⟩ := hwinner
    exact .inl (Walk.commit_wins hs h).1
  | takeDirty h =>
    unfold Walk.takeDirty at h
    split at h
    · cases h
    · cases h
      exact .inl rfl

theorem Ok.turn [Lowercase] (h : st.Ok) (hturn : Turn solver st st') : st'.Ok := by
  obtain ⟨hsound, hjoins⟩ := h
  cases hturn with
  | drop h => exact ⟨hsound, fun r hr => hjoins r (h hr)⟩
  | rekey | finish h => exact ⟨hsound, hjoins⟩
  | @read w hand item queue h relocations hcache =>
    obtain ⟨hitem, hsub⟩ := mem_of_popQueue h
    have hcarries : Walk.Carries w { w with queue, relocations } :=
      .frame rfl hsub fun _ h => .inl h
    refine ⟨hsound.carries hcarries, fun r hr => ?_⟩
    obtain ⟨⟨version, -, hread⟩, hlive⟩ := hr
    refine Walk.joins_of_managedFrom hread.managed fun hshadow => ?_
    have hcurrent : w.Current item := current_of_isLive hshadow hlive
    exact ⟨hcurrent,
      hcarries.placed ((hsound.queuedPlaced item hitem hshadow hcurrent).resolve_left id)⟩
  | walked h => exact .of_sound (hsound.walkExcludedDependencies h)

theorem Turn.groups_eq [Lowercase] (hturn : Turn solver st st') :
    st'.walk.groups = st.walk.groups := by
  cases hturn with
  | drop | rekey | finish | read => rfl
  | walked h => rw [(Walk.walkExcludedDependencies_queues h).frame]

theorem Reach.ok [Lowercase] {N : Walk → Walk → Prop} (h : Reach N solver root st) : st.Ok := by
  induction h with
  | start h => exact ok_start h
  | act _ hact _ ih => exact ih.act hact
  | turn _ hturn ih => exact ih.turn hturn

end Stage

end Raeva
