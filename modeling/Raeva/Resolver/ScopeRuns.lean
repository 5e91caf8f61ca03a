import Raeva.Library.MinBy
import Raeva.Resolver.ConflictWalk

/-!
# The loops of scope selection

The search for cycles, the gathering below a broken cycle and the loop that settles
one node after the other, each by its rounds: every one of them ends, within the fuel
the model gives it.
-/

namespace Raeva

open List

namespace ConflictOrder

/-! ## The search for cycles -/

/-- The search from each of the nodes in turn, each to its end. -/
inductive Searches (this : ConflictOrder) : List ℕ → Searching → Searching → Prop where
  | nil {s : Searching} : Searches this [] s s
  | cons {s s' s'' : Searching} {start : ℕ} {starts : List ℕ} :
      Runs (fun s next => this.searchStep s = next) (this.enter s start) s' →
      Searches this starts s' s'' → Searches this (start :: starts) s s''

/-- The edges of nodes not visited yet, and those left on the path. -/
def searchVariant (this : ConflictOrder) (s : Searching) : ℕ :=
  unvisited s.visited (fun v => (this.children v).length + 1) this.order +
    (s.path.map fun entry => entry.2.length + 1).sum

def Searching.Listed (this : ConflictOrder) (s : Searching) : Prop :=
  ∀ entry ∈ s.path, ∀ v ∈ entry.2, v ∈ this.order

section Search

variable {g : Graph} {this : ConflictOrder} {s : Searching}

theorem Complete.enter (h : Complete g this) (hs : s.Listed this) {node : ℕ}
    (hnode : node ∈ this.order) :
    (this.enter s node).Listed this ∧
      searchVariant this (this.enter s node) = searchVariant this s := by
  unfold ConflictOrder.enter
  split
  · exact ⟨hs, rfl⟩
  split
  · exact ⟨hs, rfl⟩
  next hvisited =>
      have hvisited : s.visited node = false := by simpa using hvisited
      constructor
      · intro entry hentry v hv
        rcases mem_cons.mp hentry with rfl | hentry
        · exact h.mem_of_mem_children hv
        · exact hs entry hentry v hv
      · have hsum :=
          unvisited_update s.visited (fun v => (this.children v).length + 1) h.nodup hnode
          hvisited
        simp only [searchVariant, map_cons, sum_cons]
        omega

theorem Complete.runs_search (h : Complete g this) {fuel : ℕ} (hs : s.Listed this)
    (hfuel : searchVariant this s < fuel) :
    Runs (fun s next => this.searchStep s = next) s (this.search fuel s) := by
  refine runs_loop id (fun s => s.Listed this) (searchVariant this) ?_ hs hfuel
  rintro ⟨cycles, visited, path⟩ s' hs hstep
  cases path with
  | nil => cases hstep
  | cons entry path =>
    obtain ⟨node, next⟩ := entry
    have htail : ∀ entry ∈ path, ∀ v ∈ entry.2, v ∈ this.order :=
      fun entry hentry => hs entry (mem_cons_of_mem _ hentry)
    have hnext : ∀ v ∈ next, v ∈ this.order := hs _ mem_cons_self
    cases next with
    | nil =>
      cases hstep
      refine ⟨htail, ?_⟩
      simp [searchVariant]
    | cons child next =>
      have hlisted : Searching.Listed this ⟨cycles, visited, (node, next) :: path⟩ := by
        intro entry hentry
        rcases mem_cons.mp hentry with rfl | hentry
        · exact fun v hv => hnext v (mem_cons_of_mem _ hv)
        · exact htail entry hentry
      obtain ⟨henter, hvariant⟩ := h.enter hlisted (hnext child mem_cons_self)
      cases hstep
      refine ⟨henter, ?_⟩
      rw [hvariant]
      simp [searchVariant]

theorem path_eq_nil_of_runs {r : Searching}
    (h : Runs (fun s next => this.searchStep s = next) s r) : r.path = [] := by
  refine Runs.invariant (fun _ => True) (fun r => r.path = []) h (fun _ _ _ _ => trivial) ?_ trivial
  rintro ⟨cycles, visited, path⟩ r - hstep
  rcases path with _ | ⟨⟨node, _ | ⟨child, next⟩⟩, path⟩
  · cases hstep
    rfl
  · cases hstep
  · cases hstep

theorem Complete.searchVariant_le (h : Complete g this) (hg : g.IsIndexed) (hs : s.path = []) :
    searchVariant this s ≤ g.nodes.length + g.links.length := by
  have hle : unvisited s.visited (fun v => (this.children v).length + 1) this.order ≤
      (this.order.map fun v => (this.children v).length + 1).sum := by
    apply sum_le_sum
    intro v _
    split
    · exact Nat.zero_le _
    · exact le_rfl
  have hlinks := h.sum_children_le
  have hnodes := h.length_order_le hg
  have hones : (this.order.map fun _ => 1).sum = this.order.length := by simp
  rw [sum_map_add, hones] at hle
  simp only [searchVariant, hs, map_nil, sum_nil]
  omega

theorem Complete.searches (h : Complete g this) (hg : g.IsIndexed) {fuel : ℕ} {starts : List ℕ}
    (hfuel : g.nodes.length + g.links.length < fuel) (hstarts : starts ⊆ this.order)
    (hs : s.path = []) :
    Searches this starts s
      (starts.foldl (fun s start => this.search fuel (this.enter s start)) s) := by
  induction starts generalizing s with
  | nil => exact .nil
  | cons start starts ih =>
    have hlisted : s.Listed this := by
      intro entry hentry
      rw [hs] at hentry
      cases hentry
    obtain ⟨henter, hvariant⟩ := h.enter hlisted (hstarts mem_cons_self)
    have hle := h.searchVariant_le hg hs
    have hrun := h.runs_search henter (show searchVariant this (this.enter s start) < fuel by omega)
    have hrest : starts ⊆ this.order := fun v hv => hstarts (mem_cons_of_mem _ hv)
    exact .cons hrun (ih hrest (path_eq_nil_of_runs hrun))

end Search

end ConflictOrder

namespace Graph

/-! ## Gathering -/

section Gather

variable (g : Graph) (node : ℕ) (picked : ℕ → Option Scope) (done ancestors : ℕ → Bool)

local instance seenLawful : LawfulBEq (ℕ × Scope × List ExclusionKey) :=
  inferInstance

def Gathers (s : Gathering × List GatherFrame) (result : Except ResolveError Gathering) : Prop :=
  Runs (fun s next => g.gatherStep node picked done ancestors s = next) s result

/-- The edges that wait, and those that states not seen yet can add. -/
def gatherVariant (s : Gathering × List GatherFrame) : ℕ :=
  (s.2.map fun frame => frame.edges.length + 1).sum +
    (maxGatherStates - s.1.seen.length) * (g.links.length + 1)

variable {g node picked done ancestors} {s : Gathering × List GatherFrame}

theorem length_outgoing_le (g : Graph) (v : ℕ) : (g.outgoing v).length ≤ g.links.length := by
  rw [outgoing, length_reverse]
  exact length_filter_le _ _

/-- A round of the gathering sees a new state or leaves less to walk. -/
theorem gatherStep_lt {next : Gathering × List GatherFrame}
    (hstep : g.gatherStep node picked done ancestors s = .inr next)
    (hs : s.1.seen.length ≤ maxGatherStates) :
    next.1.seen.length ≤ maxGatherStates ∧ g.gatherVariant next < g.gatherVariant s := by
  obtain ⟨state, stack⟩ := s
  cases stack with
  | nil => cases hstep
  | cons frame stack =>
    obtain ⟨source, scope, excluded, edges⟩ := frame
    cases edges with
    | nil =>
      cases hstep
      exact ⟨hs, by simp [gatherVariant]⟩
    | cons link edges =>
      have hpop : ∀ widest, g.gatherVariant ({ widest, seen := state.seen },
          ⟨source, scope, excluded, edges⟩ :: stack) <
            g.gatherVariant (state, ⟨source, scope, excluded, link :: edges⟩ :: stack) := by
        intro widest
        simp [gatherVariant]
      unfold gatherStep at hstep
      dsimp only at hstep
      generalize (if done link.target = true then
        (picked link.target).getD (link.edge.scopeBelow scope)
        else link.edge.scopeBelow scope) = childScope at hstep
      split_ifs at hstep with _ _ _ _ hlimit
      all_goals cases hstep
      · exact ⟨hs, hpop _⟩
      · exact ⟨hs, hpop _⟩
      · exact ⟨hs, hpop _⟩
      · have hseen : state.seen.length + 1 ≤ maxGatherStates := Nat.le_of_not_lt hlimit
        refine ⟨hseen, ?_⟩
        have hleft : maxGatherStates - state.seen.length =
            maxGatherStates - (state.seen.length + 1) + 1 := by omega
        have hedges := g.length_outgoing_le link.target
        simp only [gatherVariant, map_cons, sum_cons, length_cons,
          length_reverse, hleft, Nat.add_mul]
        omega
      · exact ⟨hs, hpop _⟩

theorem gathers_gather {fuel : ℕ} (hs : s.1.seen.length ≤ maxGatherStates)
    (hfuel : g.gatherVariant s < fuel) :
    Gathers g node picked done ancestors s (g.gather node picked done ancestors fuel s) :=
  runs_loop _ (fun s => s.1.seen.length ≤ maxGatherStates) g.gatherVariant
    (fun _ _ hs hstep => gatherStep_lt hstep hs) hs hfuel

theorem Gathers.error_eq {e : ResolveError}
    (h : Gathers g node picked done ancestors s (.error e)) : e = g.gatherLimit node := by
  suffices hresult : ∀ {result : Except ResolveError Gathering},
      Gathers g node picked done ancestors s result → ∀ e, result = .error e →
        e = g.gatherLimit node from hresult h e rfl
  intro result h
  refine Runs.invariant (fun _ => True) (fun result => ∀ e, result = .error e →
    e = g.gatherLimit node) h (fun _ _ _ _ => trivial) ?_ trivial
  rintro ⟨state, stack⟩ result - hstep e rfl
  cases stack with
  | nil => cases hstep
  | cons frame stack =>
    obtain ⟨source, scope, excluded, edges⟩ := frame
    cases edges with
    | nil => cases hstep
    | cons link edges =>
      unfold gatherStep at hstep
      dsimp only at hstep
      split_ifs at hstep
      all_goals
        cases hstep
        rfl

end Gather

/-! ## Settling a node -/

theorem gathers_ungathered (g : Graph) (node : ℕ) (picked : ℕ → Option Scope)
    (done ancestors : ℕ → Bool) :
    Gathers g node picked done ancestors (g.ungathered picked)
      (g.gather node picked done ancestors ((maxGatherStates + 2) * (g.links.length + 1) + 1)
        (g.ungathered picked)) := by
  have hedges := g.length_outgoing_le root
  have hleft : (maxGatherStates - 1) * (g.links.length + 1) + (g.links.length + 1) ≤
      (maxGatherStates + 2) * (g.links.length + 1) := by
    rw [← Nat.succ_mul]
    exact Nat.mul_le_mul_right _ (by decide)
  apply gathers_gather
  · change 1 ≤ maxGatherStates
    decide
  · simp only [ungathered, gatherVariant, map_cons, map_nil, sum_cons, sum_nil,
      length_reverse, length_singleton]
    omega

/-- The scopes after one was picked for `node`, with the gathering run to its end. -/
inductive Picks (g : Graph) (s : Selecting) (node : ℕ) (ancestors : ℕ → Bool) :
    Bool → Except ResolveError (ℕ → Option Scope) → Prop where
  | known {broken : Bool} {scope : Scope} : s.picked node = some scope →
      Picks g s node ancestors broken (.ok s.picked)
  | below : s.picked node = none → Picks g s node ancestors false
        (.ok (Function.update s.picked node (g.scopeOf s.picked node)))
  | gathered {state : Gathering} : s.picked node = none →
      Gathers g node s.picked s.done ancestors (g.ungathered s.picked) (.ok state) →
      Picks g s node ancestors true
        (.ok (Function.update s.picked node (state.widest.or ((g.node node).map Node.scope))))
  | failed {e : ResolveError} : s.picked node = none →
      Gathers g node s.picked s.done ancestors (g.ungathered s.picked) (.error e) →
      Picks g s node ancestors true (.error e)

theorem settleNode_picks (g : Graph) (groups : ConflictOrder) (s : Selecting) (node : ℕ)
    (broken : Bool) : ∃ result, Picks g s node (ancestorsOf s node) broken result ∧
      g.settleNode groups s node broken = result.map (settled groups s node) := by
  cases hpicked : s.picked node with
  | some scope =>
    refine ⟨_, .known hpicked, ?_⟩
    simp only [settleNode, hpicked]
    rfl
  | none =>
    simp only [settleNode, hpicked]
    cases broken with
    | false => exact ⟨_, .below hpicked, rfl⟩
    | true =>
      have hrun := g.gathers_ungathered node s.picked s.done (ancestorsOf s node)
      rw [pickScope, if_pos rfl]
      generalize g.gather node s.picked s.done (ancestorsOf s node)
        ((maxGatherStates + 2) * (g.links.length + 1) + 1) (g.ungathered s.picked) = gathered
        at hrun ⊢
      cases gathered with
      | error e => exact ⟨_, .failed hpicked hrun, rfl⟩
      | ok state => exact ⟨_, .gathered hpicked hrun, rfl⟩

theorem mem_release {state : (ℕ → ℕ) × List (ℕ × Bool)} {child : ℕ} {entry : ℕ × Bool} :
    entry ∈ (release state child).2 ↔
      entry ∈ state.2 ∨ entry = (child, false) ∧ state.1 child ≤ 1 := by
  unfold release
  split
  next h =>
      have hle : state.1 child ≤ 1 := by omega
      simp [hle, or_comm]
  next h =>
      have hlt : ¬state.1 child ≤ 1 := by omega
      simp [hlt]

/-- What settling a node releases: each node below has one parent less, and is ready once
none is left. -/
theorem released_spec {children : List ℕ} (h : children.Nodup)
    (state : (ℕ → ℕ) × List (ℕ × Bool)) :
    (∀ v, (children.foldl release state).1 v = if v ∈ children then state.1 v - 1 else state.1 v) ∧
    (∀ entry, entry ∈ (children.foldl release state).2 ↔
      entry ∈ state.2 ∨ entry.2 = false ∧ entry.1 ∈ children ∧ state.1 entry.1 ≤ 1) ∧
    (children.foldl release state).2.length ≤ state.2.length + children.length := by
  induction children generalizing state with
  | nil => simp
  | cons child children ih =>
    obtain ⟨hchild, hchildren⟩ := nodup_cons.mp h
    obtain ⟨hdegree, hready, hlength⟩ := ih hchildren (release state child)
    have hother : ∀ v, v ≠ child → (release state child).1 v = state.1 v :=
      fun v hv => Function.update_of_ne hv _ _
    have hself : (release state child).1 child = state.1 child - 1 := Function.update_self _ _ _
    refine ⟨?_, ?_, ?_⟩
    · intro v
      rw [foldl_cons, hdegree]
      by_cases hv : v = child
      · subst hv
        simp [hchild, hself]
      · simp [hv, hother v hv]
    · rintro ⟨v, broken⟩
      rw [foldl_cons, hready, mem_release]
      by_cases hv : v = child
      · subst hv
        simp [hchild]
      · simp [hv, hother v hv]
    · rw [foldl_cons]
      have hstep : (release state child).2.length ≤ state.2.length + 1 := by
        unfold release
        split
        · exact le_rfl
        · exact Nat.le_succ _
      rw [length_cons]
      omega

/-! ## The rounds of the selection -/

/-- One round of the selection; the nodes settled so far are listed in order. -/
inductive SelectStep (g : Graph) (groups : ConflictOrder) :
    Selecting × List ℕ → Except ResolveError (Selecting × List ℕ) ⊕ (Selecting × List ℕ) →
      Prop where
  | skip {s : Selecting} {log : List ℕ} {node : ℕ} {broken : Bool} {ready : List (ℕ × Bool)} :
      s.ready = (node, broken) :: ready → s.done node = true →
      SelectStep g groups (s, log) (.inr ({ s with ready }, log))
  | settle {s : Selecting} {log : List ℕ} {node : ℕ} {broken : Bool} {ready : List (ℕ × Bool)}
      {picked : ℕ → Option Scope} :
      s.ready = (node, broken) :: ready → s.done node = false →
      Picks g { s with ready } node (ancestorsOf s node) broken (.ok picked) →
      SelectStep g groups (s, log)
        (.inr (settled groups { s with ready } node picked, log ++ [node]))
  | fail {s : Selecting} {log : List ℕ} {node : ℕ} {broken : Bool} {ready : List (ℕ × Bool)}
      {e : ResolveError} :
      s.ready = (node, broken) :: ready → s.done node = false →
      Picks g { s with ready } node (ancestorsOf s node) broken (.error e) →
      SelectStep g groups (s, log) (.inl (.error e))
  | done {s : Selecting} {log : List ℕ} : s.ready = [] → nearest groups s = none →
      SelectStep g groups (s, log) (.inl (.ok (s, log)))
  | cut {s : Selecting} {log : List ℕ} {node : ℕ} {searched : ConflictOrder.Searching} :
      s.ready = [] → nearest groups s = some node →
      groups.Searches groups.order ConflictOrder.unsearched searched →
      SelectStep g groups (s, log)
        (.inr ({ s with
          cycles := some (s.cycles.getD searched.cycles)
          inDegree := Function.update s.inDegree node 0
          ready := [(node, true)] }, log))

/-- What holds during the selection: the listed nodes that are done are those settled, each
of them once. -/
structure Logged (groups : ConflictOrder) (s : Selecting) (log : List ℕ) : Prop where
  ready : ∀ entry ∈ s.ready, entry.1 ∈ groups.order
  nodup : log.Nodup
  mem_iff : ∀ v, v ∈ log ↔ v ∈ groups.order ∧ s.done v = true

def selectWeight (groups : ConflictOrder) (s : Selecting) (v : ℕ) : ℕ :=
  if s.done v then 0 else (groups.children v).length + if (v, true) ∈ s.ready then 0 else 2

/-- The entries that are ready, and those that nodes not settled yet can add. -/
def selectVariant (groups : ConflictOrder) (s : Selecting × List ℕ) : ℕ :=
  s.1.ready.length + (groups.order.map (selectWeight groups s.1)).sum

section Select

variable {g : Graph} {groups : ConflictOrder} {s : Selecting} {log : List ℕ} {node : ℕ}
  {broken : Bool} {ready : List (ℕ × Bool)} (hg : g.IsIndexed) (hgroups : groups.Complete g)

theorem selectVariant_skip (hready : s.ready = (node, broken) :: ready)
    (hdone : s.done node = true) :
    selectVariant groups ({ s with ready }, log) < selectVariant groups (s, log) := by
  have hsame : selectWeight groups { s with ready } = selectWeight groups s := by
    funext v
    by_cases hv : v = node
    · subst hv
      simp [selectWeight, hdone]
    · simp [selectWeight, hready, hv]
  simp only [selectVariant, hsame, hready, length_cons]
  omega

include hgroups

theorem Logged.settle (h : Logged groups s log) (picked : ℕ → Option Scope)
    (hready : s.ready = (node, broken) :: ready) (hdone : s.done node = false) :
    Logged groups (settled groups { s with ready } node picked) (log ++ [node]) := by
  have hnode : node ∈ groups.order := h.ready (node, broken) (hready ▸ mem_cons_self)
  obtain ⟨-, hreleased, -⟩ := released_spec (hgroups.distinct node) (s.inDegree, ready)
  refine ⟨?_, ?_, ?_⟩
  · intro entry hentry
    rcases (hreleased entry).mp hentry with hentry | ⟨-, hchild, -⟩
    · exact h.ready entry (hready ▸ mem_cons_of_mem _ hentry)
    · exact hgroups.mem_of_mem_children hchild
  · refine h.nodup.append (nodup_singleton _) (disjoint_singleton.mpr fun hmem => ?_)
    rw [((h.mem_iff node).mp hmem).2] at hdone
    cases hdone
  · intro v
    change v ∈ log ++ [node] ↔ v ∈ groups.order ∧ Function.update s.done node true v = true
    by_cases hv : v = node
    · subst hv
      simp [hnode]
    · simp [hv, h.mem_iff]

theorem selectVariant_settle (picked : ℕ → Option Scope)
    (hready : s.ready = (node, broken) :: ready) (hdone : s.done node = false)
    (hnode : node ∈ groups.order) :
    selectVariant groups (settled groups { s with ready } node picked, log ++ [node]) <
      selectVariant groups (s, log) := by
  obtain ⟨-, hreleased, hlength⟩ := released_spec (hgroups.distinct node) (s.inDegree, ready)
  have htrue : ∀ v, v ≠ node →
      ((v, true) ∈ (settled groups { s with ready } node picked).ready ↔ (v, true) ∈ s.ready) := by
    intro v hv
    rw [hready]
    refine (hreleased (v, true)).trans ?_
    simp [hv]
  have hlength : (settled groups { s with ready } node picked).ready.length ≤
      ready.length + (groups.children node).length := hlength
  have hsum := sum_map_change (selectWeight groups (settled groups { s with ready } node picked))
    (selectWeight groups s) hgroups.nodup hnode (by
      intro v _ hv
      have hsame : (settled groups { s with ready } node picked).done v = s.done v :=
        Function.update_of_ne hv _ _
      simp only [selectWeight, hsame, htrue v hv])
  have hself : selectWeight groups (settled groups { s with ready } node picked) node = 0 :=
    if_pos (Function.update_self _ _ _)
  have hweight : (groups.children node).length ≤ selectWeight groups s node := by
    simp [selectWeight, hdone]
  rw [selectVariant, selectVariant]
  simp only [hready, length_cons] at hlength ⊢
  omega

theorem selectVariant_cut {cycles : Option (List (List ℕ))}
    {inDegree : ℕ → ℕ} (hready : s.ready = []) (hdone : s.done node = false)
    (hnode : node ∈ groups.order) :
    selectVariant groups ({ s with cycles, inDegree, ready := [(node, true)] }, log) <
      selectVariant groups (s, log) := by
  have hsum := sum_map_change
    (selectWeight groups { s with cycles, inDegree, ready := [(node, true)] })
    (selectWeight groups s) hgroups.nodup hnode (by
      intro v _ hv
      simp [selectWeight, hready, hv])
  rw [selectVariant, selectVariant]
  simp [selectWeight, hdone, hready] at hsum ⊢
  omega

theorem Logged.step (h : Logged groups s log) {next : Selecting × List ℕ}
    (hstep : SelectStep g groups (s, log) (.inr next)) : Logged groups next.1 next.2 := by
  cases hstep with
  | skip hready hdone =>
    refine ⟨?_, h.nodup, h.mem_iff⟩
    intro entry hentry
    exact h.ready entry (hready ▸ mem_cons_of_mem _ hentry)
  | settle hready hdone hpicks => exact h.settle hgroups _ hready hdone
  | cut hready hnearest hsearch =>
    refine ⟨?_, h.nodup, h.mem_iff⟩
    intro entry hentry
    rw [mem_singleton.mp hentry]
    exact (mem_filter.mp (mem_of_minBy hnearest)).1

theorem Logged.settles (h : Logged groups s log) {result : Except ResolveError (Selecting × List ℕ)}
    (hrun : Runs (SelectStep g groups) (s, log) result) :
    (∀ final, result = .ok final → final.2.Perm groups.order) ∧
      ∀ e, result = .error e → ∃ node, e = g.gatherLimit node := by
  refine Runs.invariant (fun s => Logged groups s.1 s.2)
    (fun result => (∀ final, result = .ok final → final.2.Perm groups.order) ∧
      ∀ e, result = .error e → ∃ node, e = g.gatherLimit node) hrun ?_ ?_ h
  · rintro ⟨s, log⟩ next hs hstep
    exact hs.step hgroups hstep
  rintro ⟨s, log⟩ result hs hstep
  cases hstep with
  | done hready hnearest =>
    refine ⟨?_, fun e he => by cases he⟩
    rintro _ ⟨⟩
    apply (perm_ext_iff_of_nodup hs.nodup hgroups.nodup).mpr
    intro v
    rw [hs.mem_iff]
    constructor
    · exact And.left
    intro hv
    refine ⟨hv, ?_⟩
    have hall := filter_eq_nil_iff.mp (minBy_eq_none_iff.mp hnearest) v hv
    simpa using hall
  | fail hready hdone hpicks =>
    refine ⟨fun final hfinal => (by cases hfinal), ?_⟩
    rintro _ ⟨⟩
    cases hpicks with
    | failed hnone hgather => exact ⟨_, hgather.error_eq⟩

include hg

/-- The selection is over, or takes a round that leaves less to do. -/
theorem Logged.progress (h : Logged groups s log) :
    (∃ result, SelectStep g groups (s, log) (.inl result) ∧
      ∀ fuel, g.selectFrom groups (fuel + 1) s = result.map Prod.fst) ∨
    ∃ next, SelectStep g groups (s, log) (.inr next) ∧
      selectVariant groups next < selectVariant groups (s, log) ∧
      ∀ fuel, g.selectFrom groups (fuel + 1) s = g.selectFrom groups fuel next.1 := by
  cases hready : s.ready with
  | cons entry ready =>
    obtain ⟨node, broken⟩ := entry
    have hnode : node ∈ groups.order := h.ready (node, broken) (hready ▸ mem_cons_self)
    cases hdone : s.done node with
    | true =>
      refine .inr ⟨_, .skip hready hdone, selectVariant_skip hready hdone, ?_⟩
      intro fuel
      simp [selectFrom, hready, hdone]
    | false =>
      obtain ⟨result, hpicks, hsettle⟩ :=
        settleNode_picks g groups { s with ready } node broken
      cases result with
      | error e =>
        refine .inl ⟨.error e, .fail hready hdone hpicks, ?_⟩
        intro fuel
        simp [selectFrom, hready, hdone, hsettle, Except.map, bind, Except.bind]
      | ok picked =>
        refine .inr ⟨_, .settle hready hdone hpicks,
          selectVariant_settle hgroups picked hready hdone hnode, ?_⟩
        intro fuel
        simp [selectFrom, hready, hdone, hsettle, Except.map, bind, Except.bind]
  | nil =>
    cases hnearest : nearest groups s with
    | none =>
      refine .inl ⟨.ok (s, log), .done hready hnearest, ?_⟩
      intro fuel
      simp [selectFrom, hready, hnearest, Except.map]
    | some node =>
      obtain ⟨hnode, hdone⟩ := mem_filter.mp (mem_of_minBy hnearest)
      have hdone : s.done node = false := by simpa using hdone
      have hsearch := hgroups.searches hg
        (show _ < 2 * (g.nodes.length + g.links.length + 1) by omega)
        (.refl groups.order) (show ConflictOrder.unsearched.path = [] from rfl)
      refine .inr ⟨_, .cut hready hnearest hsearch,
        selectVariant_cut hgroups hready hdone hnode, ?_⟩
      intro fuel
      simp only [selectFrom, hready, hnearest]
      rfl

/-- The selection ends.  Either every listed node has been settled, each of them once, or
the gathering for a node visited too many states. -/
theorem Logged.runs (h : Logged groups s log) {fuel : ℕ}
    (hfuel : selectVariant groups (s, log) < fuel) :
    ∃ result, Runs (SelectStep g groups) (s, log) result ∧
      g.selectFrom groups fuel s = result.map Prod.fst := by
  refine Runs.exists_of_fuel (fun fuel s => g.selectFrom groups fuel s.1) (Except.map Prod.fst)
    (fun s => Logged groups s.1 s.2) (selectVariant groups) ?_ h hfuel
  rintro ⟨s, log⟩ hs
  rcases hs.progress hg hgroups with hdone | ⟨next, hstep, hlt, hnext⟩
  · exact .inl hdone
  · exact .inr ⟨next, hstep, hs.step hgroups hstep, hlt, hnext⟩

end Select

theorem selectScopes_eq_map (g : Graph) : g.selectScopes =
    (g.selectFrom (ConflictOrder.of g) (3 * g.nodes.length + g.links.length + 2) g.unselected).map
      fun s => g.withScopes s.picked := by
  rw [selectScopes, pickedScopes]
  cases g.selectFrom (.of g) (3 * g.nodes.length + g.links.length + 2) g.unselected with
  | error e => rfl
  | ok s => rfl

section Whole

variable {g : Graph}

abbrev groups (g : Graph) : ConflictOrder :=
  ConflictOrder.of g

theorem logged_unselected (hroot : root ∉ g.groups.order) : Logged g.groups g.unselected [] := by
  refine ⟨?_, nodup_nil, ?_⟩
  · intro entry hentry
    obtain ⟨index, hindex, rfl⟩ := mem_map.mp (mem_reverse.mp hentry)
    exact (mem_filter.mp hindex).1
  · intro v
    refine iff_of_false (not_mem_nil) ?_
    rintro ⟨hv, hdone⟩
    have hv' : v = root := by simpa [unselected] using hdone
    exact hroot (hv' ▸ hv)

theorem selectVariant_unselected (hg : g.IsIndexed) (hgroups : g.groups.Complete g) :
    selectVariant g.groups (g.unselected, []) ≤
      3 * g.nodes.length + g.links.length := by
  have hsum : (g.groups.order.map (selectWeight g.groups g.unselected)).sum ≤
      (g.groups.order.map fun v => (g.groups.children v).length + 2).sum := by
    apply sum_le_sum
    intro v _
    unfold selectWeight
    split
    · exact Nat.zero_le _
    · split
      · omega
      · exact le_rfl
  have htwos : (g.groups.order.map fun _ => 2).sum = 2 * g.groups.order.length := by
    simp [Nat.mul_comm]
  have hlinks := hgroups.sum_children_le
  have hnodes := hgroups.length_order_le hg
  have hready : g.unselected.ready.length ≤ g.groups.order.length := by
    simp only [unselected, length_reverse, length_map]
    exact length_filter_le _ _
  rw [sum_map_add, htwos] at hsum
  simp only [selectVariant]
  omega

theorem not_path_root (hroot : ∀ u, ¬g.Steps u root) (k : ℕ) : ¬g.Path (k + 1) root := by
  rintro ⟨u, -, hstep⟩
  exact hroot u hstep

theorem root_notMem_order (hgroups : g.groups.Complete g)
    (hroot : ∀ k, ¬g.Path (k + 1) root) : root ∉ g.groups.order := by
  rw [hgroups.mem_iff, transGen_iff_path]
  rintro ⟨k, hk⟩
  exact hroot k hk

theorem runs_selectScopes (hg : g.IsIndexed) (hroot : ∀ k, ¬g.Path (k + 1) root) :
    ∃ result, Runs (SelectStep g g.groups) (g.unselected, []) result ∧
      g.selectScopes = result.map fun final => g.withScopes final.1.picked := by
  have hgroups : g.groups.Complete g := ConflictOrder.complete_of hg hroot
  have hstart := logged_unselected (root_notMem_order hgroups hroot)
  have hvariant := selectVariant_unselected hg hgroups
  obtain ⟨result, hrun, hresult⟩ := hstart.runs hg hgroups
    (show _ < 3 * g.nodes.length + g.links.length + 2 by omega)
  refine ⟨result, hrun, ?_⟩
  rw [selectScopes_eq_map, hresult]
  cases result with
  | error e => rfl
  | ok final => rfl

/-- On every graph with nothing above its root: the numbering ends, with every node below the
root listed once and at the length of a shortest path; and the selection ends, with every
listed node settled once, or with the error of a gathering that visited too many states. -/
theorem selectScopes_settles (hg : g.IsIndexed) (hroot : ∀ u, ¬g.Steps u root) :
    (∃ w, Runs (ConflictOrder.WalkStep g)
        (ConflictOrder.unwalked, [ConflictOrder.rootFrame g]) w ∧ ConflictOrder.of g = w.sorted) ∧
    (∀ size, size * 4 ≤ ConflictOrder.buckets size size 16 * 3) ∧
    (ConflictOrder.of g).order.Nodup ∧
    (∀ v, v ∈ (ConflictOrder.of g).order ↔ Relation.TransGen g.Steps root v) ∧
    (∀ v ∈ (ConflictOrder.of g).order, IsLeast {k | g.Path k v} ((ConflictOrder.of g).depth v)) ∧
    ∃ result, Runs (SelectStep g (ConflictOrder.of g)) (g.unselected, []) result ∧
      (g.selectScopes = result.map fun final => g.withScopes final.1.picked) ∧
      (∀ final, result = .ok final → final.2.Perm (ConflictOrder.of g).order) ∧
      ∀ e, result = .error e → ∃ node, e = g.gatherLimit node := by
  have hpath := not_path_root hroot
  have hgroups := ConflictOrder.complete_of hg hpath
  obtain ⟨w, hwalk, -, hof⟩ := ConflictOrder.runs_of hg hpath
  obtain ⟨result, hrun, hresult⟩ := runs_selectScopes hg hpath
  obtain ⟨hok, herror⟩ :=
    (logged_unselected (root_notMem_order hgroups hpath)).settles hgroups hrun
  refine ⟨⟨w, hwalk, hof⟩, ?_, hgroups.nodup, hgroups.mem_iff, hgroups.depth, result, hrun, hresult,
    hok, herror⟩
  intro size
  apply ConflictOrder.buckets_enough
  have hpow : size < 2 ^ size := Nat.lt_two_pow_self
  omega

def sampleNode (name : Char) : Node :=
  { coord := { groupId := ['g'], artifactId := [name], version := ⟨['1']⟩, packaging := none,
               classifier := none }
    scope := .compile, repoUrl := none, buildRepo := none, repos := .default
    workspaceModule := none, isLocal := false, systemPath := none, winnerParent := none }

def sampleEdge (scope : Scope) : Edge :=
  { scope, managedScope := false, declared := none, optional := false
    exclusions := [], requested := none }

/-- A root with a dependency that depends on itself through another. -/
def sampleCycle : Graph :=
  { nodes := [sampleNode 'r', sampleNode 'a', sampleNode 'b']
    links := [⟨0, 1, sampleEdge .compile⟩, ⟨1, 2, sampleEdge .compile⟩,
      ⟨2, 1, sampleEdge .compile⟩] }

theorem selectScopes_settles_cycle :
    sampleCycle.IsIndexed ∧ (∀ u, ¬sampleCycle.Steps u root) ∧
      ∃ result, Runs (SelectStep sampleCycle (ConflictOrder.of sampleCycle))
        (sampleCycle.unselected, []) result := by
  have hg : sampleCycle.IsIndexed := ⟨by decide, by decide, by decide, by decide⟩
  have hroot : ∀ u, ¬sampleCycle.Steps u root := by
    rintro u ⟨link, hlink, -, htarget⟩
    have hall : ∀ link ∈ sampleCycle.links, link.target ≠ root := by decide
    exact hall link hlink htarget
  obtain ⟨-, -, -, -, -, result, hrun, -⟩ := selectScopes_settles hg hroot
  exact ⟨hg, hroot, result, hrun⟩

end Whole

end Graph

end Raeva
