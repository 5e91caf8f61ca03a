import Mathlib.Data.Fintype.Card
import Mathlib.Data.Set.Finite.Basic
import Raeva.Resolver.ScopeRuns

/-!
# The scope equations

Where the nodes below the root form no cycle, `Graph::select_scopes` solves one
equation for each node: the scope of a node is given by the final scopes of its
parents.  The equations have one solution.
-/

namespace Raeva

open List

/-! ## The widest scope -/

theorem Scope.width_injective {a b : Scope} (ha : a ≠ .system) (hb : b ≠ .system)
    (h : a.width = b.width) : a = b := by
  cases a <;> cases b <;> simp_all [Scope.width]

theorem offer_system (widest : Option Scope) : offer widest .system = widest := by
  simp [offer]

theorem offer_eq {widest : Option Scope} {scope : Scope} (h : scope ≠ .system) :
    offer widest scope = if widest.all (·.width < scope.width) then some scope else widest := by
  simp [offer, h]

theorem foldl_offer_spec (scopes : List Scope) :
    (∀ scope, scopes.foldl offer none = some scope → scope ∈ scopes ∧ scope ≠ .system ∧
        ∀ other ∈ scopes, other ≠ .system → other.width ≤ scope.width) ∧
    (scopes.foldl offer none = none → ∀ scope ∈ scopes, scope = .system) := by
  induction scopes using List.reverseRecOn with
  | nil => simp
  | append_singleton scopes last ih =>
    obtain ⟨hsome, hnone⟩ := ih
    simp only [foldl_append, foldl_cons, foldl_nil, forall_mem_append, forall_mem_singleton]
    by_cases hsystem : last = .system
    · subst hsystem
      rw [offer_system]
      refine ⟨fun scope hscope => ?_, fun h => ⟨hnone h, rfl⟩⟩
      obtain ⟨hmem, hne, hwide⟩ := hsome scope hscope
      exact ⟨mem_append_left _ hmem, hne, hwide, fun hne => absurd rfl hne⟩
    rw [offer_eq hsystem]
    cases hfold : scopes.foldl offer none with
    | none =>
      refine ⟨?_, by simp⟩
      rintro scope ⟨⟩
      refine ⟨by simp, hsystem, ?_, fun _ => le_rfl⟩
      exact fun other hother hne => absurd (hnone hfold other hother) hne
    | some widest =>
      obtain ⟨hmem, hne, hwide⟩ := hsome widest hfold
      by_cases hlt : widest.width < last.width
      · refine ⟨fun scope hscope => ?_, by simp [hlt]⟩
        obtain rfl : last = scope := by simpa [hlt] using hscope
        refine ⟨by simp, hsystem, ?_, fun _ => le_rfl⟩
        exact fun other hother hne => (hwide other hother hne).trans hlt.le
      · refine ⟨fun scope hscope => ?_, by simp [hlt]⟩
        obtain rfl : widest = scope := by simpa [hlt] using hscope
        exact ⟨mem_append_left _ hmem, hne, hwide, fun _ => Nat.le_of_not_lt hlt⟩

namespace Graph

/-! ## The first direct declaration -/

/-- The declarations of the root that lead to a node, the oldest first. -/
def directs (g : Graph) (v : ℕ) : List Link :=
  g.links.filter fun link => link.source = root ∧ link.target = v

def compareDeclared (a b : Link) : Ordering :=
  compare a.edge.declared b.edge.declared

instance : Std.TransCmp compareDeclared :=
  inferInstanceAs (Std.TransCmp (compareOn fun link : Link => link.edge.declared))

/-- The first declaration of a node by the root: no other has an earlier place, and no older
one the same. -/
def IsFirstDirect (g : Graph) (v : ℕ) (link : Link) : Prop :=
  IsFirstMin compareDeclared (g.directs v) link

variable {first : List (ℕ × Edge)} {v : ℕ} {entry : ℕ × Edge} {link : Link}

theorem declaredLe_eq (a b : Link) :
    declaredLe a.edge.declared b.edge.declared = (compareDeclared a b).isLE := by
  unfold declaredLe compareDeclared
  cases a.edge.declared with
  | none => cases b.edge.declared <;> rfl
  | some m =>
    cases b.edge.declared with
    | none => rfl
    | some n =>
      change decide (m ≤ n) = (compare m n).isLE
      rw [Bool.eq_iff_iff, decide_eq_true_iff, Nat.isLE_compare]

def directEdge (first : List (ℕ × Edge)) (v : ℕ) : Option Edge :=
  (first.find? (·.1 == v)).map Prod.snd

theorem directEdges_eq_foldr (g : Graph) :
    g.directEdges = (g.links.filter (·.source = root)).foldr addDirect [] := by
  rw [directEdges, outgoing, foldl_reverse]

theorem directEdge_cons :
    directEdge (entry :: first) v = if entry.1 = v then some entry.2 else directEdge first v := by
  unfold directEdge
  by_cases h : entry.1 = v
  · simp [h]
  · simp [h]

theorem directEdge_append :
    directEdge (first ++ [entry]) v =
      (directEdge first v).or (if entry.1 = v then some entry.2 else none) := by
  induction first with
  | nil => exact directEdge_cons
  | cons other first ih =>
    rw [cons_append, directEdge_cons, directEdge_cons, ih]
    split
    · rfl
    · rfl

theorem directEdge_map :
    directEdge (first.map fun entry =>
      if entry.1 == link.target then (link.target, link.edge) else entry) v =
      if v = link.target then (directEdge first v).map fun _ => link.edge
      else directEdge first v := by
  induction first with
  | nil => simp [directEdge]
  | cons entry first ih =>
    rw [map_cons, directEdge_cons, directEdge_cons, ih]
    by_cases hentry : entry.1 = link.target
    · by_cases hv : v = link.target
      · simp [hentry, hv]
      · simp [hentry, hv, Ne.symm hv]
    · by_cases hv : v = link.target
      · subst hv
        simp [hentry]
      · simp [hentry, hv]

theorem directEdge_addDirect :
    directEdge (addDirect link first) v = if link.target = v then
        match directEdge first v with
        | none => some link.edge
        | some current =>
          if declaredLe link.edge.declared current.declared then some link.edge else some current
      else directEdge first v := by
  unfold addDirect
  cases hfind : first.find? (·.1 == link.target) with
  | none =>
    have hnone : directEdge first link.target = none := by rw [directEdge, hfind]; rfl
    rw [directEdge_append]
    split
    next htarget =>
        subst htarget
        simp [hnone]
    next => simp
  | some entry =>
    obtain ⟨target, current⟩ := entry
    have hsome : directEdge first link.target = some current := by rw [directEdge, hfind]; rfl
    by_cases htarget : link.target = v
    · subst htarget
      simp only [hsome, if_true]
      split
      next => rw [directEdge_map, if_pos rfl, hsome, Option.map_some]
      next => exact hsome
    · rw [if_neg htarget]
      dsimp only
      split
      next => rw [directEdge_map, if_neg (Ne.symm htarget)]
      next => rfl

theorem directEdge_eq (g : Graph) (v : ℕ) :
    directEdge g.directEdges v = (minBy compareDeclared (g.directs v)).map Link.edge := by
  have hdirects : g.directs v = (g.links.filter (·.source = root)).filter (·.target = v) := by
    rw [filter_filter]
    apply filter_congr
    intro link _
    simp [Bool.and_comm]
  rw [directEdges_eq_foldr, hdirects]
  induction g.links.filter (·.source = root) with
  | nil => rfl
  | cons link links ih =>
    rw [foldr_cons, directEdge_addDirect, ih]
    by_cases htarget : link.target = v
    · rw [if_pos htarget, filter_cons_of_pos (by simpa using htarget)]
      cases hmin : minBy compareDeclared (links.filter (·.target = v)) with
      | none =>
        rw [minBy_eq_none_iff.mp hmin]
        rfl
      | some first =>
        rw [minBy_cons_of_minBy hmin, ← declaredLe_eq]
        simp only [Option.map_some]
        split
        · rfl
        · rfl
    · rw [if_neg htarget, filter_cons_of_neg (by simpa using htarget)]

/-! ## The equations -/

/-- No cycle can be reached from the root. -/
def IsAcyclic (g : Graph) : Prop :=
  ∀ v, g.IsReachable v → ¬Relation.TransGen g.Steps v v

def scopeAt (g : Graph) (v : ℕ) : Scope :=
  ((g.node v).map Node.scope).getD .compile

def IsOffered (g : Graph) (scope : ℕ → Scope) (v : ℕ) (offered : Scope) : Prop :=
  offered ≠ .system ∧ ∃ link ∈ g.links, link.target = v ∧ g.IsReachable link.source ∧
    link.edge.scopeBelow (scope link.source) = offered

/-- The equation for a node: `system` for a system file, else what its first direct
declaration gives, else the widest that its parents offer, else its own scope. -/
structure SolvesAt (g : Graph) (scope : ℕ → Scope) (v : ℕ) (node : Node) : Prop where
  system : node.isLocal = true → scope v = .system
  direct : node.isLocal = false → g.Steps root v →
    ∃ link, g.IsFirstDirect v link ∧ scope v = link.edge.scopeBelow (scope root)
  widest : node.isLocal = false → ¬g.Steps root v → (∃ offered, g.IsOffered scope v offered) →
    g.IsOffered scope v (scope v) ∧
      ∀ offered, g.IsOffered scope v offered → offered.width ≤ (scope v).width
  own : node.isLocal = false → ¬g.Steps root v → (¬∃ offered, g.IsOffered scope v offered) →
    scope v = node.scope

/-- The scopes of the nodes below the root solve the equations, the root's being given. -/
structure Solves (g : Graph) (scope : ℕ → Scope) : Prop where
  root : scope root = g.scopeAt root
  below : ∀ v node, Relation.TransGen g.Steps Graph.root v → g.node v = some node →
    g.SolvesAt scope v node

section Acyclic

variable {g : Graph} {scope scope' : ℕ → Scope}

theorem isReachable_iff : g.IsReachable v ↔ v = root ∨ Relation.TransGen g.Steps root v :=
  Relation.reflTransGen_iff_eq_or_transGen

theorem IsReachable.lt (hg : g.IsIndexed) (h : g.IsReachable v) : v < g.nodes.length := by
  rcases isReachable_iff.mp h with rfl | h
  · exact hg.root
  · obtain ⟨k, hk⟩ := transGen_iff_path.mp h
    exact ConflictOrder.Path.lt hg hk

/-- What holds of a node once it holds of its reachable parents holds of every reachable
node. -/
theorem IsAcyclic.induction (h : g.IsAcyclic) (hg : g.IsIndexed) (P : ℕ → Prop)
    (hstep : ∀ v, g.IsReachable v → (∀ u, g.IsReachable u → g.Steps u v → P u) → P v)
    (hv : g.IsReachable v) : P v := by
  have hfinite : Finite {v // g.IsReachable v} :=
    ((Set.finite_lt_nat g.nodes.length).subset fun v hv => IsReachable.lt hg hv).to_subtype
  let below (u v : {v // g.IsReachable v}) : Prop := Relation.TransGen g.Steps u.1 v.1
  have htrans : IsTrans _ below := ⟨fun _ _ _ hab hbc => hab.trans hbc⟩
  have hirrefl : Std.Irrefl below := ⟨fun v => h v.1 v.2⟩
  have hwf := Finite.wellFounded_of_trans_of_irrefl below
  suffices hall : ∀ v : {v // g.IsReachable v}, P v.1 from hall ⟨v, hv⟩
  intro v
  induction v using hwf.induction with
  | _ v ih =>
    apply hstep v.1 v.2
    intro u hu hsteps
    exact ih ⟨u, hu⟩ (.single hsteps)

theorem IsAcyclic.not_path_root (h : g.IsAcyclic) (k : ℕ) : ¬g.Path (k + 1) root := by
  intro hk
  exact h root .refl (transGen_iff_path.mpr ⟨k, hk⟩)

theorem isOffered_congr {offered : Scope}
    (h : ∀ u, g.IsReachable u → g.Steps u v → scope u = scope' u) :
    g.IsOffered scope v offered ↔ g.IsOffered scope' v offered := by
  refine and_congr_right fun _ => exists_congr fun link => ?_
  refine and_congr_right fun hlink => and_congr_right fun htarget =>
    and_congr_right fun hsource => ?_
  rw [h link.source hsource ⟨link, hlink, rfl, htarget⟩]

/-- Where no cycle can be reached, the equations have one solution. -/
theorem Solves.eq (h : g.IsAcyclic) (hg : g.IsIndexed) (hs : g.Solves scope) (hs' : g.Solves scope')
    (hv : g.IsReachable v) : scope v = scope' v := by
  refine h.induction hg (fun v => scope v = scope' v) (fun v hv ih => ?_) hv
  rcases isReachable_iff.mp hv with rfl | hbelow
  · rw [hs.root, hs'.root]
  have hlt := IsReachable.lt hg hv
  have hnode : g.node v = some (g.nodes[v]) := getElem?_eq_getElem hlt
  generalize g.nodes[v] = node at hnode
  have hat := hs.below v node hbelow hnode
  have hat' := hs'.below v node hbelow hnode
  have hoffered : ∀ offered, g.IsOffered scope v offered ↔ g.IsOffered scope' v offered :=
    fun offered => isOffered_congr ih
  cases hlocal : node.isLocal with
  | true => rw [hat.system hlocal, hat'.system hlocal]
  | false =>
    by_cases hdirect : g.Steps Graph.root v
    · obtain ⟨link, hfirst, hscope⟩ := hat.direct hlocal hdirect
      obtain ⟨link', hfirst', hscope'⟩ := hat'.direct hlocal hdirect
      obtain rfl : link = link' :=
        Option.some.inj ((minBy_of_isFirstMin hfirst).symm.trans (minBy_of_isFirstMin hfirst'))
      rw [hscope, hscope', hs.root, hs'.root]
    · by_cases hany : ∃ offered, g.IsOffered scope v offered
      · have hany' : ∃ offered, g.IsOffered scope' v offered := by simpa [hoffered] using hany
        obtain ⟨hself, hwide⟩ := hat.widest hlocal hdirect hany
        obtain ⟨hself', hwide'⟩ := hat'.widest hlocal hdirect hany'
        have hle := hwide' _ ((hoffered _).mp hself)
        have hge := hwide _ ((hoffered _).mpr hself')
        exact Scope.width_injective hself.1 hself'.1 (le_antisymm hle hge)
      · have hany' : ¬∃ offered, g.IsOffered scope' v offered := by simpa [hoffered] using hany
        rw [hat.own hlocal hdirect hany, hat'.own hlocal hdirect hany']

/-! ## The selection without cycles -/

/-- What holds during the selection where there is no cycle: a node is ready when its
listed parents are done, and then takes the scope that its equation gives. -/
structure Layered (g : Graph) (groups : ConflictOrder) (s : Selecting) : Prop where
  inDegree : ∀ v ∈ groups.order, s.done v = false →
    s.inDegree v = ((groups.parents v).filter (!s.done ·)).length
  ready : ∀ entry ∈ s.ready, entry.2 = false ∧ ∀ u ∈ groups.parents entry.1, s.done u = true
  waiting : ∀ v ∈ groups.order, s.done v = false → (∀ u ∈ groups.parents v, s.done u = true) →
    (v, false) ∈ s.ready
  closed : ∀ v ∈ groups.order, s.done v = true → ∀ u ∈ groups.parents v, s.done u = true
  start : ∀ v, v ∉ groups.order ∨ s.done v = false → s.picked v = g.unselected.picked v
  equation : ∀ v ∈ groups.order, s.done v = true →
    s.picked v = (g.unselected.picked v).or (g.scopeOf s.picked v)

theorem mem_parents {groups : ConflictOrder} (h : groups.Complete g) {u : ℕ} :
    u ∈ groups.parents v ↔ u ∈ groups.order ∧ g.Steps u v := by
  simp [ConflictOrder.parents, h.children]

theorem isReachable_of_mem {groups : ConflictOrder} (h : groups.Complete g)
    (hv : v ∈ groups.order) : g.IsReachable v :=
  isReachable_iff.mpr (.inr ((h.mem_iff v).mp hv))

theorem scopeOf_congr {picked picked' : ℕ → Option Scope}
    (h : ∀ u, g.Steps u v → picked u = picked' u) : g.scopeOf picked v = g.scopeOf picked' v := by
  unfold scopeOf
  congr 1
  apply foldl_ext
  intro widest link hlink
  obtain ⟨hlink, htarget⟩ := mem_filter.mp (mem_reverse.mp hlink)
  rw [h link.source ⟨link, hlink, rfl, by simpa using htarget⟩]

theorem length_filter_pos {l : List ℕ} {p : ℕ → Bool} {a : ℕ} (ha : a ∈ l) (hp : p a = true) :
    0 < (l.filter p).length :=
  length_pos_of_mem (mem_filter.mpr ⟨ha, hp⟩)

section Step

variable {groups : ConflictOrder} {s : Selecting} {node : ℕ} {ready : List (ℕ × Bool)}
  {picked : ℕ → Option Scope} (hg : g.IsIndexed) (hgroups : groups.Complete g)
  (hacyclic : g.IsAcyclic)

theorem Layered.undone (h : Layered g groups s) (hdone : s.done node = false)
    (hv : v ∈ groups.order) (hmem : node ∈ groups.parents v) : s.done v = false := by
  by_contra hdone'
  rw [h.closed v hv (by simpa using hdone') node hmem] at hdone
  cases hdone

include hgroups

theorem length_undone (hdone : s.done node = false) (v : ℕ) :
    ((groups.parents v).filter (!Function.update s.done node true ·)).length =
      if node ∈ groups.parents v then ((groups.parents v).filter (!s.done ·)).length - 1
      else ((groups.parents v).filter (!s.done ·)).length := by
  have hnodup : (groups.parents v).Nodup := hgroups.nodup.filter _
  have hfilter : (groups.parents v).filter (!Function.update s.done node true ·) =
      ((groups.parents v).filter (!s.done ·)).erase node := by
    rw [(hnodup.filter _).erase_eq_filter, filter_filter]
    apply filter_congr
    intro u _
    by_cases hu : u = node
    · simp [hu]
    · simp [hu]
  rw [hfilter]
  split
  next hmem =>
      rw [length_erase_of_mem (mem_filter.mpr ⟨hmem, by simp [hdone]⟩)]
  next hmem =>
      rw [erase_of_not_mem]
      intro hnode
      exact hmem (mem_filter.mp hnode).1

theorem Layered.left (h : Layered g groups s) (hdone : s.done node = false)
    (hv : v ∈ groups.order) (hmem : node ∈ groups.parents v) :
    s.inDegree v ≤ 1 ↔ ∀ u ∈ groups.parents v, Function.update s.done node true u = true := by
  have hcount := length_undone hgroups hdone v
  rw [if_pos hmem] at hcount
  have hpos : 0 < ((groups.parents v).filter (!s.done ·)).length :=
    length_filter_pos hmem (by simp [hdone])
  rw [h.inDegree v hv (h.undone hdone hv hmem)]
  constructor
  · intro hle u hu
    have hnil : (groups.parents v).filter (!Function.update s.done node true ·) = [] :=
      length_eq_zero_iff.mp (by omega)
    have hnot := filter_eq_nil_iff.mp hnil u hu
    simpa using hnot
  · intro hall
    have hnil : (groups.parents v).filter (!Function.update s.done node true ·) = [] := by
      apply filter_eq_nil_iff.mpr
      intro u hu
      simp [hall u hu]
    rw [hnil, length_nil] at hcount
    omega

include hacyclic

theorem Layered.picks (h : Layered g groups s) (hdone : s.done node = false)
    (hnode : node ∈ groups.order)
    (hpicks : Picks g { s with ready } node (ancestorsOf s node) false (.ok picked)) :
    (∀ v, v ≠ node → picked v = s.picked v) ∧
      picked node = (g.unselected.picked node).or (g.scopeOf picked node) := by
  have hstart := h.start node (.inr hdone)
  cases hpicks with
  | known hpicked =>
    have hpicked : s.picked node = _ := hpicked
    refine ⟨fun v _ => rfl, ?_⟩
    change s.picked node = _
    rw [← hstart, hpicked, Option.some_or]
  | below hpicked =>
    have hpicked : s.picked node = none := hpicked
    refine ⟨fun v hv => Function.update_of_ne hv _ _, ?_⟩
    rw [← hstart, hpicked, Option.none_or, Function.update_self]
    apply scopeOf_congr
    intro u hu
    have hne : u ≠ node := by
      rintro rfl
      exact hacyclic u (isReachable_of_mem hgroups hnode) (.single hu)
    exact (Function.update_of_ne hne _ _).symm

/-- A node whose parents are done gets the scope that its equation gives. -/
theorem Layered.settle (h : Layered g groups s) (hready : s.ready = (node, false) :: ready)
    (hdone : s.done node = false) (hnode : node ∈ groups.order)
    (hpicks : Picks g { s with ready } node (ancestorsOf s node) false (.ok picked)) :
    Layered g groups (settled groups { s with ready } node picked) := by
  obtain ⟨hother, hself⟩ := h.picks hgroups hacyclic hdone hnode hpicks
  obtain ⟨hdegree, hreleased, -⟩ := released_spec (hgroups.distinct node) (s.inDegree, ready)
  have hparents : ∀ u ∈ groups.parents node, s.done u = true :=
    (h.ready (node, false) (hready ▸ mem_cons_self)).2
  have hkeep : ∀ {v : ℕ}, s.done v = true → Function.update s.done node true v = true := by
    intro v hv
    by_cases hne : v = node
    · simp [hne]
    · rwa [Function.update_of_ne hne]
  have hnot :
      ∀ {v : ℕ}, Function.update s.done node true v = false → v ≠ node ∧ s.done v = false := by
    intro v hv
    by_cases hne : v = node
    · simp [hne] at hv
    · rw [Function.update_of_ne hne] at hv
      exact ⟨hne, hv⟩
  have hchild : ∀ v, v ∈ groups.children node ↔ node ∈ groups.parents v := by
    intro v
    rw [mem_parents hgroups, hgroups.children]
  refine ⟨?_, ?_, ?_, ?_, ?_, ?_⟩
  · intro v hv hvdone
    obtain ⟨-, hvdone⟩ := hnot hvdone
    refine (hdegree v).trans (.trans ?_ (length_undone hgroups hdone v).symm)
    simp only [hchild, h.inDegree v hv hvdone]
  · intro entry hentry
    rcases (hreleased entry).mp hentry with hentry | ⟨hbroken, hmem, hle⟩
    · obtain ⟨hbroken, hall⟩ := h.ready entry (hready ▸ mem_cons_of_mem _ hentry)
      exact ⟨hbroken, fun u hu => hkeep (hall u hu)⟩
    · have hv := hgroups.mem_of_mem_children hmem
      exact ⟨hbroken, (h.left hgroups hdone hv ((hchild entry.1).mp hmem)).mp hle⟩
  · intro v hv hvdone hall
    obtain ⟨hne, hvdone⟩ := hnot hvdone
    apply (hreleased (v, false)).mpr
    by_cases hmem : node ∈ groups.parents v
    · exact .inr ⟨rfl, (hchild v).mpr hmem, (h.left hgroups hdone hv hmem).mpr hall⟩
    left
    have hbefore : ∀ u ∈ groups.parents v, s.done u = true := by
      intro u hu
      have hu' : u ≠ node := ne_of_mem_of_not_mem hu hmem
      rw [← Function.update_of_ne hu' true s.done]
      exact hall u hu
    have hwaiting := h.waiting v hv hvdone hbefore
    rw [hready] at hwaiting
    rcases mem_cons.mp hwaiting with heq | hwaiting
    · cases heq
      exact absurd rfl hne
    · exact hwaiting
  · intro v hv hvdone u hu
    apply hkeep
    by_cases hne : v = node
    · subst hne
      exact hparents u hu
    · have hvdone : Function.update s.done node true v = true := hvdone
      rw [Function.update_of_ne hne] at hvdone
      exact h.closed v hv hvdone u hu
  · intro v hv
    have hv' : v ≠ node ∧ (v ∉ groups.order ∨ s.done v = false) := by
      rcases hv with hv | hv
      · exact ⟨(ne_of_mem_of_not_mem hnode hv).symm, .inl hv⟩
      · obtain ⟨hne, hv⟩ := hnot hv
        exact ⟨hne, .inr hv⟩
    exact (hother v hv'.1).trans (h.start v hv'.2)
  · intro v hv hvdone
    by_cases hne : v = node
    · subst hne
      exact hself
    have hbefore : Function.update s.done node true v = true := hvdone
    rw [Function.update_of_ne hne] at hbefore
    refine (hother v hne).trans ((h.equation v hv hbefore).trans ?_)
    congr 1
    apply scopeOf_congr
    intro u hu
    have hu' : u ≠ node := by
      rintro rfl
      rw [h.closed v hv hbefore u ((mem_parents hgroups).mpr ⟨hnode, hu⟩)] at hdone
      cases hdone
    exact (hother u hu').symm

include hg

theorem Layered.all_done (h : Layered g groups s) (hready : s.ready = []) (hv : v ∈ groups.order) :
    s.done v = true := by
  refine hacyclic.induction hg (fun v => v ∈ groups.order → s.done v = true) ?_
    (isReachable_of_mem hgroups hv) hv
  intro v _ ih hv
  by_contra hdone
  have hwaiting := h.waiting v hv (by simpa using hdone) (by
    intro u hu
    obtain ⟨hu, hsteps⟩ := (mem_parents hgroups).mp hu
    exact ih u (isReachable_of_mem hgroups hu) hsteps hu)
  rw [hready] at hwaiting
  cases hwaiting

theorem Layered.step {log : List ℕ} {next : Selecting × List ℕ} (h : Layered g groups s)
    (hs : Logged groups s log) (hstep : SelectStep g groups (s, log) (.inr next)) :
    Layered g groups next.1 := by
  cases hstep with
  | @skip _ _ node broken ready hready hdone =>
    refine ⟨h.inDegree, ?_, ?_, h.closed, h.start, h.equation⟩
    · intro entry hentry
      exact h.ready entry (hready ▸ mem_cons_of_mem _ hentry)
    · intro v hv hvdone hall
      have hwaiting := h.waiting v hv hvdone hall
      rw [hready] at hwaiting
      rcases mem_cons.mp hwaiting with heq | hwaiting
      · cases heq
        rw [hdone] at hvdone
        cases hvdone
      · exact hwaiting
  | @settle _ _ node broken ready picked hready hdone hpicks =>
    have hmem : (node, broken) ∈ s.ready := hready ▸ mem_cons_self
    obtain rfl : broken = false := (h.ready _ hmem).1
    exact h.settle hgroups hacyclic hready hdone (hs.ready _ hmem) hpicks
  | cut hready hnearest _ =>
    obtain ⟨hnode, hdone⟩ := mem_filter.mp (mem_of_minBy hnearest)
    rw [h.all_done hg hgroups hacyclic hready hnode] at hdone
    cases hdone

end Step

variable {v : ℕ} {picked : ℕ → Option Scope} {scope : ℕ → Scope} {node : Node}

theorem layered_unselected (hgroups : g.groups.Complete g)
    (hroot : root ∉ g.groups.order) :
    Layered g g.groups g.unselected := by
  have hundone : ∀ v ∈ g.groups.order, g.unselected.done v = false := by
    intro v hv
    have hne : v ≠ root := ne_of_mem_of_not_mem hv hroot
    simpa [unselected] using hne
  have hparent : ∀ v, ∀ u ∈ g.groups.parents v, g.unselected.done u = false := by
    intro v u hu
    exact hundone u ((mem_parents hgroups).mp hu).1
  have hready : ∀ entry, entry ∈ g.unselected.ready ↔ entry.2 = false ∧
      entry.1 ∈ g.groups.order ∧ g.groups.parents entry.1 = [] := by
    rintro ⟨v, broken⟩
    simp only [unselected, mem_reverse, mem_map, mem_filter, beq_iff_eq,
      hgroups.inDegree, length_eq_zero_iff, Prod.mk.injEq]
    constructor
    · rintro ⟨_, ⟨hv, hparents⟩, rfl, rfl⟩
      exact ⟨rfl, hv, hparents⟩
    · rintro ⟨hbroken, hv, hparents⟩
      exact ⟨v, ⟨hv, hparents⟩, rfl, hbroken.symm⟩
  refine ⟨?_, ?_, ?_, ?_, fun v _ => rfl, ?_⟩
  · intro v hv _
    have hall : (g.groups.parents v).filter (!g.unselected.done ·) =
        g.groups.parents v := by
      apply filter_eq_self.mpr
      intro u hu
      simp [hparent v u hu]
    rw [hall]
    exact hgroups.inDegree v
  · intro entry hentry
    obtain ⟨hbroken, -, hparents⟩ := (hready entry).mp hentry
    refine ⟨hbroken, ?_⟩
    rw [hparents]
    intro u hu
    cases hu
  · intro v hv _ hall
    refine (hready (v, false)).mpr ⟨rfl, hv, ?_⟩
    apply eq_nil_iff_forall_not_mem.mpr
    intro u hu
    have hdone := hall u hu
    rw [hparent v u hu] at hdone
    cases hdone
  · intro v hv hdone
    rw [hundone v hv] at hdone
    cases hdone
  · intro v hv hdone
    rw [hundone v hv] at hdone
    cases hdone

/-- Without cycles the selection succeeds, and every listed node has the scope that its
equation gives. -/
theorem runs_acyclic (hg : g.IsIndexed) (hacyclic : g.IsAcyclic) :
    ∃ picked, g.selectScopes = .ok (g.withScopes picked) ∧ (∀ v ∈ g.groups.order,
        picked v = (g.unselected.picked v).or (g.scopeOf picked v)) ∧
      ∀ v, v ∉ g.groups.order → picked v = g.unselected.picked v := by
  have hgroups := ConflictOrder.complete_of hg hacyclic.not_path_root
  have hroot := root_notMem_order hgroups hacyclic.not_path_root
  obtain ⟨result, hrun, hresult⟩ := runs_selectScopes hg hacyclic.not_path_root
  have hfinal : ∃ final, result = .ok final ∧ Layered g g.groups final.1 ∧
      ∀ v ∈ g.groups.order, final.1.done v = true := by
    refine Runs.invariant
      (fun s => Logged g.groups s.1 s.2 ∧ Layered g g.groups s.1)
      (fun result => ∃ final, result = .ok final ∧ Layered g g.groups final.1 ∧
        ∀ v ∈ g.groups.order, final.1.done v = true) hrun ?_ ?_
      ⟨logged_unselected hroot, layered_unselected hgroups hroot⟩
    · rintro ⟨s, log⟩ next ⟨hs, hlayered⟩ hstep
      exact ⟨hs.step hgroups hstep, hlayered.step hg hgroups hacyclic hs hstep⟩
    rintro ⟨s, log⟩ result ⟨hs, hlayered⟩ hstep
    cases hstep with
    | done hready _ =>
      exact ⟨_, rfl, hlayered, fun v hv => hlayered.all_done hg hgroups hacyclic hready hv⟩
    | @fail _ _ node broken ready e hready hdone hpicks =>
      have hbroken : broken = false :=
        (hlayered.ready (node, broken) (hready ▸ mem_cons_self)).1
      subst hbroken
      cases hpicks
  obtain ⟨final, rfl, hlayered, hdone⟩ := hfinal
  exact ⟨final.1.picked, hresult, fun v hv => hlayered.equation v hv (hdone v hv),
    fun v hv => hlayered.start v (.inl hv)⟩

/-! ## The solution -/

theorem unselected_picked (g : Graph) (v : ℕ) : g.unselected.picked v =
    if v ∈ g.groups.order ∧ (g.node v).any Node.isLocal then some .system
    else
      match directEdge g.directEdges v with
      | some edge => ((g.node root).map Node.scope).map edge.scopeBelow
      | none => if v = root then (g.node root).map Node.scope else none := by
  unfold directEdge
  cases hfind : g.directEdges.find? (·.1 == v) with
  | none => simp only [unselected, hfind, Option.map_none]
  | some entry => simp only [unselected, hfind, Option.map_some]

theorem directs_eq_nil_iff : g.directs v = [] ↔ ¬g.Steps root v := by
  simp [directs, Steps, filter_eq_nil_iff]

def offeredTo (g : Graph) (picked : ℕ → Option Scope) (v : ℕ) : List Scope :=
  (g.incoming v).filterMap fun link => (picked link.source).map link.edge.scopeBelow

theorem scopeOf_eq (g : Graph) (picked : ℕ → Option Scope) (v : ℕ) :
    g.scopeOf picked v =
      ((g.offeredTo picked v).foldl offer none).or ((g.node v).map Node.scope) := by
  unfold scopeOf offeredTo
  rw [foldl_filterMap]
  congr 2
  funext widest link
  cases picked link.source with
  | none => rfl
  | some parent => rfl

theorem mem_offeredTo {scope : Scope} :
    scope ∈ g.offeredTo picked v ↔ ∃ link ∈ g.links, link.target = v ∧
      ∃ parent, picked link.source = some parent ∧ link.edge.scopeBelow parent = scope := by
  simp [offeredTo, incoming, and_assoc]

structure Picked (g : Graph) (picked : ℕ → Option Scope) (scope : ℕ → Scope) : Prop where
  reachable : ∀ v, g.IsReachable v → picked v = some (scope v)
  other : ∀ v, ¬g.IsReachable v → picked v = none

theorem Picked.mem_offeredTo_iff (h : Picked g picked scope) {offered : Scope} :
    offered ∈ g.offeredTo picked v ∧ offered ≠ .system ↔ g.IsOffered scope v offered := by
  rw [mem_offeredTo, IsOffered, and_comm]
  refine and_congr_right fun _ => exists_congr fun link => and_congr_right fun _ =>
    and_congr_right fun _ => ?_
  constructor
  · rintro ⟨parent, hparent, hoffered⟩
    by_cases hreachable : g.IsReachable link.source
    · rw [h.reachable _ hreachable, Option.some.injEq] at hparent
      rw [hparent]
      exact ⟨hreachable, hoffered⟩
    · rw [h.other _ hreachable] at hparent
      cases hparent
  · rintro ⟨hreachable, hoffered⟩
    exact ⟨_, h.reachable _ hreachable, hoffered⟩

theorem Picked.widest (h : Picked g picked scope) (hv : g.IsReachable v)
    (hnode : g.node v = some node) (hpicked : picked v = g.scopeOf picked v) :
    ((∃ offered, g.IsOffered scope v offered) → g.IsOffered scope v (scope v) ∧
      ∀ offered, g.IsOffered scope v offered → offered.width ≤ (scope v).width) ∧
    ((¬∃ offered, g.IsOffered scope v offered) → scope v = node.scope) := by
  rw [h.reachable v hv, scopeOf_eq, hnode] at hpicked
  obtain ⟨hsome, hnone⟩ := foldl_offer_spec (g.offeredTo picked v)
  cases hfold : (g.offeredTo picked v).foldl offer none with
  | none =>
    rw [hfold] at hpicked
    have hempty : ¬∃ offered, g.IsOffered scope v offered := by
      rintro ⟨offered, hoffered⟩
      obtain ⟨hmem, hne⟩ := h.mem_offeredTo_iff.mpr hoffered
      exact hne (hnone hfold offered hmem)
    exact ⟨fun hany => absurd hany hempty, fun _ => by simpa using hpicked⟩
  | some widest =>
    rw [hfold] at hpicked
    obtain rfl : scope v = widest := by simpa using hpicked
    obtain ⟨hmem, hne, hwide⟩ := hsome _ hfold
    have hself : g.IsOffered scope v (scope v) := h.mem_offeredTo_iff.mp ⟨hmem, hne⟩
    refine ⟨fun _ => ⟨hself, ?_⟩, fun hempty => absurd ⟨_, hself⟩ hempty⟩
    intro offered hoffered
    obtain ⟨hmem, hne⟩ := h.mem_offeredTo_iff.mpr hoffered
    exact hwide offered hmem hne

theorem scopeAt_withScopes {scope : Scope} (hv : v < g.nodes.length) (h : picked v = some scope) :
    (g.withScopes picked).scopeAt v = scope := by
  simp [scopeAt, withScopes, node, hv, h]

theorem isSome_scopeOf (hv : v < g.nodes.length) : (g.scopeOf picked v).isSome := by
  rw [scopeOf_eq, Option.isSome_or]
  simp [node, hv]

theorem unselected_picked_of_notMem (hgroups : g.groups.Complete g)
    (hv : v ∉ g.groups.order) :
    g.unselected.picked v = if v = root then (g.node root).map Node.scope else none := by
  have hsteps : ¬g.Steps root v := by
    intro hsteps
    exact hv ((hgroups.mem_iff v).mpr (.single hsteps))
  have hnone : directEdge g.directEdges v = none := by
    rw [directEdge_eq, directs_eq_nil_iff.mpr hsteps]
    rfl
  rw [unselected_picked, hnone]
  simp [hv]

theorem picked_withScopes (hg : g.IsIndexed) (hgroups : g.groups.Complete g)
    (hroot : root ∉ g.groups.order)
    (hequation : ∀ v ∈ g.groups.order,
      picked v = (g.unselected.picked v).or (g.scopeOf picked v))
    (hstart : ∀ v, v ∉ g.groups.order → picked v = g.unselected.picked v) :
    Picked g picked (g.withScopes picked).scopeAt := by
  constructor
  · intro v hv
    have hlt := IsReachable.lt hg hv
    have hsome : (picked v).isSome := by
      rcases isReachable_iff.mp hv with rfl | hbelow
      · rw [hstart _ hroot, unselected_picked_of_notMem hgroups hroot, if_pos rfl]
        simp [node, hlt]
      · rw [hequation v ((hgroups.mem_iff v).mpr hbelow), Option.isSome_or, isSome_scopeOf hlt,
          Bool.or_true]
    obtain ⟨scope, hscope⟩ := Option.isSome_iff_exists.mp hsome
    rw [scopeAt_withScopes hlt hscope, hscope]
  · intro v hv
    have hnot : v ∉ g.groups.order := fun hmem => hv (isReachable_of_mem hgroups hmem)
    have hne : v ≠ root := by
      rintro rfl
      exact hv .refl
    rw [hstart v hnot, unselected_picked_of_notMem hgroups hnot, if_neg hne]

theorem Picked.solvesAt (h : Picked g picked scope) (hv : v ∈ g.groups.order)
    (hreachable : g.IsReachable v) (hne : v ≠ root) (hnode : g.node v = some node)
    (hroot : (g.node root).map Node.scope = some (scope root))
    (hequation : picked v = (g.unselected.picked v).or (g.scopeOf picked v)) :
    g.SolvesAt scope v node := by
  have hscope := h.reachable v hreachable
  rw [unselected_picked, hnode, hroot] at hequation
  refine ⟨?_, ?_, ?_, ?_⟩
  · intro hlocal
    rw [hscope] at hequation
    simpa [hv, hlocal] using hequation
  · intro hlocal hsteps
    have hdirects : g.directs v ≠ [] := fun hnil => directs_eq_nil_iff.mp hnil hsteps
    obtain ⟨link, hlink⟩ : ∃ link, minBy compareDeclared (g.directs v) = some link :=
      minBy_isSome hdirects
    refine ⟨link, isFirstMin_of_minBy hlink, ?_⟩
    rw [hscope, directEdge_eq, hlink] at hequation
    simpa [hlocal] using hequation
  all_goals
    intro hlocal hsteps
    have hwidest : picked v = g.scopeOf picked v := by
      rw [directEdge_eq, directs_eq_nil_iff.mpr hsteps] at hequation
      simpa [hlocal, hne] using hequation
  · exact (h.widest hreachable hnode hwidest).1
  · exact (h.widest hreachable hnode hwidest).2

/-- Where no cycle can be reached from the root, scope selection succeeds with the one
solution of the scope equations. -/
theorem selectScopes_solves (hg : g.IsIndexed) (hacyclic : g.IsAcyclic) :
    ∃ g', g.selectScopes = .ok g' ∧ g.Solves g'.scopeAt ∧
      ∀ scope, g.Solves scope → ∀ v, g.IsReachable v → scope v = g'.scopeAt v := by
  obtain ⟨picked, hselect, hequation, hstart⟩ := runs_acyclic hg hacyclic
  have hgroups := ConflictOrder.complete_of hg hacyclic.not_path_root
  have hroot := root_notMem_order hgroups hacyclic.not_path_root
  have hpicked := picked_withScopes hg hgroups hroot hequation hstart
  have hrootScope : (g.node root).map Node.scope = some ((g.withScopes picked).scopeAt root) := by
    rw [← hpicked.reachable root .refl, hstart root hroot,
      unselected_picked_of_notMem hgroups hroot, if_pos rfl]
  have hsolves : g.Solves (g.withScopes picked).scopeAt := by
    constructor
    · have hscope : g.scopeAt root = (g.withScopes picked).scopeAt root := by
        rw [scopeAt, hrootScope, Option.getD_some]
      exact hscope.symm
    · intro v node hbelow hnode
      have hv := (hgroups.mem_iff v).mpr hbelow
      have hne : v ≠ root := ne_of_mem_of_not_mem hv hroot
      exact hpicked.solvesAt hv (isReachable_iff.mpr (.inr hbelow)) hne hnode hrootScope
        (hequation v hv)
  exact ⟨_, hselect, hsolves, fun scope hscope v hv => hscope.eq hacyclic hg hsolves hv⟩

theorem isAcyclic_of_lt (h : ∀ link ∈ g.links, link.source < link.target) : g.IsAcyclic := by
  intro v _ hcycle
  have hlt : ∀ {u w : ℕ}, Relation.TransGen g.Steps u w → u < w := by
    intro u w hpath
    induction hpath with
    | single hstep =>
      obtain ⟨link, hlink, rfl, rfl⟩ := hstep
      exact h link hlink
    | tail _ hstep ih =>
      obtain ⟨link, hlink, rfl, rfl⟩ := hstep
      exact ih.trans (h link hlink)
  exact lt_irrefl v (hlt hcycle)

/-- A root with a test dependency, which has a compile dependency of its own. -/
def sampleChain : Graph :=
  { nodes := [sampleNode 'r', sampleNode 'a', sampleNode 'b']
    links := [⟨0, 1, sampleEdge .test⟩, ⟨1, 2, sampleEdge .compile⟩] }

theorem selectScopes_solves_chain :
    sampleChain.IsIndexed ∧ sampleChain.IsAcyclic ∧
      ∃ g', sampleChain.selectScopes = .ok g' ∧ sampleChain.Solves g'.scopeAt := by
  have hg : sampleChain.IsIndexed := ⟨by decide, by decide, by decide, by decide⟩
  have hacyclic : sampleChain.IsAcyclic := isAcyclic_of_lt (by decide)
  obtain ⟨g', hselect, hsolves, -⟩ := selectScopes_solves hg hacyclic
  exact ⟨hg, hacyclic, g', hselect, hsolves⟩

end Acyclic

end Graph

end Raeva
