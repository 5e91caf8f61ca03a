import Raeva.Resolver.Trim

/-!
# The structure of a walk

What ties the groups, the graph and the declarations of a walk together in
every reachable state: groups are classes of a forest, every group owns one
node, every edge leads to the node of a group, and every declared candidate was
declared by the present winner of its parent.  Inside an operation the
invariant holds except for the children of a node that is about to be retired.
-/

namespace Raeva

open List

namespace Walk

/-! ## Views of the groups -/

def Holds (w : Walk) (k : CoordKey) (c : Candidate) : Prop :=
  ∃ s, w.selected.lookup k = some s ∧ c ∈ s.candidates

def Won (w : Walk) (c : Candidate) : Prop :=
  ∃ k s, w.selected.lookup k = some s ∧ s.winner = some c

def nodeOf (w : Walk) (k : CoordKey) : Option ℕ :=
  (w.selected.lookup k).map Selected.node

variable {k : CoordKey} {c : Candidate} {T : CoordKey → Prop} {w w' : Walk} {s : Selected}

theorem nodeOf_eq_some {n : ℕ} :
    w.nodeOf k = some n ↔ ∃ s, w.selected.lookup k = some s ∧ s.node = n := by
  simp [nodeOf]

theorem nodeOf_of_lookup (h : w.selected.lookup k = some s) : w.nodeOf k = some s.node := by
  simp [nodeOf, h]

theorem Holds.nodeOf (h : w.Holds k c) : ∃ n, w.nodeOf k = some n := by
  obtain ⟨s, hs, -⟩ := h
  exact ⟨s.node, nodeOf_of_lookup hs⟩

theorem holds_iff : w.holds k c = true ↔ w.Holds k c := by
  simp [holds, Holds, Option.any_eq_true]

theorem nodeOf_setSelected (w : Walk) (key k : CoordKey) (s : Selected) :
    (w.setSelected key s).nodeOf k = if k = key then some s.node else w.nodeOf k := by
  simp only [nodeOf, lookup_setSelected]
  split <;> rfl

theorem nodeOf_setSelected_of_node {key : CoordKey} {s' : Selected}
    (hs : w.selected.lookup key = some s) (hnode : s'.node = s.node) (k : CoordKey) :
    (w.setSelected key s').nodeOf k = w.nodeOf k := by
  rw [nodeOf_setSelected]
  split
  · rename_i hkey
    rw [hkey, nodeOf_of_lookup hs, hnode]
  · rfl

theorem holds_setSelected {key : CoordKey} :
    (w.setSelected key s).Holds k c ↔ if k = key then c ∈ s.candidates else w.Holds k c := by
  simp only [Holds, lookup_setSelected]
  split <;> simp

theorem nodeOf_congr (hnone : w.selected.lookup k = none → w'.selected.lookup k = none)
    (hsome : ∀ s, w.selected.lookup k = some s →
      ∃ s', w'.selected.lookup k = some s' ∧ s'.node = s.node) : w'.nodeOf k = w.nodeOf k := by
  cases hs : w.selected.lookup k with
  | none => simp [nodeOf, hs, hnone hs]
  | some s =>
    obtain ⟨s', hs', hnode⟩ := hsome s hs
    simp [nodeOf, hs, hs', hnode]

theorem Trims.nodeOf_eq (h : Trims T w w') (k : CoordKey) : w'.nodeOf k = w.nodeOf k :=
  nodeOf_congr (h.lookup_none k) fun s hs =>
    (h.lookup_some k s hs).imp fun _ ⟨hs', htrim, _⟩ => ⟨hs', htrim.node_eq⟩

theorem Trims.holds (h : Trims T w w') (hc : w'.Holds k c) :
    ∃ c₀, w.Holds k c₀ ∧ c.ComesFrom c₀ := by
  obtain ⟨s', hs', hmem⟩ := hc
  obtain ⟨s, hs, htrim, -⟩ := h.lookup_of_lookup hs'
  obtain ⟨c₀, hc₀, hfrom⟩ := htrim.comesFrom c hmem
  exact ⟨c₀, ⟨s, hs, hc₀⟩, hfrom⟩

theorem Trims.holds_declared (h : Trims T w w') (hc : w'.Holds k c)
    (hshadow : c.item.shadow = none) : w.Holds k c := by
  obtain ⟨c₀, hc₀, hfrom⟩ := h.holds hc
  rwa [hfrom.eq_of_shadow_eq_none hshadow]

/-! ## The invariant -/

/-- The declaration is one of the root's, or its parent is the node of a group
on its path. -/
def Placed (w : Walk) (item : QueueItem) : Prop :=
  item.parent = Graph.root ∨ ∃ k ∈ item.path.keys, w.nodeOf (w.groupOf k) = some item.parent

def Current (w : Walk) (item : QueueItem) : Prop :=
  w.generations[item.parent]? = some item.parentGeneration

structure Fits (gone : ℕ → Prop) (w : Walk) (k : CoordKey) (c : Candidate) : Prop where
  member : w.groupOf c.key = k
  current : c.item.shadow = none → w.Current c.item
  declaredKey : c.item.shadow = none →
    ∃ d ∈ (w.declared.lookup c.item.parent).getD [], w.groupOf d = k
  placed : c.item.shadow = none → gone c.item.parent ∨ w.Placed c.item

/-- The nodes `gone` are about to be retired. -/
structure Inv (gone : ℕ → Prop) (w : Walk) : Prop where
  shadowsOk : w.ShadowsOk
  selectedRoot : ∀ k n, w.nodeOf k = some n → w.groupOf k = k
  nodeLt : ∀ k n, w.nodeOf k = some n → Graph.root < n ∧ n < w.graph.nodes.length
  nodeInj : ∀ k k' n, w.nodeOf k = some n → w.nodeOf k' = some n → k = k'
  linkTarget : ∀ link ∈ w.graph.links, ∃ k, w.nodeOf k = some link.target
  nodeCoord : ∀ k n node, w.nodeOf k = some n → w.graph.node n = some node →
    w.groupOf (.ofCoord node.coord) = k
  fits : ∀ k c, w.Holds k c → w.Fits gone k c
  generationCount : w.generations.length = w.graph.nodes.length
  rootGeneration : w.generations[Graph.root]? = some Raeva.rootGeneration
  generationLt : ∀ generation ∈ w.generations, generation < w.nextGeneration
  queuedLt : ∀ item ∈ w.queue, item.shadow = none → item.parentGeneration < w.nextGeneration
  queuedPlaced : ∀ item ∈ w.queue, item.shadow = none → w.Current item →
    gone item.parent ∨ w.Placed item
  walkLoads : ∀ probes ∈ w.walkLoads, ∀ c ∈ probes, c.item.shadow ≠ none

abbrev Sound (w : Walk) : Prop :=
  w.Inv fun _ => False

theorem Inv.groupOf_groupOf {gone : ℕ → Prop} (h : w.Inv gone) (k : CoordKey) :
    w.groupOf (w.groupOf k) = w.groupOf k :=
  ParentMap.root_root h.shadowsOk.forest k

theorem Placed.congr {item : QueueItem} (h : w.Placed item)
    (hgroup : ∀ k, w'.groupOf k = w.groupOf k) (hnode : ∀ k, w'.nodeOf k = w.nodeOf k) :
    w'.Placed item := by
  rcases h with hroot | ⟨k, hk, hnodeOf⟩
  · exact .inl hroot
  · exact .inr ⟨k, hk, by rw [hgroup, hnode, hnodeOf]⟩

theorem Fits.mono {gone gone' : ℕ → Prop} (h : w.Fits gone k c) (hgone : ∀ n, gone n → gone' n) :
    w.Fits gone' k c :=
  { h with placed := fun hshadow => (h.placed hshadow).imp_left (hgone _) }

theorem Fits.of_item {gone : ℕ → Prop} {c₀ : Candidate} (h : w.Fits gone k c₀)
    (hkey : c.key = c₀.key) (hitem : c.item.shadow = none → c.item = c₀.item) :
    w.Fits gone k c where
  member := by rw [hkey, h.member]
  current hshadow := by
    rw [hitem hshadow]
    exact h.current (hitem hshadow ▸ hshadow)
  declaredKey hshadow := by
    rw [hitem hshadow]
    exact h.declaredKey (hitem hshadow ▸ hshadow)
  placed hshadow := by
    rw [hitem hshadow]
    exact h.placed (hitem hshadow ▸ hshadow)

theorem Inv.mono {gone gone' : ℕ → Prop} (h : w.Inv gone) (hgone : ∀ n, gone n → gone' n) :
    w.Inv gone' :=
  { h with
    fits := fun k c hc => (h.fits k c hc).mono hgone
    queuedPlaced := fun item hitem hshadow hcurrent =>
      (h.queuedPlaced item hitem hshadow hcurrent).imp_left (hgone _) }

/-! ## Operations within the groups -/

/-- The groups and their nodes stay; candidates are as they were or fit, and so
do edges and queued declarations. -/
structure Carries (w w' : Walk) : Prop where
  shadowsOk : w.ShadowsOk → w'.ShadowsOk
  groups_eq : w'.groups = w.groups
  nodeOf_eq : ∀ k, w'.nodeOf k = w.nodeOf k
  nodes_eq : w'.graph.nodes = w.graph.nodes
  links : ∀ link ∈ w'.graph.links, link ∈ w.graph.links ∨ ∃ k, w.nodeOf k = some link.target
  generations_eq : w'.generations = w.generations
  nextGeneration_eq : w'.nextGeneration = w.nextGeneration
  declared : ∀ parent, ∀ d ∈ (w.declared.lookup parent).getD [],
    d ∈ (w'.declared.lookup parent).getD []
  holds : ∀ k c, w'.Holds k c →
    (∃ c₀, w.Holds k c₀ ∧ c.key = c₀.key ∧ (c.item.shadow = none → c.item = c₀.item)) ∨
      w'.Fits (fun _ => False) k c
  queue : ∀ item ∈ w'.queue, item ∈ w.queue ∨
    (item.shadow = none → item.parentGeneration < w'.nextGeneration ∧ w'.Placed item)
  walkLoads : ∀ probes ∈ w'.walkLoads, probes ∈ w.walkLoads ∨ ∀ c ∈ probes, c.item.shadow ≠ none

namespace Carries

variable {w w' : Walk}

theorem groupOf_eq (h : Carries w w') (k : CoordKey) : w'.groupOf k = w.groupOf k := by
  simp [groupOf, h.groups_eq]

theorem placed (h : Carries w w') {item : QueueItem} (hp : w.Placed item) : w'.Placed item :=
  hp.congr h.groupOf_eq h.nodeOf_eq

theorem current_iff (h : Carries w w') {item : QueueItem} : w'.Current item ↔ w.Current item := by
  rw [Current, Current, h.generations_eq]

theorem fits {gone : ℕ → Prop} (h : Carries w w') (hc : w.Fits gone k c) : w'.Fits gone k c where
  member := by rw [h.groupOf_eq, hc.member]
  current hshadow := h.current_iff.mpr (hc.current hshadow)
  declaredKey hshadow := by
    obtain ⟨d, hd, hgroup⟩ := hc.declaredKey hshadow
    exact ⟨d, h.declared _ d hd, by rw [h.groupOf_eq, hgroup]⟩
  placed hshadow := (hc.placed hshadow).imp_right h.placed

theorem trans {w'' : Walk} (h : Carries w w') (h' : Carries w' w'') : Carries w w'' where
  shadowsOk hok := h'.shadowsOk (h.shadowsOk hok)
  groups_eq := h'.groups_eq.trans h.groups_eq
  nodeOf_eq k := (h'.nodeOf_eq k).trans (h.nodeOf_eq k)
  nodes_eq := h'.nodes_eq.trans h.nodes_eq
  links link hlink := by
    rcases h'.links link hlink with hlink | ⟨k, hk⟩
    · exact h.links link hlink
    · exact .inr ⟨k, by rw [← h.nodeOf_eq, hk]⟩
  generations_eq := h'.generations_eq.trans h.generations_eq
  nextGeneration_eq := h'.nextGeneration_eq.trans h.nextGeneration_eq
  declared parent d hd := h'.declared parent d (h.declared parent d hd)
  holds k c hc := by
    rcases h'.holds k c hc with ⟨c₁, hc₁, hkey₁, hitem₁⟩ | hfits
    · rcases h.holds k c₁ hc₁ with ⟨c₀, hc₀, hkey₀, hitem₀⟩ | hfits
      · refine .inl ⟨c₀, hc₀, hkey₁.trans hkey₀, fun hshadow => ?_⟩
        rw [hitem₁ hshadow, hitem₀ (hitem₁ hshadow ▸ hshadow)]
      · exact .inr ((h'.fits hfits).of_item hkey₁ hitem₁)
    · exact .inr hfits
  queue item hitem := by
    rcases h'.queue item hitem with hitem | hnew
    · refine (h.queue item hitem).imp_right fun hnew hshadow => ?_
      rw [h'.nextGeneration_eq]
      exact ⟨(hnew hshadow).1, h'.placed (hnew hshadow).2⟩
    · exact .inr hnew
  walkLoads probes hprobes := by
    rcases h'.walkLoads probes hprobes with hprobes | hnew
    · exact h.walkLoads probes hprobes
    · exact .inr hnew

theorem of_trims (ht : Trims T w w') : Carries w w' where
  shadowsOk := ht.shadowsOk
  groups_eq := ht.groups_eq
  nodeOf_eq := ht.nodeOf_eq
  nodes_eq := by rw [ht.graph_eq]
  links link hlink := .inl (by rwa [ht.graph_eq] at hlink)
  generations_eq := ht.generations_eq
  nextGeneration_eq := ht.nextGeneration_eq
  declared parent d hd := by rwa [ht.declared_eq]
  holds k c hc := by
    obtain ⟨c₀, hc₀, hfrom⟩ := ht.holds hc
    refine .inl ⟨c₀, hc₀, hfrom.key_eq, fun hshadow => ?_⟩
    rw [hfrom.eq_of_shadow_eq_none hshadow]
  queue item hitem := .inl (by rwa [ht.queue_eq] at hitem)
  walkLoads probes hprobes := .inl (by rwa [ht.walkLoads_eq] at hprobes)

end Carries

variable {w w' : Walk} {gone : ℕ → Prop} {node : ℕ} {g : CoordKey → CoordKey}

/-- What leaves the groups and their nodes alone keeps the invariant. -/
theorem Inv.carries (h : w.Inv gone) (hc : Carries w w') : w'.Inv gone where
  shadowsOk := hc.shadowsOk h.shadowsOk
  selectedRoot k n hk := by
    rw [hc.nodeOf_eq] at hk
    rw [hc.groupOf_eq, h.selectedRoot k n hk]
  nodeLt k n hk := by
    rw [hc.nodeOf_eq] at hk
    rw [hc.nodes_eq]
    exact h.nodeLt k n hk
  nodeInj k k' n hk hk' := by
    rw [hc.nodeOf_eq] at hk hk'
    exact h.nodeInj k k' n hk hk'
  linkTarget link hlink := by
    rcases hc.links link hlink with hlink | ⟨k, hk⟩
    · obtain ⟨k, hk⟩ := h.linkTarget link hlink
      exact ⟨k, by rw [hc.nodeOf_eq, hk]⟩
    · exact ⟨k, by rw [hc.nodeOf_eq, hk]⟩
  nodeCoord k n node hk hnode := by
    rw [hc.nodeOf_eq] at hk
    rw [Graph.node, hc.nodes_eq] at hnode
    rw [hc.groupOf_eq, h.nodeCoord k n node hk hnode]
  fits k c hmem := by
    rcases hc.holds k c hmem with ⟨c₀, hc₀, hkey, hitem⟩ | hfits
    · exact (hc.fits (h.fits k c₀ hc₀)).of_item hkey hitem
    · exact hfits.mono fun _ => False.elim
  generationCount := by rw [hc.generations_eq, hc.nodes_eq, h.generationCount]
  rootGeneration := by rw [hc.generations_eq, h.rootGeneration]
  generationLt := by
    rw [hc.generations_eq, hc.nextGeneration_eq]
    exact h.generationLt
  queuedLt item hitem hshadow := by
    rcases hc.queue item hitem with hold | hnew
    · rw [hc.nextGeneration_eq]
      exact h.queuedLt item hold hshadow
    · exact (hnew hshadow).1
  queuedPlaced item hitem hshadow hcurrent := by
    rcases hc.queue item hitem with hold | hnew
    · exact (h.queuedPlaced item hold hshadow (hc.current_iff.mp hcurrent)).imp_right hc.placed
    · exact .inr (hnew hshadow).2
  walkLoads probes hprobes := by
    rcases hc.walkLoads probes hprobes with hold | hnew
    · exact h.walkLoads probes hold
    · exact hnew

theorem Inv.trims (h : w.Inv gone) (ht : Trims T w w') : w'.Inv gone :=
  h.carries (.of_trims ht)

theorem not_parent_of_cleared (hclear : Cleared node (w.generations[node]?.getD 0) w' k)
    (hc : w'.Holds k c) (hshadow : c.item.shadow = none) (hcurrent : w.Current c.item) :
    c.item.parent ≠ node := by
  rintro rfl
  obtain ⟨s, hs, hmem⟩ := hc
  have hdeclared := hclear s hs c hmem
  rw [Current] at hcurrent
  simp [isDeclaredBy, hshadow, hcurrent] at hdeclared

/-- The walk is sound again once the node without a group is retired. -/
theorem Inv.retire (h : w.Inv (· = node)) (hroot : Graph.root < node)
    (hlt : node < w.graph.nodes.length) (convert : Option (ShadowOrigin × PathNode)) :
    (w.retire node convert).Sound := by
  have ht := retire_trims (fun _ => True) w node convert
  have hclear := retire_cleared w node convert
  generalize w.retire node convert = w' at ht hclear ⊢
  have hgroup (k : CoordKey) : w'.groupOf k = w.groupOf k := ht.groupOf_eq k
  have hnodeOf (k : CoordKey) : w'.nodeOf k = w.nodeOf k := ht.nodeOf_eq k
  have hgraph : w'.graph = w.graph.clearOutgoing node := ht.graph_eq
  have hgenerations : w'.generations = w.generations.set node w.nextGeneration := ht.generations_eq
  have hnext : w'.nextGeneration = w.nextGeneration + 1 := ht.nextGeneration_eq
  have hdeclared : w'.declared = w.declared.erase node := ht.declared_eq
  have hqueue : w'.queue = w.queue := ht.queue_eq
  -- A declared candidate that stays was not declared by the node.
  have hstays {k : CoordKey} {c : Candidate} (hc : w'.Holds k c) (hshadow : c.item.shadow = none) :
      w.Holds k c ∧ c.item.parent ≠ node := by
    have hold : w.Holds k c := ht.holds_declared hc hshadow
    refine ⟨hold, ?_⟩
    by_cases hparent : c.item.parent = node
    · obtain ⟨d, hd, hdk⟩ := (h.fits k c hold).declaredKey hshadow
      rw [hparent] at hd
      have := hclear d hd
      rw [hdk] at this
      exact not_parent_of_cleared this hc hshadow ((h.fits k c hold).current hshadow)
    · exact hparent
  have hcurrent {item : QueueItem} (hparent : item.parent ≠ node) :
      w'.Current item ↔ w.Current item := by
    rw [Current, Current, hgenerations, getElem?_set_ne hparent.symm]
  exact
    { shadowsOk := ht.shadowsOk ⟨h.shadowsOk.forest, h.shadowsOk.root⟩
      selectedRoot := fun k n hk => by
        rw [hgroup, h.selectedRoot k n (hnodeOf k ▸ hk)]
      nodeLt := fun k n hk => by
        simpa [hgraph] using h.nodeLt k n (hnodeOf k ▸ hk)
      nodeInj := fun k k' n hk hk' => h.nodeInj k k' n (hnodeOf k ▸ hk) (hnodeOf k' ▸ hk')
      linkTarget := fun link hlink => by
        rw [hgraph, Graph.mem_clearOutgoing] at hlink
        obtain ⟨k, hk⟩ := h.linkTarget link hlink.1
        exact ⟨k, by rw [hnodeOf, hk]⟩
      nodeCoord := fun k n node' hk hnode => by
        rw [hgraph] at hnode
        rw [hgroup, h.nodeCoord k n node' (hnodeOf k ▸ hk) hnode]
      fits := fun k c hc => by
        refine ⟨?_, fun hshadow => ?_, fun hshadow => ?_, fun hshadow => ?_⟩
        · obtain ⟨c₀, hc₀, hfrom⟩ := ht.holds hc
          rw [hgroup, hfrom.key_eq]
          exact (h.fits k c₀ hc₀).member
        all_goals
          obtain ⟨hold, hparent⟩ := hstays hc hshadow
          have hfits := h.fits k c hold
        · exact (hcurrent hparent).mpr (hfits.current hshadow)
        · obtain ⟨d, hd, hdk⟩ := hfits.declaredKey hshadow
          refine ⟨d, ?_, by rw [hgroup, hdk]⟩
          rwa [hdeclared, Table.lookup_erase_eq, if_neg hparent]
        · exact .inr (((hfits.placed hshadow).resolve_left hparent).congr hgroup hnodeOf)
      generationCount := by simp [hgenerations, hgraph, h.generationCount]
      rootGeneration := by
        rw [hgenerations, getElem?_set_ne hroot.ne', h.rootGeneration]
      generationLt := fun generation hmem => by
        rw [hgenerations] at hmem
        rw [hnext]
        rcases mem_or_eq_of_mem_set hmem with hmem | rfl
        · exact Nat.lt_succ_of_lt (h.generationLt generation hmem)
        · exact Nat.lt_succ_self _
      queuedLt := fun item hitem hshadow => by
        rw [hqueue] at hitem
        rw [hnext]
        exact Nat.lt_succ_of_lt (h.queuedLt item hitem hshadow)
      queuedPlaced := fun item hitem hshadow hcur => by
        rw [hqueue] at hitem
        -- An item of the retired winner is of an older generation.
        have hparent : item.parent ≠ node := by
          intro hparent
          rw [Current, hgenerations, hparent, getElem?_set_self (by rwa [h.generationCount])]
            at hcur
          have := h.queuedLt item hitem hshadow
          rw [← Option.some.inj hcur] at this
          exact Nat.lt_irrefl _ this
        exact .inr (((h.queuedPlaced item hitem hshadow
          ((hcurrent hparent).mp hcur)).resolve_left hparent).congr hgroup hnodeOf)
      walkLoads := by
        rw [ht.walkLoads_eq]
        exact h.walkLoads }

/-! ## Regrouping -/

/-- Groups are renamed by `g`, which may merge two of them, and `gone` are the
nodes of groups that were merged into others. -/
structure Regroups (g : CoordKey → CoordKey) (gone : ℕ → Prop) (w w' : Walk) : Prop where
  groupOf_eq : ∀ k, w'.groupOf k = g (w.groupOf k)
  groupOf_root : ∀ k n, w.nodeOf k = some n → w'.groupOf (g k) = g k
  holds : ∀ k c, w'.Holds k c → ∃ k₀, w.Holds k₀ c ∧ k = g k₀
  nodeOf : ∀ k n, w'.nodeOf k = some n → ∃ k₀, w.nodeOf k₀ = some n ∧ k = g k₀
  nodeOf_some : ∀ k n, w.nodeOf k = some n → gone n ∨ w'.nodeOf (g k) = some n
  linkTarget : ∀ link ∈ w'.graph.links, ∃ k, w'.nodeOf k = some link.target
  nodes_eq : w'.graph.nodes = w.graph.nodes
  frame : w' = { w with
      graph := w'.graph
      selected := w'.selected
      groups := w'.groups
      shadows := w'.shadows }
  won : ∀ c, w'.Won c → w.Won c
  shadowsOk : w'.ShadowsOk

section Regroups

variable (hr : Regroups g gone w w')
include hr

theorem Regroups.generations_eq : w'.generations = w.generations := by rw [hr.frame]
theorem Regroups.nextGeneration_eq : w'.nextGeneration = w.nextGeneration := by rw [hr.frame]
theorem Regroups.queue_eq : w'.queue = w.queue := by rw [hr.frame]

theorem Regroups.placed {item : QueueItem} (h : w.Placed item) :
    gone item.parent ∨ w'.Placed item := by
  rcases h with hroot | ⟨k, hk, hnode⟩
  · exact .inr (.inl hroot)
  · rcases hr.nodeOf_some _ _ hnode with hgone | hnode'
    · exact .inl hgone
    · exact .inr (.inr ⟨k, hk, by rw [hr.groupOf_eq, hnode']⟩)

theorem Inv.regroups (h : w.Sound) : w'.Inv gone where
  shadowsOk := hr.shadowsOk
  selectedRoot k n hk := by
    obtain ⟨k₀, hk₀, rfl⟩ := hr.nodeOf k n hk
    exact hr.groupOf_root k₀ n hk₀
  nodeLt k n hk := by
    obtain ⟨k₀, hk₀, rfl⟩ := hr.nodeOf k n hk
    rw [hr.nodes_eq]
    exact h.nodeLt k₀ n hk₀
  nodeInj k k' n hk hk' := by
    obtain ⟨k₀, hk₀, rfl⟩ := hr.nodeOf k n hk
    obtain ⟨k₀', hk₀', rfl⟩ := hr.nodeOf k' n hk'
    rw [h.nodeInj k₀ k₀' n hk₀ hk₀']
  linkTarget := hr.linkTarget
  nodeCoord k n node hk hnode := by
    obtain ⟨k₀, hk₀, rfl⟩ := hr.nodeOf k n hk
    rw [Graph.node, hr.nodes_eq] at hnode
    rw [hr.groupOf_eq, h.nodeCoord k₀ n node hk₀ hnode]
  fits k c hc := by
    obtain ⟨k₀, hc₀, rfl⟩ := hr.holds k c hc
    have hfits := h.fits k₀ c hc₀
    refine ⟨by rw [hr.groupOf_eq, hfits.member], fun hshadow => ?_, fun hshadow => ?_,
      fun hshadow => hr.placed ((hfits.placed hshadow).resolve_left id)⟩
    · rw [Current, hr.generations_eq]
      exact hfits.current hshadow
    · obtain ⟨d, hd, hdk⟩ := hfits.declaredKey hshadow
      exact ⟨d, by rwa [hr.frame], by rw [hr.groupOf_eq, hdk]⟩
  generationCount := by rw [hr.generations_eq, hr.nodes_eq, h.generationCount]
  rootGeneration := by rw [hr.generations_eq, h.rootGeneration]
  generationLt := by
    rw [hr.generations_eq, hr.nextGeneration_eq]
    exact h.generationLt
  queuedLt := by
    rw [hr.queue_eq, hr.nextGeneration_eq]
    exact h.queuedLt
  queuedPlaced item hitem hshadow hcurrent := by
    rw [hr.queue_eq] at hitem
    rw [Current, hr.generations_eq] at hcurrent
    exact hr.placed ((h.queuedPlaced item hitem hshadow hcurrent).resolve_left id)
  walkLoads := by
    rw [hr.frame]
    exact h.walkLoads

end Regroups

/-! ## Merging two groups -/

def rename (merged into k : CoordKey) : CoordKey :=
  if k = merged then into else k

theorem link_eq (w : Walk) (merged into : CoordKey) :
    w.link merged into = { w with
        groups := w.groups.insert merged into
        shadows := (w.link merged into).shadows } := by
  unfold link
  simp only
  split <;> rfl

section Link

variable {w : Walk} {merged into : CoordKey}

@[simp] theorem selected_link : (w.link merged into).selected = w.selected := by rw [link_eq]

@[simp] theorem graph_link : (w.link merged into).graph = w.graph := by rw [link_eq]

@[simp] theorem nodeOf_link (k : CoordKey) : (w.link merged into).nodeOf k = w.nodeOf k := by
  simp [nodeOf]

@[simp] theorem lookup_eraseSelected (key k : CoordKey) :
    (w.eraseSelected key).selected.lookup k = if k = key then none else w.selected.lookup k :=
  Table.lookup_erase_eq _ _ _

variable (hmerged : w.groupOf merged = merged) (hinto : w.groupOf into = into)
  (hne : into ≠ merged)
include hmerged hinto hne

theorem groupOf_link (hforest : ParentMap.Forest w.groups) (k : CoordKey) :
    (w.link merged into).groupOf k = rename merged into (w.groupOf k) := by
  rw [groupOf, link_eq]
  exact ParentMap.root_link ((ParentMap.root_eq_self_iff hforest).mp hmerged)
    ((ParentMap.root_eq_self_iff hforest).mp hinto) hne hforest k

theorem ShadowsOk.link (h : w.ShadowsOk) : (w.link merged into).ShadowsOk := by
  have hgroup := groupOf_link hmerged hinto hne h.forest
  refine ⟨?_, fun k targets hk => ?_⟩
  · rw [link_eq]
    exact h.forest.link ((ParentMap.root_eq_self_iff h.forest).mp hmerged)
      ((ParentMap.root_eq_self_iff h.forest).mp hinto) hne
  -- The merged group's shadows moved to the representative.
  have hkey : k = into ∨ k ≠ merged ∧ w.groupOf k = k := by
    unfold Walk.link at hk
    simp only at hk
    split at hk
    · rename_i hnone
      refine .inr ⟨?_, h.root k targets hk⟩
      rintro rfl
      rw [hnone] at hk
      cases hk
    · rw [Table.extend, Table.lookup_insert_eq] at hk
      split at hk
      · exact .inl ‹_›
      rw [Table.lookup_erase_eq] at hk
      split at hk
      · cases hk
      · exact .inr ⟨‹_›, h.root k targets hk⟩
  rw [hgroup]
  rcases hkey with rfl | ⟨hkm, hkk⟩
  · rw [hinto, rename, if_neg hne]
  · rw [hkk, rename, if_neg hkm]

theorem link_regroups (h : w.Sound) (hnone : w.selected.lookup merged = none) :
    Regroups (rename merged into) (fun _ => False) w (w.link merged into) := by
  have hgroup := groupOf_link hmerged hinto hne h.shadowsOk.forest
  have hself {k : CoordKey} {n : ℕ} (hk : w.nodeOf k = some n) : rename merged into k = k := by
    rw [rename, if_neg]
    rintro rfl
    simp [nodeOf, hnone] at hk
  exact
    { groupOf_eq := hgroup
      groupOf_root := fun k n hk => by rw [hself hk, hgroup, h.selectedRoot k n hk, hself hk]
      holds := fun k c hc => by
        have hc' : w.Holds k c := by simpa [Holds] using hc
        obtain ⟨n, hn⟩ := hc'.nodeOf
        exact ⟨k, hc', (hself hn).symm⟩
      nodeOf := fun k n hk => by
        rw [nodeOf_link] at hk
        exact ⟨k, hk, (hself hk).symm⟩
      nodeOf_some := fun k n hk => .inr (by rw [hself hk, nodeOf_link, hk])
      linkTarget := fun link hlink => by
        rw [link_eq] at hlink
        obtain ⟨k, hk⟩ := h.linkTarget link hlink
        exact ⟨k, by rw [nodeOf_link, hk]⟩
      nodes_eq := by rw [link_eq]
      frame := by rw [link_eq]
      won := fun c => by simp [Won]
      shadowsOk := h.shadowsOk.link hmerged hinto hne }

/-- The selection `moved` of the merged group becomes part of the selection
`s'` of `into`, under the node of `into` if it has one. -/
theorem absorb_regroups {gone : ℕ → Prop} {moved : Selected} (s' : Selected) (graph : Graph)
    (h : w.Sound) (hmoved : w.selected.lookup merged = some moved)
    (hcandidates : ∀ c ∈ s'.candidates, c ∈ moved.candidates ∨ w.Holds into c)
    (hwinner : ∀ c, s'.winner = some c → w.Won c)
    (hnode : w.nodeOf into = none ∧ s'.node = moved.node ∨
      w.nodeOf into = some s'.node ∧ gone moved.node)
    (hnodes : graph.nodes = w.graph.nodes)
    (hlinks : ∀ link ∈ graph.links, link.target = s'.node ∨
      ∃ k, k ≠ merged ∧ w.nodeOf k = some link.target) :
    Regroups (rename merged into) gone w
      ((((w.link merged into).eraseSelected merged).setSelected into s').setGraph graph) := by
  have hgroup := groupOf_link hmerged hinto hne h.shadowsOk.forest
  have hnodeMerged : w.nodeOf merged = some moved.node := nodeOf_of_lookup hmoved
  generalize hw' :
    (((w.link merged into).eraseSelected merged).setSelected into s').setGraph graph = w'
  have hlookup (k : CoordKey) : w'.selected.lookup k =
      if k = into then some s' else if k = merged then none else w.selected.lookup k := by
    subst hw'
    simp [setGraph]
  have hnodeOf (k : CoordKey) : w'.nodeOf k =
      if k = into then some s'.node else if k = merged then none else w.nodeOf k := by
    simp only [nodeOf, hlookup]
    split
    · rfl
    · split <;> rfl
  have hgroup' (k : CoordKey) : w'.groupOf k = rename merged into (w.groupOf k) := by
    subst hw'
    exact hgroup k
  have hroot (k : CoordKey) (hk : w.groupOf k = k) :
      w'.groupOf (rename merged into k) = rename merged into k := by
    rw [hgroup']
    unfold rename
    split
    · rw [hinto, if_neg hne]
    · rw [hk, if_neg ‹_›]
  exact
    { groupOf_eq := hgroup'
      groupOf_root := fun k n hk => hroot k (h.selectedRoot k n hk)
      holds := fun k c hc => by
        obtain ⟨t, ht, hmem⟩ := hc
        rw [hlookup] at ht
        split at ht
        · rename_i hk
          subst hk
          cases ht
          rcases hcandidates c hmem with hc | hc
          · exact ⟨merged, ⟨moved, hmoved, hc⟩, by simp [rename]⟩
          · exact ⟨k, hc, by simp [rename, hne]⟩
        · split at ht
          · cases ht
          · exact ⟨k, ⟨t, ht, hmem⟩, by simp [rename, *]⟩
      nodeOf := fun k n hk => by
        rw [hnodeOf] at hk
        split at hk
        · rename_i heq
          subst heq
          cases hk
          rcases hnode with ⟨-, hnode⟩ | ⟨hnode, -⟩
          · exact ⟨merged, by rw [hnodeMerged, hnode], by simp [rename]⟩
          · exact ⟨k, hnode, by simp [rename, hne]⟩
        · split at hk
          · cases hk
          · exact ⟨k, hk, by simp [rename, *]⟩
      nodeOf_some := fun k n hk => by
        by_cases hkm : k = merged
        · subst hkm
          obtain rfl : moved.node = n := Option.some.inj (hnodeMerged.symm.trans hk)
          rcases hnode with ⟨-, hnode⟩ | ⟨-, hgone⟩
          · exact .inr (by simp [rename, hnodeOf, hnode])
          · exact .inl hgone
        · refine .inr ?_
          rw [rename, if_neg hkm, hnodeOf]
          split
          · rename_i hki
            subst hki
            rcases hnode with ⟨hnone, -⟩ | ⟨hnode, -⟩
            · rw [hnone] at hk
              cases hk
            · rw [← hnode, hk]
          · exact hk
      linkTarget := fun link hlink => by
        have hlink' : link ∈ graph.links := by
          subst hw'
          exact hlink
        rcases hlinks link hlink' with htarget | ⟨k, hkm, hk⟩
        · exact ⟨into, by rw [hnodeOf, if_pos rfl, htarget]⟩
        by_cases hki : k = into
        · subst hki
          rcases hnode with ⟨hnone, -⟩ | ⟨hnode, -⟩
          · rw [hnone] at hk
            cases hk
          · exact ⟨k, by rw [hnodeOf, if_pos rfl, ← hnode, hk]⟩
        · exact ⟨k, by rw [hnodeOf, if_neg hki, if_neg hkm, hk]⟩
      nodes_eq := by
        subst hw'
        exact hnodes
      frame := by
        subst hw'
        rw [link_eq]
        rfl
      won := by
        rintro c ⟨k, t, ht, hc⟩
        rw [hlookup] at ht
        split at ht
        · cases ht
          exact hwinner c hc
        · split at ht
          · cases ht
          · exact ⟨k, t, ht, hc⟩
      shadowsOk := by
        subst hw'
        have hok := h.shadowsOk.link hmerged hinto hne
        exact ⟨hok.forest, hok.root⟩ }

end Link

/-- How a union goes: the groups are regrouped, a node without a group is
retired, and the merged group is trimmed. -/
inductive UnionSteps (source target : CoordKey) (w w' : Walk) : Prop where
  | same (hgroup : w.groupOf source = w.groupOf target) (heq : w' = w)
  | moved (w₁ : Walk)
      (hregroups : Regroups (rename (w.groupOf target) (w.groupOf source)) (fun _ => False) w w₁)
      (htrims : ∀ T, Trims T w₁ w')
  | merged (w₁ : Walk) (dead : ℕ) (hdead : w.nodeOf (w.groupOf target) = some dead)
      (hregroups : Regroups (rename (w.groupOf target) (w.groupOf source)) (· = dead) w w₁)
      (htrims : ∀ T, Trims T (w₁.retire dead none) w')

theorem dropBeneath_trims (T : CoordKey → Prop) (w : Walk) (into : CoordKey) :
    Trims T w ((w.dropBeneath into).markDirty into) := by
  have hdrop : Trims (· = into) w (w.dropBeneath into) := by
    unfold dropBeneath
    split
    · exact .refl _ w
    · rename_i s hs
      exact .setSelected w.nextArc hs (.filter s _) (.inr rfl)
  refine (hdrop.trans (.markDirty _ _ into)).weaken fun k hk => .inr ?_
  simp [hk]

theorem union_steps {w : Walk} (h : w.Sound) (source target : CoordKey) :
    UnionSteps source target w (w.union source target) := by
  have hidem := h.groupOf_groupOf
  unfold union
  simp only
  split
  · rename_i hsame
    exact .same hsame rfl
  rename_i hne
  cases hmoved : (w.link (w.groupOf target) (w.groupOf source)).selected.lookup
      (w.groupOf target) with
  | none =>
    rw [selected_link] at hmoved
    exact .moved _ (link_regroups (hidem target) (hidem source) hne h hmoved) fun T => .refl T _
  | some moved =>
    rw [selected_link] at hmoved
    simp only [absorb]
    cases hinto : ((w.link (w.groupOf target) (w.groupOf source)).eraseSelected
        (w.groupOf target)).selected.lookup (w.groupOf source) with
    | none =>
      have hnone : w.nodeOf (w.groupOf source) = none := by
        simpa [nodeOf, hne] using hinto
      refine .moved _ (absorb_regroups (hidem target) (hidem source) hne moved (w.link _ _).graph h
        hmoved (fun c hc => .inl hc) (fun c hc => ⟨_, moved, hmoved, hc⟩) (.inl ⟨hnone, rfl⟩)
        (by simp) fun link hlink => ?_) fun T => dropBeneath_trims T _ _
      rw [graph_link] at hlink
      obtain ⟨k, hk⟩ := h.linkTarget link hlink
      by_cases hkm : k = w.groupOf target
      · subst hkm
        rw [nodeOf_of_lookup hmoved] at hk
        exact .inl (Option.some.inj hk).symm
      · exact .inr ⟨k, hkm, hk⟩
    | some s =>
      have hs : w.selected.lookup (w.groupOf source) = some s := by
        simpa [hne] using hinto
      have hdead := nodeOf_of_lookup hmoved
      have hnode : w.nodeOf (w.groupOf source) = some (s.absorb moved).node := by
        rw [nodeOf_of_lookup hs]
        rfl
      refine .merged _ moved.node hdead (absorb_regroups (hidem target) (hidem source) hne
        (s.absorb moved) ((w.link _ _).graph.retargetIncoming moved.node s.node) h hmoved ?_
        (fun c hc => ⟨_, s, hs, hc⟩) (.inr ⟨hnode, rfl⟩) (by simp) fun link hlink => ?_)
        fun T => dropBeneath_trims T _ _
      · intro c hc
        rcases mem_append.mp hc with hc | hc
        · exact .inr ⟨s, hs, hc⟩
        · exact .inl hc
      · rw [graph_link] at hlink
        rcases Graph.mem_retargetIncoming.mp hlink with ⟨hlink, hlive⟩ | ⟨l, -, -, rfl⟩
        · obtain ⟨k, hk⟩ := h.linkTarget link hlink
          refine .inr ⟨k, ?_, hk⟩
          rintro rfl
          rw [hdead] at hk
          exact hlive (Option.some.inj hk).symm
        · exact .inl rfl

/-- A union keeps the walk sound. -/
theorem Inv.union {w : Walk} (h : w.Sound) (source target : CoordKey) :
    (w.union source target).Sound := by
  cases union_steps h source target with
  | same _ heq =>
    rw [heq]
    exact h
  | moved w₁ hregroups htrims => exact (h.regroups hregroups).trims (htrims fun _ => True)
  | merged w₁ dead hdead hregroups htrims =>
    obtain ⟨hroot, hlt⟩ := h.nodeLt _ _ hdead
    refine Inv.trims ?_ (htrims fun _ => True)
    exact (h.regroups hregroups).retire hroot (by rwa [hregroups.nodes_eq]) none

/-- A union moves the class of the target to the representative of the source,
and no other key. -/
theorem groupOf_union {w : Walk} (h : w.Sound) (source target k : CoordKey) :
    (w.union source target).groupOf k =
      rename (w.groupOf target) (w.groupOf source) (w.groupOf k) := by
  cases union_steps h source target with
  | same hgroup heq =>
    rw [heq, hgroup, rename]
    split
    · assumption
    · rfl
  | moved w₁ hregroups htrims =>
    rw [(htrims fun _ => True).groupOf_eq, hregroups.groupOf_eq]
  | merged w₁ dead hdead hregroups htrims =>
    rw [(htrims fun _ => True).groupOf_eq, (retire_trims (fun _ => True) w₁ dead none).groupOf_eq]
    exact hregroups.groupOf_eq k

theorem placed_union {w : Walk} (h : w.Sound) {source target : CoordKey} {item : QueueItem}
    (hcurrent : w.Current item) (hplaced : w.Placed item)
    (hpath : ∀ k ∈ item.path.keys, w.groupOf k ≠ w.groupOf target) :
    (w.union source target).Current item ∧ (w.union source target).Placed item := by
  cases union_steps h source target with
  | same _ heq =>
    rw [heq]
    exact ⟨hcurrent, hplaced⟩
  | moved w₁ hregroups htrims =>
    have ht := htrims fun _ => True
    refine ⟨?_, ?_⟩
    · rwa [Current, ht.generations_eq, hregroups.generations_eq]
    · exact ((hregroups.placed hplaced).resolve_left id).congr ht.groupOf_eq ht.nodeOf_eq
  | merged w₁ dead hdead hregroups htrims =>
    have ht := (retire_trims (fun _ => True) w₁ dead none).trans (htrims fun _ => True)
    have hne : item.parent ≠ dead := by
      rintro rfl
      rcases hplaced with hroot | ⟨k, hk, hnode⟩
      · exact (h.nodeLt _ _ hdead).1.ne' hroot
      · exact hpath k hk (h.nodeInj _ _ _ hnode hdead)
    refine ⟨?_, ?_⟩
    · rw [Current, ht.generations_eq]
      change (w₁.generations.set dead w₁.nextGeneration)[item.parent]? = _
      rw [getElem?_set_ne hne.symm, hregroups.generations_eq]
      exact hcurrent
    · exact ((hregroups.placed hplaced).resolve_left hne).congr ht.groupOf_eq ht.nodeOf_eq

/-- A group leaves, and its node is retired. -/
theorem Inv.dropGroup {w : Walk} (h : w.Sound) (key : CoordKey) : (w.dropGroup key).Sound := by
  unfold Walk.dropGroup
  cases hs : w.selected.lookup key with
  | none => exact h
  | some s =>
    simp only
    refine Inv.trims (T := fun _ => True) ?_ (revalidateShadows_trims _ _ key)
    have hnode : w.nodeOf key = some s.node := nodeOf_of_lookup hs
    obtain ⟨hroot, hlt⟩ := h.nodeLt key s.node hnode
    refine Inv.retire ?_ hroot (by simpa [setGraph] using hlt) none
    generalize hw' : (w.eraseSelected key).setGraph (w.graph.clearIncoming s.node) = w'
    have hlookup (k : CoordKey) :
        w'.selected.lookup k = if k = key then none else w.selected.lookup k := by
      subst hw'
      simp [setGraph]
    have hnodeOf {k : CoordKey} {n : ℕ} (hk : w'.nodeOf k = some n) : w.nodeOf k = some n := by
      rw [nodeOf, hlookup] at hk
      split at hk
      · cases hk
      · exact hk
    have hnodeOf' {k : CoordKey} {n : ℕ} (hk : w.nodeOf k = some n) (hn : n ≠ s.node) :
        w'.nodeOf k = some n := by
      rw [nodeOf, hlookup, if_neg]
      · exact hk
      · rintro rfl
        exact hn (Option.some.inj (hk.symm.trans hnode))
    have hholds {k : CoordKey} {c : Candidate} (hc : w'.Holds k c) : w.Holds k c := by
      obtain ⟨t, ht, hmem⟩ := hc
      rw [hlookup] at ht
      split at ht
      · cases ht
      · exact ⟨t, ht, hmem⟩
    subst hw'
    refine h.regroups (g := id) ?_
    exact
      { groupOf_eq := fun _ => rfl
        groupOf_root := h.selectedRoot
        holds := fun k c hc => ⟨k, hholds hc, rfl⟩
        nodeOf := fun k n hk => ⟨k, hnodeOf hk, rfl⟩
        nodeOf_some := fun k n hk => or_iff_not_imp_left.mpr (hnodeOf' hk)
        linkTarget := fun link hlink => by
          obtain ⟨hlink, htarget⟩ := Graph.mem_clearIncoming.mp hlink
          obtain ⟨k, hk⟩ := h.linkTarget link hlink
          exact ⟨k, hnodeOf' hk htarget⟩
        nodes_eq := rfl
        frame := rfl
        won := fun c ⟨k, t, ht, hc⟩ => by
          rw [hlookup] at ht
          split at ht
          · cases ht
          · exact ⟨k, t, ht, hc⟩
        shadowsOk := ⟨h.shadowsOk.forest, h.shadowsOk.root⟩ }

theorem lookup_dropGroup (w : Walk) (key : CoordKey) :
    (w.dropGroup key).selected.lookup key = none ∧ (w.dropGroup key).groups = w.groups := by
  unfold dropGroup
  cases hs : w.selected.lookup key with
  | none => exact ⟨hs, rfl⟩
  | some s =>
    simp only
    have hretire := retire_trims (fun _ => True)
      ((w.eraseSelected key).setGraph (w.graph.clearIncoming s.node)) s.node none
    have htrims := hretire.trans (revalidateShadows_trims (fun _ => True) _ key)
    refine ⟨htrims.lookup_none key ?_, htrims.groups_eq⟩
    change (w.eraseSelected key).selected.lookup key = none
    simp

end Walk

end Raeva
