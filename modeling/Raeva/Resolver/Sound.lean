import Raeva.Resolver.Join
import Raeva.Resolver.Loaded
import Raeva.Resolver.Structure

/-!
# The operations of a walk keep its structure

Loading, joining, leaving and winning keep the invariant of `Structure`, from
the walk with the root's declarations on.
-/

namespace Raeva

open List

namespace Walk

/-! ## Notes, pops and queueing -/

variable {New : QueueItem → Prop} {w w' : Walk} {backend : Backend} {item : QueueItem}
  {key : CoordKey} {s : Selected} {r : Resolution} {k : CoordKey} {c : Candidate}

theorem Queues.nodeOf_eq (h : Queues New w w') (k : CoordKey) : w'.nodeOf k = w.nodeOf k :=
  nodeOf_congr (h.lookup_none k) fun s hs =>
    (h.lookup_some k s hs).imp fun _ ⟨hs', hcore⟩ => ⟨hs', hcore.node_eq⟩

theorem Queues.holds_iff (h : Queues New w w') : w'.Holds k c ↔ w.Holds k c := by
  constructor
  · rintro ⟨s', hs', hmem⟩
    obtain ⟨s, hs, hcore⟩ := h.lookup_of_lookup hs'
    exact ⟨s, hs, hcore.candidates_eq ▸ hmem⟩
  · rintro ⟨s, hs, hmem⟩
    obtain ⟨s', hs', hcore⟩ := h.lookup_some k s hs
    exact ⟨s', hs', hcore.candidates_eq ▸ hmem⟩

theorem Queues.groupOf_eq (h : Queues New w w') (k : CoordKey) : w'.groupOf k = w.groupOf k := by
  rw [h.frame]
  rfl

theorem Queues.carries (h : Queues New w w')
    (hnew : ∀ item, New item → item.shadow = none →
      item.parentGeneration < w.nextGeneration ∧ w.Placed item) : Carries w w' where
  shadowsOk hok := by
    rw [h.frame]
    exact ⟨hok.forest, hok.root⟩
  groups_eq := by rw [h.frame]
  nodeOf_eq := h.nodeOf_eq
  nodes_eq := by rw [h.frame]
  links link hlink := .inl (by rwa [h.frame] at hlink)
  generations_eq := by rw [h.frame]
  nextGeneration_eq := by rw [h.frame]
  declared parent d hd := by rwa [h.frame]
  holds k c hc := .inl ⟨c, h.holds_iff.mp hc, rfl, fun _ => rfl⟩
  queue item hitem := by
    refine (h.queue item hitem).imp_right fun hn hshadow => ?_
    obtain ⟨hlt, hplaced⟩ := hnew item hn hshadow
    refine ⟨?_, hplaced.congr h.groupOf_eq h.nodeOf_eq⟩
    rw [h.frame]
    exact hlt
  walkLoads probes hprobes := .inl (by rwa [h.frame] at hprobes)

theorem shadow_ne_none_of_isShadowItem (h : IsShadowItem backend w item) : item.shadow ≠ none := by
  obtain ⟨k, s, -, c, -, reader, -, origin, resolved, declaredAt, dependency, index, -, -, rfl⟩ := h
  simp [childItem]

theorem Queues.carries_shadows {v : Walk} (h : Queues (IsShadowItem backend v) w w') :
    Carries w w' :=
  h.carries fun _ hitem hshadow => absurd hshadow (shadow_ne_none_of_isShadowItem hitem)

theorem Inv.scanLosers {start : ℕ} (h : w.Sound) (hscan : w.scanLosers backend key start = .ok w') :
    w'.Sound :=
  h.carries (scanLosers_queues hscan).carries_shadows

theorem Inv.walkExcludedDependencies {queued : Bool} (h : w.Sound)
    (hwalk : w.walkExcludedDependencies backend = .ok (w', queued)) : w'.Sound :=
  h.carries (walkExcludedDependencies_queues hwalk).carries_shadows

theorem Carries.frame
    (hframe : w' = { w with
        dirty := w'.dirty
        dirtySet := w'.dirtySet
        queue := w'.queue
        nextDeclaredAt := w'.nextDeclaredAt
        walkLoads := w'.walkLoads
        confirm := w'.confirm
        unscanned := w'.unscanned
        nextArc := w'.nextArc
        relocations := w'.relocations }) (hqueue : ∀ item ∈ w'.queue, item ∈ w.queue)
    (hwalkLoads : ∀ probes ∈ w'.walkLoads, probes ∈ w.walkLoads ∨
      ∀ c ∈ probes, c.item.shadow ≠ none) : Carries w w' := by
  have hselected : w'.selected = w.selected := by rw [hframe]
  exact
    { shadowsOk := fun hok => by
        rw [hframe]
        exact ⟨hok.forest, hok.root⟩
      groups_eq := by rw [hframe]
      nodeOf_eq := fun k => by rw [nodeOf, nodeOf, hselected]
      nodes_eq := by rw [hframe]
      links := fun link hlink => .inl (by rwa [hframe] at hlink)
      generations_eq := by rw [hframe]
      nextGeneration_eq := by rw [hframe]
      declared := fun parent d hd => by rwa [hframe]
      holds := fun k c hc => .inl ⟨c, by rwa [Holds, hselected] at hc, rfl, fun _ => rfl⟩
      queue := fun item hitem => .inl (hqueue item hitem)
      walkLoads := hwalkLoads }

theorem Carries.refl (w : Walk) : Carries w w :=
  .frame rfl (fun _ hitem => hitem) fun _ hprobes => .inl hprobes

/-- The candidates of one group are as they were, have the place and the key of
one that was, or are shadows. -/
theorem Carries.setSelected (hs : w.selected.lookup key = some s) (s' : Selected)
    (hnode : s'.node = s.node)
    (hcandidates : ∀ c ∈ s'.candidates, (∃ c₀ ∈ s.candidates, c.key = c₀.key ∧ c.item = c₀.item) ∨
        c.item.shadow ≠ none ∧ w.groupOf c.key = key) (nextArc : ℕ) :
    Carries w ((w.setSelected key s').setNextArc nextArc) where
  __ := Carries.refl w
  shadowsOk hok := ⟨hok.forest, hok.root⟩
  nodeOf_eq := nodeOf_setSelected_of_node hs hnode
  holds k c hc := by
    have hc' : (w.setSelected key s').Holds k c := hc
    rw [holds_setSelected] at hc'
    split at hc'
    · rename_i hkey
      rcases hcandidates c hc' with ⟨c₀, hc₀, hckey, hitem⟩ | ⟨hshadow, hgroup⟩
      · exact .inl ⟨c₀, hkey ▸ ⟨s, hs, hc₀⟩, hckey, fun _ => hitem⟩
      · exact .inr ⟨hkey ▸ hgroup, fun h => absurd h hshadow, fun h => absurd h hshadow,
          fun h => absurd h hshadow⟩
    · exact .inl ⟨c, hc', rfl, fun _ => rfl⟩
  queue _ hitem := .inl hitem

theorem Inv.note {w : Walk} {key : CoordKey} {s s' : Selected} (h : w.Sound)
    (hs : w.selected.lookup key = some s) (hnode : s'.node = s.node)
    (hcandidates : s'.candidates = s.candidates) : (w.setSelected key s').Sound :=
  h.carries (.setSelected hs s' hnode (fun c hc => .inl ⟨c, hcandidates ▸ hc, rfl, rfl⟩) w.nextArc)

theorem Prepared.carries (h : w.Prepared w') : Carries w w' := by
  obtain ⟨nextArc, unscanned, rfl⟩ := h
  exact .frame rfl (fun _ hitem => hitem) fun _ hprobes => .inl hprobes

theorem Prepared.selected_eq (h : w.Prepared w') : w'.selected = w.selected := by
  obtain ⟨nextArc, unscanned, rfl⟩ := h
  rfl

theorem Inv.loaded {w : Walk} {key : CoordKey} {s : Selected} {l : List Candidate} (h : w.Sound)
    (hs : w.selected.lookup key = some s)
    (hl : ∀ c ∈ l, ∃ c₀ ∈ s.candidates, c.key = c₀.key ∧ c.item = c₀.item) (nextArc : ℕ) :
    ((w.setSelected key (s.withCandidates l)).setNextArc nextArc).Sound := by
  exact h.carries (.setSelected hs (s.withCandidates l) rfl (fun c hc => .inl (hl c hc)) nextArc)

theorem Carries.setGraph {graph : Graph} (hnodes : graph.nodes = w.graph.nodes)
    (hlinks : ∀ link ∈ graph.links, link ∈ w.graph.links ∨ ∃ k, w.nodeOf k = some link.target) :
    Carries w (w.setGraph graph) where
  __ := Carries.refl w
  shadowsOk hok := ⟨hok.forest, hok.root⟩
  nodes_eq := hnodes
  links := hlinks
  holds _ c hc := .inl ⟨c, hc, rfl, fun _ => rfl⟩

theorem giveWay_carries (best : Candidate) (stops : Bool) (hs : w.selected.lookup key = some s) :
    Carries w (w.giveWay key s best stops) := by
  unfold giveWay
  simp only
  generalize hp : (fun c : Candidate => c != best &&
    (!stops || c.item.declaredAt != best.item.declaredAt || sourceLt c.source best.source)) = p
  have hset : Carries w (w.setSelected key (s.withCandidates (s.candidates.filter p))) :=
    .of_trims (.setSelected (T := fun _ => True) w.nextArc hs (.filter s p)
      (.inr trivial))
  refine Carries.trans ?_ (.of_trims ((revalidateShadows_trims (fun _ => True) _ key).trans
    (.markDirty _ _ key)))
  split
  · exact hset.trans (.setGraph rfl fun link hlink =>
      .inl (Graph.mem_of_mem_removeEdge hlink))
  · exact hset

/-! ## Joining a group -/

/-- A declaration that may join: it is current and has its place, unless it
will be cut. -/
def Joins (w : Walk) (r : Resolution) : Prop :=
  r.candidate.item.shadow = none → w.Below r.candidate.item.path r.candidate.key ∨
      w.Current r.candidate.item ∧ w.Placed r.candidate.item

theorem Below.union {w : Walk} (h : w.Sound) {path : PathNode} {target : CoordKey}
    (hbelow : w.Below path target) (source target' : CoordKey) :
    (w.union source target').Below path target := by
  obtain ⟨k, hk, heq⟩ := hbelow
  exact ⟨k, hk, by rw [groupOf_union h, groupOf_union h, heq]⟩

theorem Joins.union {w : Walk} {r : Resolution} (h : w.Sound) (hjoins : w.Joins r)
    (source : CoordKey) : (w.union source r.candidate.key).Joins r := by
  intro hshadow
  by_cases hbelow : w.Below r.candidate.item.path r.candidate.key
  · exact .inl (hbelow.union h source _)
  · obtain ⟨hcurrent, hplaced⟩ := (hjoins hshadow).resolve_left hbelow
    exact .inr (placed_union h hcurrent hplaced fun k hk heq => hbelow ⟨k, hk, heq⟩)

/-- A read declaration may join if the declaration it was read from is current
and has its place. -/
theorem joins_of_managedFrom {solver : Solver} (hr : r.candidate.item.ManagedFrom solver item)
    (hitem : item.shadow = none → w.Current item ∧ w.Placed item) : w.Joins r := by
  obtain ⟨dependency, managedScope, -, heq⟩ := hr
  intro hshadow
  rw [heq] at hshadow ⊢
  exact .inr (hitem hshadow)

theorem Inv.joins_giveWay {solver : Solver} {best : Candidate} {stops : Bool} (h : w.Sound)
    (hs : w.selected.lookup key = some s) (hbest : best ∈ s.candidates)
    (hr : r.candidate.item.ManagedFrom solver best.item) :
    (w.giveWay key s best stops).Joins r := by
  have hcarries := giveWay_carries best stops hs
  refine joins_of_managedFrom hr fun hshadow => ?_
  have hholds : w.Holds key best := ⟨s, hs, hbest⟩
  exact ⟨hcarries.current_iff.mpr ((h.fits key best hholds).current hshadow),
    hcarries.placed (((h.fits key best hholds).placed hshadow).resolve_left id)⟩

theorem Carries.declare (hs : w.selected.lookup key = some s) (s' : Selected)
    (hnode : s'.node = s.node)
    (hcandidates : ∀ c ∈ s'.candidates, c ∈ s.candidates ∨ c.item = item ∧ w.groupOf c.key = key)
    (hroot : w.groupOf key = key) (hcurrent : w.Current item) (hplaced : w.Placed item) :
    Carries w ((w.setSelected key s').declareEdge item key s.node) := by
  have hnodeOf (k : CoordKey) :
      ((w.setSelected key s').declareEdge item key s.node).nodeOf k = w.nodeOf k :=
    nodeOf_setSelected_of_node hs hnode k
  have hdeclared (parent : ℕ) :
      (((w.setSelected key s').declareEdge item key s.node).declared.lookup
      parent) = (Table.extend w.declared item.parent [key]).lookup parent := rfl
  exact
    { Carries.refl w with
      shadowsOk := fun hok => ⟨hok.forest, hok.root⟩
      nodeOf_eq := hnodeOf
      links := fun link hlink => by
        rcases Graph.mem_addEdge.mp hlink with hnew | hold
        · exact .inr ⟨key, by rw [hnew, nodeOf_of_lookup hs]⟩
        · exact .inl hold
      declared := fun parent d hd => by
        rw [hdeclared, Table.mem_extend]
        exact .inl hd
      holds := fun k c hc => by
        have hc' : (w.setSelected key s').Holds k c := hc
        rw [holds_setSelected] at hc'
        split at hc'
        · rename_i hkey
          subst hkey
          rcases hcandidates c hc' with hold | ⟨rfl, hgroup⟩
          · exact .inl ⟨c, ⟨s, hs, hold⟩, rfl, fun _ => rfl⟩
          refine .inr ⟨hgroup, fun _ => hcurrent, fun _ => ⟨k, ?_, hroot⟩,
            fun _ => .inr (hplaced.congr (fun _ => rfl) hnodeOf)⟩
          rw [hdeclared, Table.mem_extend]
          exact .inr ⟨rfl, mem_singleton_self k⟩
        · exact .inl ⟨c, hc', rfl, fun _ => rfl⟩
      queue := fun _ hitem => .inl hitem }

theorem addGroup_eq (w : Walk) (item : QueueItem) (key : CoordKey) (candidates : List Candidate)
    (highest : Candidate) :
    w.addGroup item key candidates highest =
      { w.setSelected key (.new w.graph.nodes.length candidates) with
        graph := (w.graph.insertNode highest.openNode).addEdge item.parent w.graph.nodes.length
          (edgeOf item)
        generations := w.generations ++ [w.nextGeneration]
        nextGeneration := w.nextGeneration + 1
        declared := Table.extend w.declared item.parent [key]
        dirty := (w.addGroup item key candidates highest).dirty
        dirtySet := insert key w.dirtySet } := by
  unfold addGroup
  rw [markDirty_eq]
  rfl

/-- A new group, with its node and the edge of its declaration, keeps the walk sound. -/
theorem Inv.addGroup {candidates : List Candidate} {highest : Candidate} (h : w.Sound)
    (hnone : w.selected.lookup key = none) (hroot : w.groupOf key = key)
    (hhighest : w.groupOf highest.key = key)
    (hcandidates : ∀ c ∈ candidates, c.item = item ∧ w.groupOf c.key = key)
    (hcurrent : w.Current item) (hplaced : w.Placed item) :
    (w.addGroup item key candidates highest).Sound := by
  have hframe := addGroup_eq w item key candidates highest
  generalize w.addGroup item key candidates highest = w' at hframe ⊢
  have hgroup (k : CoordKey) : w'.groupOf k = w.groupOf k := by
    rw [hframe]
    rfl
  have hnodeOf (k : CoordKey) :
      w'.nodeOf k = if k = key then some w.graph.nodes.length else w.nodeOf k := by
    rw [hframe]
    exact nodeOf_setSelected _ _ _ _
  have hholds {k : CoordKey} {c : Candidate} (hc : w'.Holds k c) :
      k = key ∧ c ∈ candidates ∨ k ≠ key ∧ w.Holds k c := by
    rw [hframe] at hc
    have hc' := holds_setSelected.mp hc
    split at hc'
    · exact .inl ⟨‹_›, hc'⟩
    · exact .inr ⟨‹_›, hc'⟩
  have hold {k : CoordKey} {n : ℕ} (hk : w.nodeOf k = some n) : w'.nodeOf k = some n := by
    rw [hnodeOf, if_neg, hk]
    rintro rfl
    simp [nodeOf, hnone] at hk
  have hnodes : w'.graph.nodes = w.graph.nodes ++ [highest.openNode] := by
    rw [hframe]
    rfl
  have hgenerations : w'.generations = w.generations ++ [w.nextGeneration] := by rw [hframe]
  have hnext : w'.nextGeneration = w.nextGeneration + 1 := by rw [hframe]
  have hqueue : w'.queue = w.queue := by rw [hframe]; rfl
  have hdeclared : w'.declared = Table.extend w.declared item.parent [key] := by rw [hframe]
  have hcurrent_of {i : QueueItem} (hi : w.Current i) : w'.Current i := by
    rw [Current, hgenerations, getElem?_append_left (List.getElem?_eq_some_iff.mp hi).1]
    exact hi
  have hplaced_of {i : QueueItem} (hi : w.Placed i) : w'.Placed i := by
    refine hi.imp_right ?_
    rintro ⟨k, hk, hparent⟩
    refine ⟨k, hk, ?_⟩
    rw [hgroup]
    exact hold hparent
  exact
    { shadowsOk := by
        rw [hframe]
        exact ⟨h.shadowsOk.forest, h.shadowsOk.root⟩
      selectedRoot := fun k n hk => by
        rw [hnodeOf] at hk
        rw [hgroup]
        split at hk
        · rename_i hkey
          rw [hkey, hroot]
        · exact h.selectedRoot k n hk
      nodeLt := fun k n hk => by
        rw [hnodeOf] at hk
        rw [hnodes, length_append, length_singleton]
        split at hk
        · cases hk
          have hpos := (List.getElem?_eq_some_iff.mp h.rootGeneration).1
          rw [h.generationCount] at hpos
          exact ⟨hpos, Nat.lt_succ_self _⟩
        · exact ⟨(h.nodeLt k n hk).1, Nat.lt_succ_of_lt (h.nodeLt k n hk).2⟩
      nodeInj := fun k k' n hk hk' => by
        rw [hnodeOf] at hk hk'
        split at hk <;> split at hk'
        · rw [‹k = key›, ‹k' = key›]
        · cases hk
          exact absurd (h.nodeLt k' _ hk').2 (Nat.lt_irrefl _)
        · cases hk'
          exact absurd (h.nodeLt k _ hk).2 (Nat.lt_irrefl _)
        · exact h.nodeInj k k' n hk hk'
      linkTarget := fun link hlink => by
        rw [hframe] at hlink
        rcases Graph.mem_addEdge.mp hlink with hnew | hlink
        · exact ⟨key, by rw [hnodeOf, if_pos rfl, hnew]⟩
        · obtain ⟨k, hk⟩ := h.linkTarget link hlink
          exact ⟨k, hold hk⟩
      nodeCoord := fun k n node hk hnode => by
        rw [hnodeOf] at hk
        rw [Graph.node, hnodes] at hnode
        rw [hgroup]
        split at hk
        · cases hk
          rw [getElem?_concat_length] at hnode
          cases hnode
          rw [‹k = key›]
          exact hhighest
        · rw [getElem?_append_left (h.nodeLt k n hk).2] at hnode
          exact h.nodeCoord k n node hk hnode
      fits := fun k c hc => by
        rcases hholds hc with ⟨rfl, hmem⟩ | ⟨-, hc⟩
        · obtain ⟨rfl, hkey⟩ := hcandidates c hmem
          refine ⟨by rw [hgroup, hkey], fun _ => hcurrent_of hcurrent, fun _ => ⟨k, ?_, ?_⟩,
            fun _ => .inr (hplaced_of hplaced)⟩
          · rw [hdeclared, Table.mem_extend]
            exact .inr ⟨rfl, mem_singleton_self k⟩
          · rw [hgroup, hroot]
        · have hfits := h.fits k c hc
          refine ⟨by rw [hgroup, hfits.member], fun hshadow => hcurrent_of (hfits.current hshadow),
            fun hshadow => ?_, fun hshadow => (hfits.placed hshadow).imp_right hplaced_of⟩
          obtain ⟨d, hd, hdk⟩ := hfits.declaredKey hshadow
          rw [hdeclared]
          exact ⟨d, Table.mem_extend.mpr (.inl hd), by rw [hgroup, hdk]⟩
      generationCount := by
        rw [hgenerations, hnodes, length_append, length_append, h.generationCount]
        rfl
      rootGeneration := by
        rw [hgenerations, getElem?_append_left (List.getElem?_eq_some_iff.mp h.rootGeneration).1,
          h.rootGeneration]
      generationLt := fun generation hmem => by
        rw [hgenerations, mem_append, mem_singleton] at hmem
        rw [hnext]
        rcases hmem with hmem | rfl
        · exact Nat.lt_succ_of_lt (h.generationLt generation hmem)
        · exact Nat.lt_succ_self _
      queuedLt := fun i hi hshadow => by
        rw [hqueue] at hi
        rw [hnext]
        exact Nat.lt_succ_of_lt (h.queuedLt i hi hshadow)
      queuedPlaced := fun i hi hshadow hcur => by
        rw [hqueue] at hi
        -- A queued declaration is older than the new node.
        have hlt := h.queuedLt i hi hshadow
        refine (h.queuedPlaced i hi hshadow ?_).imp_right hplaced_of
        rw [Current, hgenerations] at hcur
        rw [Current]
        by_cases hparent : i.parent < w.generations.length
        · rwa [getElem?_append_left hparent] at hcur
        rw [getElem?_append_right (Nat.le_of_not_lt hparent)] at hcur
        have hgen := mem_of_getElem? hcur
        rw [mem_singleton] at hgen
        exact absurd hlt (by rw [hgen]; exact Nat.lt_irrefl _)
      walkLoads := by
        rw [hframe]
        exact h.walkLoads }

theorem cutEdge_carries (w : Walk) (item : QueueItem) (target : CoordKey) :
    Carries w (w.cutEdge item target) := by
  unfold cutEdge
  split
  · split
    · rename_i existing hexisting
      refine .setGraph rfl fun link hlink => ?_
      rcases Graph.mem_addEdge.mp hlink with hnew | hold
      · exact .inr ⟨_, by rw [hnew, nodeOf_of_lookup hexisting]⟩
      · exact .inl hold
    · exact .refl w
  · exact .refl w

theorem BehindSteps.carries (h : BehindSteps backend key w w') : Carries w w' := by
  cases h with
  | dirty hdirty heq =>
    subst heq
    exact .refl w'
  | confirm lowest start heq =>
    subst heq
    exact .frame rfl (fun _ h => h) fun _ h => .inl h
  | again heq =>
    subst heq
    exact .of_trims (.markDirty (fun _ => True) w key)
  | scan start h => exact (scanLosers_queues h).carries_shadows

/-- Joining keeps the walk sound, in each of its cases. -/
theorem Inv.joinGroup [Lowercase] (h : w.Sound) (hjoins : w.Joins r)
    (heq : w.joinGroup backend r = .ok w') : w'.Sound := by
  have hroot := h.groupOf_groupOf r.candidate.key
  have hversions {arc : ℕ} {c : Candidate} (hc : c ∈ r.versions arc) :
      c.item = r.candidate.item ∧ w.groupOf c.key = w.groupOf r.candidate.key := by
    obtain ⟨hitem, hkey⟩ := mem_versions hc
    exact ⟨hitem, by rw [hkey]⟩
  have hready {w₁ : Walk} (hw₁ : w.Prepared w₁) (hshadow : r.candidate.item.shadow = none)
      (hbelow : ¬w.Below r.candidate.item.path r.candidate.key) :
      w₁.Current r.candidate.item ∧ w₁.Placed r.candidate.item := by
    obtain ⟨hcurrent, hplaced⟩ := (hjoins hshadow).resolve_left hbelow
    exact ⟨hw₁.carries.current_iff.mpr hcurrent, hw₁.carries.placed hplaced⟩
  cases joinGroup_steps heq with
  | cut hbelow heq =>
    subst heq
    exact h.carries (cutEdge_carries _ _ _)
  | dropped hshadow hprep => exact h.carries hprep.carries
  | walk w₁ highest origin hw₁ hbelow hshadow hhighest hqueues =>
    refine (h.carries hw₁.carries).carries (hqueues.carries fun item hitem hnone => ?_)
    obtain ⟨project, declaredAt, dependency, index, -, -, rfl⟩ := hitem
    simp [childItem] at hnone
  | walkLoad w₁ arc hw₁ hbelow hshadow heq =>
    subst heq
    refine (h.carries hw₁.carries).carries (.frame rfl (fun _ h => h) fun probes hprobes => ?_)
    rcases mem_cons.mp hprobes with rfl | hold
    · exact .inr fun c hc => by rwa [(hversions hc).1]
    · exact .inl hold
  | shadow w₁ arc s origin hw₁ hbelow hshadow hs heq =>
    subst heq
    rw [← hw₁.selected_eq] at hs
    have hset := Carries.setSelected hs
      (s.withCandidates (s.candidates ++ r.versions arc)) rfl (fun c hc => ?_) w₁.nextArc
    · exact ((h.carries hw₁.carries).carries hset).trims
        ((Trims.addShadowTarget (fun _ => True) _ origin _).trans (.markDirty _ _ _))
    rcases mem_append.mp hc with hold | hnew
    · exact .inl ⟨c, hold, rfl, rfl⟩
    · refine .inr ⟨by rwa [(hversions hnew).1], ?_⟩
      rw [hw₁.carries.groupOf_eq]
      exact (hversions hnew).2
  | group w₁ arc highest hw₁ hbelow hshadow hnone hhighest heq =>
    subst heq
    obtain ⟨hcurrent, hplaced⟩ := hready hw₁ hshadow hbelow
    obtain ⟨arc', hhighest⟩ := hhighest
    refine (h.carries hw₁.carries).addGroup (hw₁.selected_eq ▸ hnone) ?_ ?_ (fun c hc => ?_)
      hcurrent hplaced
    · rw [hw₁.carries.groupOf_eq, hroot]
    · rw [hw₁.carries.groupOf_eq]
      exact (hversions hhighest).2
    · rw [hw₁.carries.groupOf_eq]
      exact hversions hc
  | again w₁ arc s p hw₁ hbelow hshadow hs heq =>
    subst heq
    obtain ⟨hcurrent, hplaced⟩ := hready hw₁ hshadow hbelow
    rw [← hw₁.selected_eq] at hs
    have hset := Carries.declare hs
      (s.withCandidates (s.candidates.filter p ++ r.versions arc)) rfl (fun c hc => ?_)
      (by rw [hw₁.carries.groupOf_eq, hroot]) hcurrent hplaced
    · exact ((h.carries hw₁.carries).carries hset).trims (.markDirty (fun _ => True) _ _)
    · rw [hw₁.carries.groupOf_eq]
      exact (mem_append.mp hc).imp mem_of_mem_filter hversions
  | behind w₁ arc s lowest state hw₁ hbelow hshadow hs hbehind hsteps =>
    obtain ⟨hcurrent, hplaced⟩ := hready hw₁ hshadow hbelow
    rw [← hw₁.selected_eq] at hs
    have hset := Carries.declare hs
      { s with candidates := s.candidates ++ r.versions arc, settled := some state } rfl
      (fun c hc => ?_)
      (by rw [hw₁.carries.groupOf_eq, hroot]) hcurrent hplaced
    · exact ((h.carries hw₁.carries).carries hset).carries hsteps.carries
    · rw [hw₁.carries.groupOf_eq]
      exact (mem_append.mp hc).imp_right hversions

theorem groups_joinGroup [Lowercase] (heq : w.joinGroup backend r = .ok w') :
    w'.groups = w.groups := by
  cases joinGroup_steps heq with
  | cut hbelow heq =>
    subst heq
    exact (cutEdge_carries _ _ _).groups_eq
  | dropped hshadow hprep => exact hprep.carries.groups_eq
  | walk w₁ highest origin hw₁ hbelow hshadow hhighest hqueues =>
    rw [hqueues.frame]
    exact hw₁.carries.groups_eq
  | walkLoad w₁ arc hw₁ hbelow hshadow heq =>
    subst heq
    exact hw₁.carries.groups_eq
  | shadow w₁ arc s origin hw₁ hbelow hshadow hs heq
  | again w₁ arc s p hw₁ hbelow hshadow hs heq =>
    subst heq
    rw [groups_markDirty]
    exact hw₁.carries.groups_eq
  | group w₁ arc highest hw₁ hbelow hshadow hnone hhighest heq =>
    subst heq
    rw [addGroup_eq]
    exact hw₁.carries.groups_eq
  | behind w₁ arc s lowest state hw₁ hbelow hshadow hs hbehind hsteps =>
    rw [hsteps.carries.groups_eq]
    exact hw₁.carries.groups_eq

/-! ## Winning a group -/

theorem Inv.setNode {n : ℕ} {node : Node} (h : w.Sound) (hn : w.nodeOf key = some n)
    (hcoord : w.groupOf (.ofCoord node.coord) = key) :
    (w.setGraph (w.graph.setNode n node)).Sound :=
  { h with
    shadowsOk := ⟨h.shadowsOk.forest, h.shadowsOk.root⟩
    fits := fun k c hc => { h.fits k c hc with }
    nodeLt := fun k m hk => by
      change _ ∧ m < (w.graph.nodes.set n node).length
      rw [length_set]
      exact h.nodeLt k m hk
    nodeCoord := fun k m node' hk hnode => by
      change (w.graph.nodes.set n node)[m]? = some node' at hnode
      by_cases hmn : n = m
      · subst hmn
        rw [getElem?_set_self (h.nodeLt key n hn).2] at hnode
        cases hnode
        rw [h.nodeInj k key n hk hn]
        exact hcoord
      · rw [getElem?_set_ne hmn] at hnode
        exact h.nodeCoord k m node' hk hnode
    generationCount := by
      change _ = (w.graph.nodes.set n node).length
      rw [length_set]
      exact h.generationCount }

/-- A new winner keeps the walk sound: the node is retired before its declarations are queued. -/
theorem Inv.commit {w w' : Walk} {backend : Backend} {key : CoordKey} {winner : Candidate}
    (h : w.Sound) (hwinner : w.Holds key winner) (heq : w.commit backend key winner = .ok w') :
    w'.Sound := by
  cases commit_steps heq with
  | steps s s₁ convert project w₁ w₂ hproject hs hwon hw₁ hw₂ hqueues =>
    obtain ⟨hroot, hlt⟩ := h.nodeLt key s.node (nodeOf_of_lookup hs)
    have hset : (w.setSelected key s₁).Sound := h.note hs hwon.node_eq hwon.candidates_eq
    have hretired : w₁.Sound := by
      rw [hw₁]
      exact (hset.mono fun _ hfalse => hfalse.elim).retire hroot hlt convert
    have ht := retire_trims (fun _ => True) (w.setSelected key s₁) s.node convert
    rw [← hw₁] at ht
    have hnode : w₁.nodeOf key = some s.node := by
      rw [ht.nodeOf_eq]
      change (w.setSelected key s₁).nodeOf key = _
      rw [nodeOf_setSelected, if_pos rfl, hwon.node_eq]
    have hgroup : w₁.groupOf winner.key = key := by
      rw [ht.groupOf_eq]
      exact (h.fits key winner hwinner).member
    have hrenamed : w₂.Sound ∧ w₂.nodeOf key = some s.node ∧ w₂.groupOf winner.key = key ∧
        w₂.generations = w₁.generations := by
      rcases hw₂ with rfl | ⟨node, -, rfl⟩
      · exact ⟨hretired, hnode, hgroup, rfl⟩
      · exact ⟨hretired.setNode hnode hgroup, hnode, hgroup, rfl⟩
    obtain ⟨hsound, hnode, hgroup, hgenerations⟩ := hrenamed
    have hrevalidate := revalidateShadows_trims (fun _ => True) w₂ key
    refine (hsound.trims hrevalidate).carries (hqueues.carries fun item hitem _ => ?_)
    obtain ⟨project, declaredAt, dependency, index, -, -, rfl⟩ := hitem
    constructor
    · -- The node's new generation is older than the next one.
      have hlt' : s.node < w₂.generations.length := by
        rw [hsound.generationCount]
        exact (hsound.nodeLt key s.node hnode).2
      rw [hrevalidate.nextGeneration_eq]
      refine hsound.generationLt _ (mem_of_getElem? (i := s.node) ?_)
      rw [← hgenerations, getElem?_eq_getElem hlt']
      rfl
    · refine .inr ⟨winner.key, ?_, ?_⟩
      · simp [childItem, Candidate.key]
      · rw [hrevalidate.groupOf_eq, hrevalidate.nodeOf_eq, hgroup, hnode]
        rfl

/-- The committed candidate has won its group, unless the group must be mediated
again. -/
theorem commit_wins {winner : Candidate} (hs : w.selected.lookup key = some s)
    (heq : w.commit backend key winner = .ok w') :
    w'.groups = w.groups ∧ (key ∈ w'.dirtySet ∨ ∃ s', w'.selected.lookup key = some s' ∧
      s'.candidates = s.candidates ∧ s'.winner = some winner) := by
  cases commit_steps heq with
  | steps s₀ s₁ convert project w₁ w₂ hproject hs₀ hwon hw₁ hw₂ hqueues =>
    obtain rfl : s = s₀ := Option.some.inj (hs.symm.trans hs₀)
    have hretire := retire_trims (fun _ => False) (w.setSelected key s₁) s.node convert
    rw [← hw₁] at hretire
    have hrevalidate := revalidateShadows_trims (fun _ => False) w₂ key
    have hsame : w₂.selected = w₁.selected ∧ w₂.dirtySet = w₁.dirtySet ∧ w₂.groups = w₁.groups := by
      rcases hw₂ with rfl | ⟨node, -, rfl⟩ <;> exact ⟨rfl, rfl, rfl⟩
    obtain ⟨hselected, hdirty, hgroups⟩ := hsame
    have hdirty' : w'.dirtySet = (w₂.revalidateShadows key).dirtySet := by rw [hqueues.frame]
    have hgroups' : w'.groups = (w₂.revalidateShadows key).groups := by rw [hqueues.frame]
    refine ⟨by rw [hgroups', hrevalidate.groups_eq, hgroups, hretire.groups_eq]; rfl, ?_⟩
    obtain ⟨s₂, hs₂, -, hsame₂⟩ := hretire.lookup_some key s₁ (by
      change (w.setSelected key s₁).selected.lookup key = _
      rw [lookup_setSelected, if_pos rfl])
    obtain ⟨s₃, hs₃, -, hsame₃⟩ := hrevalidate.lookup_some key s₂ (by rw [hselected, hs₂])
    obtain ⟨s₄, hs₄, hcore⟩ := hqueues.lookup_some key s₃ hs₃
    rw [hdirty']
    rcases hsame₃ with rfl | hfalse | hmem
    · rcases hsame₂ with rfl | hfalse | hmem
      · refine .inr ⟨s₄, hs₄, ?_, ?_⟩
        · rw [hcore.candidates_eq, hwon.candidates_eq]
        · rw [hcore.winner_eq, hwon.winner_eq]
      · exact hfalse.elim
      · exact .inl (hrevalidate.dirtySet_subset (hdirty ▸ hmem))
    · exact hfalse.elim
    · exact .inl hmem

theorem sound_new (node : Node) : (Walk.new (.new node)).Sound where
  shadowsOk := ⟨ParentMap.forest_empty, by simp [Walk.new]⟩
  selectedRoot := by simp [Walk.new, Walk.nodeOf]
  nodeLt := by simp [Walk.new, Walk.nodeOf]
  nodeInj := by simp [Walk.new, Walk.nodeOf]
  linkTarget := by simp [Walk.new, Graph.new]
  nodeCoord := by simp [Walk.new, Walk.nodeOf]
  fits := by simp [Walk.new, Walk.Holds]
  generationCount := rfl
  rootGeneration := rfl
  generationLt := by simp [Walk.new, Raeva.rootGeneration]
  queuedLt := by simp [Walk.new]
  queuedPlaced := by simp [Walk.new]
  walkLoads := by simp [Walk.new]

end Walk

end Raeva
