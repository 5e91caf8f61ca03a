import Raeva.Resolver.Memory
import Raeva.Resolver.Provenance

/-!
# Exclusions hold for every candidate

A candidate's coordinate changes after its declaration was first checked, by
relocation, by management and with the versions of a range.  In every state of
a resolution no exclusion on the way to a candidate matches what it is now.
-/

namespace Raeva

open List

/-- The dependencies declared above an item, the nearest first, each as it was
managed.  The item is a dependency of the root, or one that is declared by the model
of an artifact that the item above it leads to. -/
inductive Under [Lowercase] (solver : Solver) (root : SolverRoot) :
    QueueItem → List Dependency → Prop where
  | root {item : QueueItem} (h : Stage.IsRootItem root item) : Under solver root item []
  | managed {item item' : QueueItem} {above : List Dependency} (h : Under solver root item above)
      (hmanaged : item'.ManagedFrom solver item) : Under solver root item' above
  | shadowed {item : QueueItem} {above : List Dependency} (h : Under solver root item above)
      (shadow : Option ShadowOrigin) : Under solver root { item with shadow } above
  | child {c : Candidate} {resolved : ResolvedProject} {dependency : Dependency} {index : ℕ}
      {above : List Dependency} (h : Under solver root c.item above)
      (hstands : solver.Stands c.item.path.repos c.item.dependency c.coord)
      (hserved : solver.backend.Serves c.coord resolved)
      (hdependency : resolved.project.dependencies[index]? = some dependency)
      (parent generation : ℕ) (shadow : Option ShadowOrigin) (declaredAt : ℕ) :
      Under solver root (Walk.childItem solver.backend c resolved.project parent generation shadow
        declaredAt dependency index) (c.item.dependency :: above)

section Descent

variable [Lowercase] {solver : Solver} {root : SolverRoot} {c c₀ : Candidate} {r : Resolution}
  {item : QueueItem} {above : List Dependency}

theorem Under.mem_exclusions (h : Under solver root item above) :
    ∀ d ∈ above, ∀ ex ∈ d.exclusions, ExclusionKey.ofExclusion ex ∈ item.exclusions := by
  induction h with
  | root h => simp
  | managed h hmanaged ih =>
    obtain ⟨dependency, managedScope, -, rfl⟩ := hmanaged
    exact ih
  | shadowed h shadow ih => exact ih
  | child h hstands hserved hdependency parent generation shadow declaredAt ih =>
    simp only [Walk.childItem, extendExclusions, mem_append, mem_map]
    intro d hd ex hex
    rcases mem_cons.mp hd with rfl | hd
    · exact .inr ⟨ex, hex, rfl⟩
    · exact .inl (ih d hd ex hex)

namespace Candidate

def Allowed (c : Candidate) : Prop :=
  excludes c.item.exclusions c.coord.groupId c.coord.artifactId = false

/-- The candidate is at a place that its declaration leads to, with the model of that
place. -/
structure Grounded (solver : Solver) (c : Candidate) : Prop where
  stands : solver.Stands c.item.path.repos c.item.dependency c.coord
  served : ∀ resolved, c.resolvedProject = some resolved → solver.backend.Serves c.coord resolved

/-- The candidate stands, unexcluded, for a declaration that descends from the root's. -/
structure Descends (solver : Solver) (root : SolverRoot) (c : Candidate) : Prop where
  allowed : c.Allowed
  grounded : c.Grounded solver
  under : ∃ above, Under solver root c.item above

theorem Descends.comesFrom (h : c₀.Descends solver root) (hc : c.ComesFrom c₀) :
    c.Descends solver root := by
  rcases hc with rfl | ⟨origin, arc, rfl⟩
  · exact h
  · obtain ⟨hallowed, ⟨hstands, hserved⟩, above, hunder⟩ := h
    exact ⟨hallowed, ⟨hstands, hserved⟩, above, hunder.shadowed _⟩

theorem Descends.refreshed (h : c₀.Descends solver root)
    (hc : Stage.Refreshed solver.backend c₀ c) : c.Descends solver root := by
  obtain ⟨⟨arc, resolved, resolvedProject, rfl⟩, hserved⟩ := hc
  refine ⟨h.allowed, ⟨h.grounded.stands, fun resolved hresolved => ?_⟩, h.under⟩
  rcases hserved resolved hresolved with hold | hnew
  · exact h.grounded.served resolved hold
  · exact hnew

end Candidate

/-- Every version of what was read is where the declaration leads, with the model of
that place. -/
theorem Resolution.ReadFrom.grounded {origin : Coord} {arc : ℕ} (hr : r.ReadFrom solver item origin)
    (horigin : solver.Stands item.path.repos item.dependency origin) (hc : c ∈ r.versions arc) :
    c.Grounded solver := by
  obtain ⟨dependency, managedScope, hmanaged, hitem⟩ := hr.managed
  obtain ⟨scope, systemPath, exclusions, hdependency⟩ := Solver.Manages.eq hmanaged
  obtain ⟨version, hoffers, hleads⟩ := horigin
  have hstands {coord : Coord} (h : solver.Leads item.path.repos item.dependency origin coord) :
      solver.Stands r.candidate.item.path.repos r.candidate.item.dependency coord := by
    rw [hitem, hdependency]
    exact ⟨version, hoffers, Relation.ReflTransGen.trans hleads h⟩
  unfold Resolution.versions at hc
  simp only [mem_append, mem_map, mem_singleton] at hc
  rcases hc with ⟨⟨alternative, position⟩, hmem, rfl⟩ | rfl
  · obtain ⟨hled, hserved⟩ := hr.alternatives alternative (fst_mem_of_mem_zipIdx hmem)
    refine ⟨hstands hled, fun resolved hresolved => ?_⟩
    obtain ⟨hsome, hscope⟩ := Option.filter_eq_some_iff.mp hresolved
    exact hserved (of_decide_eq_true hscope) resolved hsome
  · exact ⟨hstands hr.led.leads, hr.led.served⟩

/-- What was read stands for a declaration that descends from the root's, and is excluded
there only if it is cut anyway. -/
structure Resolution.Descends (solver : Solver) (root : SolverRoot) (r : Resolution) : Prop where
  allowed : r.candidate.Allowed ∨ r.candidate.item.path.contains r.candidate.key = true
  grounded : ∀ arc, ∀ c ∈ r.versions arc, c.Grounded solver
  under : ∃ above, Under solver root r.candidate.item above

theorem Resolution.ReadFrom.descends {origin : Coord} (hr : r.ReadFrom solver item origin)
    (horigin : solver.Stands item.path.repos item.dependency origin)
    (hitem : Under solver root item above) : r.Descends solver root := by
  refine ⟨?_, fun _ _ => hr.grounded horigin, above, hitem.managed hr.managed⟩
  obtain ⟨dependency, managedScope, -, heq⟩ := hr.managed
  rw [Candidate.Allowed, heq]
  exact hr.allowed

theorem Resolution.Descends.version {arc : ℕ} (h : r.Descends solver root)
    (hcut : r.candidate.item.path.contains r.candidate.key ≠ true) (hc : c ∈ r.versions arc) :
    c.Descends solver root := by
  refine ⟨?_, h.grounded arc c hc, (Walk.mem_versions hc).1 ▸ h.under⟩
  have hallowed := h.allowed.resolve_right hcut
  unfold Resolution.versions at hc
  simp only [mem_append, mem_map, mem_singleton] at hc
  rcases hc with ⟨⟨alternative, position⟩, -, rfl⟩ | rfl
  · exact hallowed
  · exact hallowed

namespace Stage

variable {st st' : Stage}

/-- Declarations descend from the root's, candidates stand unexcluded for theirs, and
winners have the models of their coordinates. -/
structure Descends (solver : Solver) (root : SolverRoot) (st : Stage) : Prop where
  candidate : ∀ k c, st.walk.Holds k c → c.Descends solver root
  won : ∀ c, st.walk.Won c → ∀ resolved, c.resolvedProject = some resolved →
    solver.backend.Serves c.coord resolved
  queued : ∀ item ∈ st.walk.queue, ∃ above, Under solver root item above
  walkLoad : ∀ probes ∈ st.walk.walkLoads, ∀ c ∈ probes, c.Descends solver root
  hand : ∀ r ∈ st.hand, r.Descends solver root

theorem Descends.source (h : Descends solver root st) (hc : st.Source solver.backend c) :
    c.Descends solver root := by
  rcases hc with ⟨k₀, c₀, hc₀, hfrom | hrefreshed⟩ | ⟨r, hr, hbelow, arc, hmem⟩
  · exact (h.candidate k₀ c₀ hc₀).comesFrom hfrom
  · exact (h.candidate k₀ c₀ hc₀).refreshed hrefreshed
  · refine (h.hand r hr).version (fun hcontains => hbelow ?_) hmem
    exact ⟨r.candidate.key, PathNode.contains_iff.mp hcontains, rfl⟩

/-- A stage has nothing but what comes from the stage before, so the descent carries over. -/
theorem Descends.origins (h : Descends solver root st) (ho : Origins solver st st') :
    Descends solver root st' where
  candidate k c hc := h.source (ho.candidate k c hc)
  won c hc := by
    obtain ⟨c₀, hc₀, hfrom⟩ := ho.won c hc
    have hserved : ∀ resolved, c₀.resolvedProject = some resolved →
        solver.backend.Serves c₀.coord resolved := by
      rcases hc₀ with hwon | ⟨k, hholds⟩
      · exact h.won c₀ hwon
      · exact (h.candidate k c₀ hholds).grounded.served
    rcases hfrom with rfl | ⟨origin, arc, rfl⟩
    · exact hserved
    · exact hserved
  queued item hitem := by
    rcases ho.queued item hitem with
      hold | ⟨c, reader, hsource, hreader, parent, generation, shadow,
      resolved, declaredAt, dependency, index, hresolved, hdependency, rfl⟩
    · exact h.queued item hold
    obtain ⟨-, hgrounded, above, hunder⟩ := h.source hsource
    refine ⟨_, hunder.child hgrounded.stands ?_ hdependency parent generation shadow declaredAt⟩
    rcases hreader with rfl | ⟨hwon, hcoord⟩
    · exact hgrounded.served resolved hresolved
    · exact hcoord ▸ h.won reader hwon resolved hresolved
  walkLoad probes hprobes c hc := by
    rcases ho.walkLoad probes hprobes with hold | hnew
    · exact h.walkLoad probes hold c hc
    · exact h.source (hnew c hc)
  hand r hr := by
    rcases ho.hand r hr with hold | ⟨k, c, hc, hread⟩ | ⟨probes, hprobes, c, hc, hfrom⟩ |
      ⟨item, hitem, version, hoffers, hread⟩
    · exact h.hand r hold
    · obtain ⟨-, hgrounded, above, hunder⟩ := h.candidate k c hc
      exact hread.descends hgrounded.stands hunder
    · obtain ⟨hallowed, hgrounded, above, hunder⟩ := h.walkLoad probes hprobes c hc
      rcases hfrom with ⟨⟨resolved, project, hserved, heq⟩, halternatives⟩ | hread
      · refine ⟨.inl (heq ▸ hallowed), fun arc c' hc' => ?_, above, heq ▸ hunder⟩
        rw [Resolution.versions, halternatives] at hc'
        rw [mem_singleton.mp hc', heq]
        exact ⟨hgrounded.stands, fun _ hresolved => Option.some.inj hresolved ▸ hserved⟩
      · exact hread.descends hgrounded.stands hunder
    · obtain ⟨above, hunder⟩ := h.queued item hitem
      exact hread.descends ⟨version, hoffers, .refl⟩ hunder

theorem Reach.descends {N : Walk → Walk → Prop} (h : Reach N solver root st) :
    Descends solver root st := by
  induction h with
  | start h =>
    obtain ⟨node, hqueues⟩ := start_queues h
    have hnone (k : CoordKey) := hqueues.lookup_none k rfl
    refine ⟨?_, ?_, fun item hitem => ?_, fun probes hprobes => ?_, fun _ hr => hr.elim⟩
    · rintro k c ⟨s, hs, -⟩
      rw [hnone] at hs
      cases hs
    · rintro c ⟨k, s, hs, -⟩
      rw [hnone] at hs
      cases hs
    · rcases hqueues.queue item hitem with hold | hroot
      · cases hold
      · exact ⟨[], .root hroot⟩
    · rw [hqueues.frame] at hprobes
      cases hprobes
  | act hreach hact _ ih => exact ih.origins (hact.origins hreach.ok)
  | turn _ hturn ih => exact ih.origins hturn.origins

end Stage

end Descent

namespace Solver

/-- In every state every candidate has a lineage of declarations from the root,
and no exclusion of its item, or of a dependency above it, matches the
candidate's own group and artifact. -/
theorem exclusions_hold [Lowercase] {solver : Solver} {root : SolverRoot} {w : Walk}
    (h : Reached anyStep solver root w) (k : CoordKey) (s : Selected)
    (hs : w.selected.lookup k = some s) (c : Candidate) (hc : c ∈ s.candidates) :
    excludes c.item.exclusions c.coord.groupId c.coord.artifactId = false ∧
      (∃ above, Under solver root c.item above) ∧
      ∀ above, Under solver root c.item above → ∀ d ∈ above,
        excludes (d.exclusions.map .ofExclusion) c.coord.groupId c.coord.artifactId = false := by
  obtain ⟨e, hand, hvisits⟩ := h.seen
  obtain ⟨hallowed, -, hunder⟩ := (Stage.Reach.descends hvisits).candidate k c ⟨s, hs, hc⟩
  refine ⟨hallowed, hunder, fun above habove d hd => ?_⟩
  -- What excludes nothing in a list excludes nothing in a part of it.
  rw [Candidate.Allowed, excludes, any_eq_false] at hallowed
  rw [excludes, any_eq_false]
  exact forall_mem_map.mpr fun exclusion hexclusion =>
    hallowed _ (habove.mem_exclusions d hd exclusion hexclusion)

local instance exclusionsLowercase : Lowercase :=
  asciiLowercase

/-- The root excludes `f` below `m`, which declares `l` and `f`. -/
def excluding : Solver :=
  ofProjects [.of ['m'] ['1'] [.on ['l'] ['1'] [], .on ['f'] ['1'] []], .of ['l'] ['1'] [],
    .of ['f'] ['1'] []]

theorem exclusions_hold_below :
    ∃ w s c, Reached anyStep excluding (.of [.on ['m'] ['1'] [['f']]]) w ∧
      w.selected.lookup (.of ['l']) = some s ∧ c ∈ s.candidates ∧
      c.item.exclusions = [⟨['f'], ['a']⟩] ∧
      excludes c.item.exclusions c.coord.groupId c.coord.artifactId = false := by
  obtain ⟨w, hbetween, hheld⟩ := exists_between (N := anyStep) (fun _ _ _ => trivial)
    (show (walkAfter excluding (.of [.on ['m'] ['1'] [['f']]]) (fun _ _ => true) 3).any
      (fun w => (w.selected.lookup (.of ['l'])).any fun s =>
        s.candidates.any fun c => c.item.exclusions == [⟨['f'], ['a']⟩]) = true
      by decide +kernel)
  simp only [Option.any_eq_true, any_eq_true, beq_iff_eq] at hheld
  obtain ⟨s, hs, c, hc, hexclusions⟩ := hheld
  exact ⟨w, s, c, .between hbetween, hs, hc, hexclusions,
    (exclusions_hold (.between hbetween) _ s hs c hc).1⟩

end Solver

end Raeva
