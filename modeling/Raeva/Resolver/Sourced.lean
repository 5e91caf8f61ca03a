import Raeva.Resolver.Exclusions
import Raeva.Resolver.Selection

/-!
# Where the nodes of a graph come from

In every state they are the nodes of the groups; in a result, of groups whose
winner was declared.
-/

namespace Raeva

open List

/-- The winner is a candidate, up to what was loaded for it. -/
def Selected.Sourced (s : Selected) : Prop :=
  ∃ winner, s.winner = some winner ∧
    ∃ c ∈ s.candidates, c.item = winner.item ∧ c.coord = winner.coord

theorem Selected.sourced_stable [Lowercase] :
    Stage.Stable (fun _ => True) fun s => s.conflict.isSome = true ∨ s.Sourced where
  decided s _ hdecided := by
    rcases hdecided with ⟨best, hbest, hwinner, -⟩ | ⟨-, hconflict, -⟩
    · exact .inr ⟨best, hwinner, best, (mem_filter.mp (mem_of_minBy hbest)).1, rfl, rfl⟩
    · exact .inl hconflict
  kept s s' _ hkept h := by
    -- Notes aside, `s'` is one of three groups.
    obtain ⟨t, hsame, hconflict, hwinner, hcandidates⟩ : ∃ t : Selected, t.SameCore s' ∧
        t.conflict = s.conflict ∧ t.winner = s.winner ∧
        ∀ c ∈ s.candidates, ∃ c' ∈ t.candidates, Stage.Reloaded c c' := by
      cases hkept with
      | core hsame => exact ⟨s, hsame, rfl, rfl, fun c hc => ⟨c, hc, _, _, _, rfl⟩⟩
      | loaded hl hsame => exact ⟨_, hsame, rfl, rfl, fun c => mem_of_forall₂ hl.flip⟩
      | behind _ hsame =>
        exact ⟨_, hsame, rfl, rfl, fun c hc => ⟨c, mem_append_left _ hc, _, _, _, rfl⟩⟩
    rw [hsame.conflict_eq, hconflict]
    refine h.imp_right fun ⟨winner, hw, c, hc, hitem, hcoord⟩ => ?_
    obtain ⟨c', hc', hreloaded⟩ := hcandidates c hc
    exact ⟨winner, by rw [hsame.winner_eq, hwinner, hw], c', hsame.candidates_eq ▸ hc',
      hreloaded.item_eq.trans hitem, hreloaded.coord_eq.trans hcoord⟩

namespace Solver

/-- In every state no edge enters the root, no two groups share a node, and every node
below the root is that of one group. -/
theorem reached_linked [Lowercase] {solver : Solver} {root : SolverRoot} {w : Walk}
    (h : Reached anyStep solver root w) : (∀ u, ¬w.graph.Steps u Graph.root) ∧
      (∀ k k' v, w.nodeOf k = some v → w.nodeOf k' = some v → k = k') ∧
      ∀ v, v ≠ Graph.root → w.graph.IsReachable v → ∃! k, w.nodeOf k = some v := by
  have hsound := h.sound
  refine ⟨fun u ⟨link, hlink, _, htarget⟩ => ?_, hsound.nodeInj, fun v hv hreach => ?_⟩
  · obtain ⟨k, hk⟩ := hsound.linkTarget link hlink
    exact (hsound.nodeLt k _ hk).1.ne' htarget
  · obtain ⟨link, hlink, rfl⟩ := hreach.exists_link hv
    obtain ⟨k, hk⟩ := hsound.linkTarget link hlink
    exact ⟨k, hk, fun k' hk' => hsound.nodeInj k' k _ hk' hk⟩

/-- Every node of a result is that of a group whose winner is a candidate of it.  The
candidates stand where declarations lead that descend from the root's, exclude them
nowhere and, shadows aside, are current. -/
theorem solve_sourced [Lowercase] {solver : Solver} {root : SolverRoot} {fuel : ℕ} {graph : Graph}
    (h : solver.solve fuel root = .ok graph) :
    ∃ w, Between anyStep solver root w ∧ w.finish solver.backend = .ok graph ∧
      ∀ v, v ≠ Graph.root → graph.IsReachable v → ∃ k s, w.selected.lookup k = some s ∧
        s.node = v ∧ s.Sourced ∧ ∀ c ∈ s.candidates, c.Descends solver root ∧
          (c.item.shadow = none → w.Current c.item) := by
  obtain ⟨w, hbetween, hfinish⟩ := solve_between h
  obtain ⟨hscopes, hconflicts⟩ := Walk.finish_eq_ok hfinish
  have hsound : w.Sound := hbetween.visits.1.sound
  refine ⟨w, hbetween, hfinish, fun v hv hreach => ?_⟩
  obtain ⟨link, hlink, rfl⟩ := hreach.exists_link hv
  rw [(Graph.selectScopes_eq hscopes).1] at hlink
  obtain ⟨k, hk⟩ := hsound.linkTarget link hlink
  obtain ⟨s, hs, hnode⟩ := Walk.nodeOf_eq_some.mp hk
  refine ⟨k, s, hs, hnode, ?_, fun c hc => ?_⟩
  · have hstable := hbetween.groups Selected.sourced_stable (fun _ _ _ _ _ _ => trivial) hs
    rw [hconflicts k s hs] at hstable
    exact hstable.resolve_left Bool.false_ne_true
  · have hholds : w.Holds k c := ⟨s, hs, hc⟩
    exact ⟨(Stage.Reach.descends hbetween.visits.1).candidate k c hholds,
      (hsound.fits k c hholds).current⟩

local instance sourcedLowercase : Lowercase :=
  asciiLowercase

theorem steps_of_links {g : Graph} {pairs : List (ℕ × ℕ)}
    (h : g.links.map (fun link => (link.source, link.target)) = pairs) {u v : ℕ}
    (hmem : (u, v) ∈ pairs) : g.Steps u v := by
  rw [← h, mem_map] at hmem
  obtain ⟨link, hlink, heq⟩ := hmem
  cases heq
  exact ⟨link, hlink, rfl, rfl⟩

/-- The nodes of `m`, and of `l` and `f` below it. -/
theorem reached_linked_excluding :
    ∃ w, Reached anyStep excluding (.of [.on ['m'] ['1'] []]) w ∧
      w.graph.Steps 0 1 ∧ w.graph.Steps 1 2 ∧ w.graph.Steps 1 3 ∧
      (∀ u, ¬w.graph.Steps u Graph.root) ∧
      (∀ k k' v, w.nodeOf k = some v → w.nodeOf k' = some v → k = k') ∧
      ∀ v ∈ [1, 2, 3], ∃! k, w.nodeOf k = some v := by
  obtain ⟨w, hbetween, hlinks⟩ := exists_between (N := anyStep) (fun _ _ _ => trivial)
    (show (walkAfter excluding (.of [.on ['m'] ['1'] []]) (fun _ _ => true) 3).any
      (fun w => w.graph.links.map (fun link => (link.source, link.target)) ==
        [(0, 1), (1, 2), (1, 3)]) = true
      by decide +kernel)
  have hsteps {u v : ℕ} (hmem : (u, v) ∈ [(0, 1), (1, 2), (1, 3)]) : w.graph.Steps u v :=
    steps_of_links (beq_iff_eq.mp hlinks) hmem
  have h₁ : w.graph.Steps 0 1 := hsteps (by decide)
  have h₂ : w.graph.Steps 1 2 := hsteps (by decide)
  have h₃ : w.graph.Steps 1 3 := hsteps (by decide)
  obtain ⟨hroot, hinj, hunique⟩ := reached_linked (.between hbetween)
  refine ⟨w, .between hbetween, h₁, h₂, h₃, hroot, hinj, fun v hv => hunique v ?_ ?_⟩
  · rintro rfl
    exact absurd hv (by decide)
  · have hm : w.graph.IsReachable 1 := .single h₁
    simp only [mem_cons, not_mem_nil, or_false] at hv
    rcases hv with rfl | rfl | rfl
    · exact hm
    · exact hm.tail h₂
    · exact hm.tail h₃

/-- The node of `l`, which `m` declares and the exclusion of `f` does not meet. -/
theorem solve_sourced_excluding :
    ∃ (graph : Graph) (w : Walk) (k : CoordKey) (s : Selected) (c : Candidate),
      excluding.solve 50 (.of [.on ['m'] ['1'] [['f']]]) = .ok graph ∧
      graph.IsReachable 2 ∧ w.selected.lookup k = some s ∧ s.node = 2 ∧ s.Sourced ∧
      c ∈ s.candidates ∧ c.Descends excluding (.of [.on ['m'] ['1'] [['f']]]) ∧
      (c.item.shadow = none → w.Current c.item) := by
  have hlinks : (excluding.solve 50 (.of [.on ['m'] ['1'] [['f']]])).toOption.map
      (fun graph => graph.links.map fun link => (link.source, link.target)) =
        some [(0, 1), (1, 2)] := by decide +kernel
  obtain ⟨graph, hgraph, hlinks⟩ := Option.map_eq_some_iff.mp hlinks
  have hsolve := eq_ok_of_toOption hgraph
  have hm : graph.Steps 0 1 := steps_of_links hlinks (by decide)
  have hl : graph.Steps 1 2 := steps_of_links hlinks (by decide)
  have hreach : graph.IsReachable 2 := .tail (.single hm) hl
  obtain ⟨w, -, -, hsourced⟩ := solve_sourced hsolve
  obtain ⟨k, s, hs, hnode, hwinner, hcandidates⟩ := hsourced 2 (by decide) hreach
  obtain ⟨winner, -, c, hc, -⟩ := id hwinner
  obtain ⟨hdescends, hcurrent⟩ := hcandidates c hc
  exact ⟨graph, w, k, s, c, hsolve, hreach, hs, hnode, hwinner, hc, hdescends, hcurrent⟩

end Solver

end Raeva
