import Raeva.Resolver.Mediated
import Raeva.Resolver.Memory

/-!
# One version of each artifact, accepted by every range

What a successful resolution selects: the nodes of its graph stand for
different conflict groups, and no range of a candidate rejects the version
that won its group.
-/

namespace Raeva

open List

namespace Selected

variable [Lowercase]

def Accepted (s : Selected) : Prop :=
  ∃ winner, s.winner = some winner ∧ ∀ c ∈ s.candidates, c.accepts winner.coord.version = true

theorem Accepted.behind {s : Selected} {candidates : List Candidate} {lowest : Option Candidate}
    {state : Settled} (h : s.Accepted) (hbehind : s.behind candidates = some (lowest, state)) :
    Accepted { s with candidates := s.candidates ++ candidates, settled := some state } := by
  obtain ⟨winner, hwinner, haccepts⟩ := h
  refine ⟨winner, hwinner, fun c hc => ?_⟩
  rcases mem_append.mp hc with hc | hc
  · exact haccepts c hc
  unfold Selected.behind at hbehind
  rw [hwinner] at hbehind
  split at hbehind
  · rename_i winner' state' hwinner' _
    cases hwinner'
    split at hbehind
    · rename_i hall
      have hc' := all_eq_true.mp hall c hc
      rw [Bool.and_eq_true] at hc'
      exact hc'.2
    · cases hbehind
  · cases hbehind

theorem accepted_stable :
    Stage.Stable (fun _ => True) fun s => s.conflict.isSome = true ∨ s.Accepted where
  decided s _ hdecided := by
    rcases hdecided with ⟨best, hbest, hwinner, -⟩ | ⟨-, hconflict, -⟩
    · refine .inr ⟨best, hwinner, ?_⟩
      have hmem := mem_of_minBy hbest
      rw [mem_filter, all_constraints, all_eq_true] at hmem
      exact hmem.2
    · exact .inl hconflict
  kept s s' _ hkept h := by
    -- Notes aside, `s'` is one of three groups.
    have hcore {t : Selected} (hsame : t.SameCore s')
        (ht : t.conflict.isSome = true ∨ t.Accepted) : s'.conflict.isSome = true ∨ s'.Accepted := by
      rw [hsame.conflict_eq]
      refine ht.imp_right fun ⟨winner, hwinner, haccepts⟩ => ⟨winner, ?_, ?_⟩
      · rw [hsame.winner_eq, hwinner]
      · rwa [hsame.candidates_eq]
    cases hkept with
    | core hsame => exact hcore hsame h
    | loaded hl hsame =>
      refine hcore hsame (h.imp_right fun ⟨winner, hwinner, haccepts⟩ => ⟨winner, hwinner, ?_⟩)
      intro c hc
      obtain ⟨c₀, hc₀, hreloaded⟩ := mem_of_forall₂ hl hc
      rw [Candidate.accepts, hreloaded.hard_eq]
      exact haccepts c₀ hc₀
    | behind hbehind hsame =>
      exact hcore hsame (h.imp_right fun haccepted => haccepted.behind hbehind)

end Selected

namespace Walk

/-- A resolution that succeeds left no conflict. -/
theorem finish_eq_ok {backend : Backend} {w : Walk} {graph : Graph}
    (h : w.finish backend = .ok graph) :
    w.graph.selectScopes = .ok graph ∧ ∀ k s, w.selected.lookup k = some s → s.conflict = none := by
  unfold finish at h
  obtain ⟨graph', hscopes, h⟩ := bind_eq_ok h
  obtain ⟨-, -, h⟩ := bind_eq_ok h
  split at h
  · cases h
  rename_i hnone
  cases h
  refine ⟨hscopes, fun k s hs => ?_⟩
  rw [minBy_eq_none_iff, filterMap_eq_nil_iff] at hnone
  exact hnone s (Table.mem_values_of_lookup hs)

end Walk

theorem Graph.IsReachable.exists_link {g : Graph} {index : ℕ} (h : g.IsReachable index)
    (hroot : index ≠ Graph.root) : ∃ link ∈ g.links, link.target = index := by
  rcases Relation.ReflTransGen.cases_tail h with rfl | ⟨source, -, link, hlink, -, htarget⟩
  · exact absurd rfl hroot
  · exact ⟨link, hlink, htarget⟩

namespace Solver

/-- A successful resolution selects one version of each artifact: its reachable
nodes have different keys, and each is the node of one group, whose winner every
constraint of the group's candidates accepts. -/
theorem solve_selects_accepted [Lowercase] {solver : Solver} {root : SolverRoot} {fuel : ℕ}
    {graph : Graph} (h : solver.solve fuel root = .ok graph) :
    (∀ i j a b, i ≠ Graph.root → j ≠ Graph.root → graph.IsReachable i → graph.IsReachable j →
      graph.node i = some a → graph.node j = some b →
      CoordKey.ofCoord a.coord = CoordKey.ofCoord b.coord → i = j) ∧
    ∃ w, Between anyStep solver root w ∧ w.finish solver.backend = .ok graph ∧
      ∀ i, i ≠ Graph.root → graph.IsReachable i →
        ∃ k s winner, w.selected.lookup k = some s ∧ s.node = i ∧
          (∀ k' s', w.selected.lookup k' = some s' → s'.node = i → k' = k) ∧
          s.winner = some winner ∧
          ∀ c ∈ s.candidates, ∀ hard, c.hard = some hard →
            hard.accepts winner.coord.version = true := by
  obtain ⟨w, hbetween, hfinish⟩ := solve_between h
  obtain ⟨hscopes, hconflicts⟩ := Walk.finish_eq_ok hfinish
  obtain ⟨hlinks, hcoords⟩ := Graph.selectScopes_eq hscopes
  have hsound : w.Sound := hbetween.visits.1.sound
  have hgroup {i : ℕ} (hi : i ≠ Graph.root) (hreach : graph.IsReachable i) :
      ∃ k, w.nodeOf k = some i := by
    obtain ⟨link, hlink, rfl⟩ := hreach.exists_link hi
    exact hsound.linkTarget link (hlinks ▸ hlink)
  have hkey {i : ℕ} {k : CoordKey} {node : Node} (hk : w.nodeOf k = some i)
      (hnode : graph.node i = some node) : w.groupOf (.ofCoord node.coord) = k := by
    have hcoord := hcoords i
    rw [hnode, Option.map_some] at hcoord
    obtain ⟨node', hnode', heq⟩ := Option.map_eq_some_iff.mp hcoord.symm
    rw [← heq]
    exact hsound.nodeCoord k i node' hk hnode'
  refine ⟨fun i j a b hi hj hri hrj ha hb heq => ?_, w, hbetween, hfinish, fun i hi hri => ?_⟩
  · obtain ⟨k, hk⟩ := hgroup hi hri
    obtain ⟨k', hk'⟩ := hgroup hj hrj
    obtain rfl : k = k' := by rw [← hkey hk ha, ← hkey hk' hb, heq]
    exact Option.some.inj (hk.symm.trans hk')
  · obtain ⟨k, hk⟩ := hgroup hi hri
    obtain ⟨s, hs, hnode⟩ := Walk.nodeOf_eq_some.mp hk
    rcases hbetween.groups Selected.accepted_stable (fun _ _ _ _ _ _ => trivial) hs with
      hconflict | ⟨winner, hwinner, haccepts⟩
    · rw [hconflicts k s hs] at hconflict
      cases hconflict
    · refine ⟨k, s, winner, hs, hnode, fun k' s' hs' hnode' => ?_, hwinner,
        fun c hc hard hhard => ?_⟩
      · exact hsound.nodeInj k' k i (Walk.nodeOf_eq_some.mpr ⟨s', hs', hnode'⟩) hk
      · simpa [Candidate.accepts, hhard] using haccepts c hc

local instance selectionLowercase : Lowercase :=
  asciiLowercase

/-- The dependency `m` asks for version 1 of `l`, and the root for a range that
holds it. -/
def solveRange : Except Fault Graph :=
  (ofProjects [.of ['m'] ['1'] [.on ['l'] ['1'] []], .of ['l'] ['1'] [], .of ['l'] ['2'] []]).solve
    50 (.of [.on ['m'] ['1'] [], .on ['l'] "[1,2]" []])

theorem solve_selects_accepted_range :
    ∃ graph, solveRange = .ok graph ∧ graph.nodes.length = 3 ∧
      ∀ i j a b, i ≠ Graph.root → j ≠ Graph.root → graph.IsReachable i → graph.IsReachable j →
        graph.node i = some a → graph.node j = some b →
        CoordKey.ofCoord a.coord = CoordKey.ofCoord b.coord → i = j := by
  have hlength : solveRange.toOption.map (·.nodes.length) = some 3 := by decide +kernel
  obtain ⟨graph, hgraph, hlength⟩ := Option.map_eq_some_iff.mp hlength
  have hsolve := eq_ok_of_toOption hgraph
  exact ⟨graph, hsolve, hlength, (solve_selects_accepted hsolve).1⟩

end Solver

end Raeva
