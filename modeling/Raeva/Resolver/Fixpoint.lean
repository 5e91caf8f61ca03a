import Raeva.Library.Runs
import Raeva.Maven.VersionOrder
import Raeva.Resolver.Mediated
import Raeva.Resolver.Memory

/-!
# Mediation is a fixpoint

A settled group is not mediated again for what is ranked behind its winner.
Where the ranks are an order, which they are for versions that start with a
number, mediating it again would choose the same winner.
-/

namespace Raeva

open List

/-! ## The order of ranks -/

theorem compare_of_nil {s t : List ℕ} (h : s = [] ∨ t = []) :
    compare s t = compare s.length t.length := by
  rcases h with rfl | rfl
  · cases t with
    | nil => rfl
    | cons y t => exact (Nat.compare_eq_lt.mpr (Nat.succ_pos _)).symm
  · cases s with
    | nil => rfl
    | cons x s => exact (Nat.compare_eq_gt.mpr (Nat.succ_pos _)).symm

namespace TreeOrder

theorem cmpUp_eq {a b : List ℕ} (h : a.length = b.length) (first : Ordering) :
    cmpUp a b first = (compare a.reverse b.reverse).then first := by
  induction a generalizing b first with
  | nil =>
    obtain rfl : b = [] := length_eq_zero_iff.mp h.symm
    rfl
  | cons x a ih =>
    cases b with
    | nil => simp at h
    | cons y b =>
      have hlength : a.length = b.length := by simpa using h
      have hlast : compare [x] [y] = compare x y := by
        rw [List.compare_cons_cons]
        cases compare x y <;> rfl
      rw [cmpUp, ih hlength, reverse_cons, reverse_cons,
        compare_append_append (by simpa using hlength), hlast, Ordering.then_assoc]

theorem cmp_eq_compare (a b : TreeOrder) :
    a.cmp b = compare a.indices.reverse b.indices.reverse := by
  obtain ⟨a⟩ := a
  obtain ⟨b⟩ := b
  have hsplit (l : List ℕ) (n : ℕ) : l.reverse = (l.drop n).reverse ++ (l.take n).reverse := by
    rw [← reverse_append, take_append_drop]
  have hlength : (a.drop (a.length - b.length)).length = (b.drop (b.length - a.length)).length := by
    simp only [length_drop]
    omega
  rw [cmp, cmpUp_eq hlength, hsplit a (a.length - b.length), hsplit b (b.length - a.length),
    compare_append_append (by simpa using hlength), Ordering.then_eq,
    compare_of_nil (s := (a.take _).reverse)]
  · congr 1
    simp only [length_reverse, length_take]
    rw [Nat.compare_eq_ite_lt, Nat.compare_eq_ite_lt]
    grind
  · rcases Nat.le_total a.length b.length with hle | hle <;> simp [Nat.sub_eq_zero_of_le hle]

instance : Std.TransCmp cmp where
  eq_swap {a b} := by
    rw [cmp_eq_compare, cmp_eq_compare]
    exact Std.OrientedCmp.eq_swap
  isLE_trans {a b c} := by
    rw [cmp_eq_compare, cmp_eq_compare, cmp_eq_compare]
    exact Std.TransCmp.isLE_trans

end TreeOrder

namespace Candidate

variable [Lowercase]

def rankOrder (a b : Candidate) : Ordering :=
  (compare a.item.depth b.item.depth).then <|
  (a.item.order.parent.cmp b.item.order.parent).then <|
  (b.coord.version.runOrder a.coord.version).then <|
  (a.item.order.cmp b.item.order).then <|
  compare a.item.declaredAt b.item.declaredAt

instance : Std.TransCmp rankOrder where
  eq_swap {a b} := by
    have hdepth : compare a.item.depth b.item.depth = (compare b.item.depth a.item.depth).swap :=
      Std.OrientedCmp.eq_swap
    have hdeclared : compare a.item.declaredAt b.item.declaredAt =
        (compare b.item.declaredAt a.item.declaredAt).swap := Std.OrientedCmp.eq_swap
    have horder (x y : TreeOrder) : x.cmp y = (y.cmp x).swap := Std.OrientedCmp.eq_swap
    have hversion (x y : Version) : x.runOrder y = (y.runOrder x).swap := Std.OrientedCmp.eq_swap
    simp only [rankOrder, Ordering.swap_then, hdepth, hdeclared,
      horder a.item.order, horder a.item.order.parent, hversion b.coord.version]
  isLE_trans {a b c} :=
    then_isLE_trans compare <| then_isLE_trans TreeOrder.cmp <|
      then_isLE_trans (fun x y : Version => y.runOrder x) <| then_isLE_trans TreeOrder.cmp
        Std.TransCmp.isLE_trans

theorem rankCmp_eq_rankOrder {a b : Candidate} (ha : a.coord.version.StartsWithNumber)
    (hb : b.coord.version.StartsWithNumber) : a.rankCmp b = a.rankOrder b := by
  rw [rankCmp, rankOrder, Version.cmp_eq_runOrder hb ha]

theorem rankCmp_congr {a a' b b' : Candidate} (ha : a'.item = a.item ∧ a'.coord = a.coord)
    (hb : b'.item = b.item ∧ b'.coord = b.coord) : a'.rankCmp b' = a.rankCmp b := by
  rw [rankCmp, rankCmp, ha.1, ha.2, hb.1, hb.2]

end Candidate

/-! ## What the settled groups keep -/

namespace Selected

variable [Lowercase] {s : Selected} {candidates : List Candidate} {lowest : Option Candidate}
  {state : Settled}

def NumberFirst (c : Candidate) : Prop :=
  c.coord.version.StartsWithNumber

/-- The winner is the best candidate, or there is none and a conflict was
noted. -/
def AtBest (s : Selected) : Prop :=
  (s.conflict.isSome = true ∧ s.best = none ∧ s.settled = none) ∨
    ∃ winner best, s.winner = some winner ∧ s.best = some best ∧
      winner.item = best.item ∧ winner.coord = best.coord

theorem best_eq_rankOrder (hs : ∀ c ∈ s.candidates, NumberFirst c) :
    s.best = minBy Candidate.rankOrder
      (s.candidates.filter fun c => s.candidates.all (·.accepts c.coord.version)) := by
  have hfilter : (fun c : Candidate => s.constraints.all (·.accepts c.coord.version)) =
      fun c => s.candidates.all (·.accepts c.coord.version) :=
    funext fun c => all_constraints s c.coord.version
  rw [best, hfilter]
  exact minBy_congr fun a ha b hb => Candidate.rankCmp_eq_rankOrder
    (hs a (mem_filter.mp ha).1) (hs b (mem_filter.mp hb).1)

theorem AtBest.sameCore {s' : Selected} (h : s.AtBest) (hcore : s.SameCore s') : s'.AtBest := by
  rw [AtBest, hcore.conflict_eq, hcore.winner_eq, hcore.settled_eq,
    Solver.best_congr hcore.candidates_eq]
  exact h

theorem all_accepts_of_reloaded {l l' : List Candidate} (h : List.Forall₂ Stage.Reloaded l l')
    (version : Version) : l'.all (·.accepts version) = l.all (·.accepts version) := by
  induction h with
  | nil => rfl
  | cons hreloaded _ ih =>
    rw [all_cons, all_cons, ih, Candidate.accepts, Candidate.accepts, hreloaded.hard_eq]

theorem AtBest.loaded {s : Selected} {l : List Candidate}
    (h : s.AtBest) (hl : List.Forall₂ Stage.Reloaded s.candidates l) :
    AtBest (s.withCandidates l) := by
  have haccepts := all_accepts_of_reloaded hl
  have hrel : Option.Rel Stage.Reloaded s.best (s.withCandidates l).best := by
    refine minBy_forall₂ (fun a a' b b' ha hb => Candidate.rankCmp_congr ⟨ha.item_eq, ha.coord_eq⟩
      ⟨hb.item_eq, hb.coord_eq⟩) (rel_filter (fun c c' hc => ?_) hl)
    simp only [all_constraints, hc.coord_eq]
    rw [show (s.withCandidates l).candidates = l from rfl, haccepts]
  rcases h with ⟨hconflict, hbest, hsettled⟩ | ⟨winner, best, hwinner, hbest, hitem, hcoord⟩
  · rw [hbest] at hrel
    cases hnone : (s.withCandidates l).best with
    | none => exact .inl ⟨hconflict, hnone, hsettled⟩
    | some best => rw [hnone] at hrel; cases hrel
  · rw [hbest] at hrel
    cases hsome : (s.withCandidates l).best with
    | none => rw [hsome] at hrel; cases hrel
    | some best' =>
      rw [hsome] at hrel
      cases hrel with
      | some hreloaded =>
        exact .inr ⟨winner, best', hwinner, hsome, hitem.trans hreloaded.item_eq.symm,
          hcoord.trans hreloaded.coord_eq.symm⟩

theorem behind_spec (h : s.behind candidates = some (lowest, state)) :
    s.settled.isSome = true ∧ ∃ winner, s.winner = some winner ∧
      ∀ c ∈ candidates, c.rankCmp winner = .gt ∧ c.accepts winner.coord.version = true := by
  unfold Selected.behind at h
  split at h
  · rename_i winner state' hwinner hsettled
    split at h
    · rename_i hall
      refine ⟨by simp [hsettled], winner, hwinner, fun c hc => ?_⟩
      simpa using all_eq_true.mp hall c hc
    · cases h
  · cases h

/-- Candidates that join behind a settled winner leave it the best. -/
theorem AtBest.behind (h : s.AtBest) (hbehind : s.behind candidates = some (lowest, state))
    (hversions : ∀ c ∈ s.candidates ++ candidates, NumberFirst c) :
    AtBest { s with candidates := s.candidates ++ candidates, settled := some state } := by
  obtain ⟨hsettled, winner, hwinner, hcandidates⟩ := behind_spec hbehind
  rcases h with ⟨-, -, hnone⟩ | ⟨winner', best, hwinner', hbest, hitem, hcoord⟩
  · simp [hnone] at hsettled
  obtain rfl : winner = winner' := Option.some.inj (hwinner.symm.trans hwinner')
  refine .inr ⟨winner, best, hwinner, ?_, hitem, hcoord⟩
  have hold : ∀ c ∈ s.candidates, NumberFirst c := fun c hc =>
    hversions c (mem_append_left candidates hc)
  have hbestFirst : NumberFirst best := hold best (Solver.mem_of_best hbest)
  rw [best_eq_rankOrder hold] at hbest
  rw [best_eq_rankOrder hversions]
  simp only [all_append, filter_append]
  refine minBy_append ?_ fun c hc => ?_
  · -- The new constraints accept the best candidate, and the filter keeps it.
    have hkeeps : candidates.all (·.accepts best.coord.version) = true :=
      all_eq_true.mpr fun c hc => hcoord ▸ (hcandidates c hc).2
    have hfilter := minBy_filter hbest
      (p := fun c => candidates.all (·.accepts c.coord.version)) hkeeps
    rw [filter_filter] at hfilter
    simpa only [Bool.and_comm] using hfilter
  · have hc' := (mem_filter.mp hc).1
    have hgt : c.rankOrder best = .gt := by
      rw [← Candidate.rankCmp_eq_rankOrder (hversions c (mem_append_right _ hc')) hbestFirst,
        ← (hcandidates c hc').1]
      exact Candidate.rankCmp_congr ⟨rfl, rfl⟩ ⟨hitem.symm, hcoord.symm⟩
    rw [Std.OrientedCmp.lt_of_gt hgt]
    rfl

theorem atBest_stable : Stage.Stable NumberFirst AtBest where
  decided s _ hdecided := by
    rcases hdecided with ⟨best, hbest, hwinner, -⟩ | ⟨hbest, hconflict, hsettled⟩
    · exact .inr ⟨best, best, hwinner, hbest, rfl, rfl⟩
    · exact .inl ⟨hconflict, hbest, hsettled⟩
  kept s s' hversions hkept h := by
    cases hkept with
    | core hsame => exact h.sameCore hsame
    | loaded hl hsame => exact (h.loaded hl).sameCore hsame
    | behind hbehind hsame =>
      rw [hsame.candidates_eq] at hversions
      exact (h.behind hbehind hversions).sameCore hsame

end Selected

namespace Solver

def startWithNumber [Lowercase] (_ w' : Walk) : Prop :=
  ∀ k c, w'.Holds k c → c.coord.version.StartsWithNumber

/-- Whenever mediation has ended in a run whose candidates' versions start with
a number, each group has a noted conflict and no best candidate, or a winner
that is the best of its candidates. -/
theorem mediation_fixpoint [Lowercase] {solver : Solver} {root : SolverRoot} {w : Walk}
    (h : Between startWithNumber solver root w) (k : CoordKey) (s : Selected)
    (hs : w.selected.lookup k = some s) :
    (s.conflict.isSome = true ∧ s.best = none) ∨
      ∃ winner best, s.winner = some winner ∧ s.best = some best ∧ winner.same best = true := by
  rcases h.groups Selected.atBest_stable (fun _ _ h => h) hs with
    ⟨hconflict, hbest, -⟩ | ⟨winner, best, hwinner, hbest, hitem, hcoord⟩
  · exact .inl ⟨hconflict, hbest⟩
  · refine .inr ⟨winner, best, hwinner, hbest, ?_⟩
    have hrefl : best.item.order.cmp best.item.order = .eq := Std.ReflCmp.compare_self
    simp [Candidate.same, hitem, hcoord, hrefl]

local instance fixpointLowercase : Lowercase :=
  asciiLowercase

def startsWithNumber (w : Walk) : Bool :=
  w.selected.values.all fun s => s.candidates.all fun c =>
    c.coord.version.items.head?.any Item.isNumber

theorem startWithNumber_of_check {w w' : Walk} (h : startsWithNumber w' = true) :
    startWithNumber w w' := by
  rintro k c ⟨s, hs, hc⟩
  simp only [startsWithNumber, all_eq_true] at h
  have hc := h s (Table.mem_values_of_lookup hs) c hc
  rwa [Option.any_eq_true] at hc

/-- The root's version of `l` stays when a later one joins behind it. -/
theorem mediation_fixpoint_behind :
    ∃ w s winner best, Between startWithNumber
        (ofProjects [.of ['m'] ['1'] [.on ['l'] ['2'] []], .of ['l'] ['1'] [], .of ['l'] ['2'] []])
        (.of [.on ['l'] ['1'] [], .on ['m'] ['1'] []]) w ∧
      w.selected.lookup (.of ['l']) = some s ∧ s.candidates.length = 2 ∧
      s.winner = some winner ∧ s.best = some best ∧ winner.same best = true := by
  obtain ⟨w, hbetween, hheld⟩ := exists_between (fun _ _ => startWithNumber_of_check)
    (show (walkAfter
        (ofProjects [.of ['m'] ['1'] [.on ['l'] ['2'] []], .of ['l'] ['1'] [], .of ['l'] ['2'] []])
        (.of [.on ['l'] ['1'] [], .on ['m'] ['1'] []]) (fun _ w' => startsWithNumber w') 3).any
      (fun w => (w.selected.lookup (.of ['l'])).any fun s =>
        s.candidates.length == 2 && s.conflict.isNone) = true
      by decide +kernel)
  simp only [Option.any_eq_true, Bool.and_eq_true, beq_iff_eq, Option.isNone_iff_eq_none] at hheld
  obtain ⟨s, hs, hlength, hconflict⟩ := hheld
  rcases mediation_fixpoint hbetween _ s hs with ⟨hsome, -⟩ | ⟨winner, best, hwinner, hbest, hsame⟩
  · simp [hconflict] at hsome
  · exact ⟨w, s, winner, best, hbetween, hs, hlength, hwinner, hbest, hsame⟩

end Solver

end Raeva
