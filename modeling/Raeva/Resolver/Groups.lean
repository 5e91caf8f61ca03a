import Raeva.Resolver.Memory

/-!
# Conflict groups and the declarations in them

In every state of a resolution the conflict groups are the classes of a
forest, and every declaration in a group was made by the present winner of its
parent.
-/

namespace Raeva

namespace Walk

theorem groupOf_union_iff {w : Walk} (h : w.Sound) (source target a b : CoordKey) :
    (w.union source target).groupOf a = (w.union source target).groupOf b ↔
      w.groupOf a = w.groupOf b ∨
        (w.groupOf a = w.groupOf source ∨ w.groupOf a = w.groupOf target) ∧
          (w.groupOf b = w.groupOf source ∨ w.groupOf b = w.groupOf target) := by
  rw [groupOf_union h, groupOf_union h]
  unfold rename
  by_cases ha : w.groupOf a = w.groupOf target <;> by_cases hb : w.groupOf b = w.groupOf target
  · simp [ha, hb]
  · rw [if_pos ha, if_neg hb]
    constructor
    · exact fun heq => .inr ⟨.inr ha, .inl heq.symm⟩
    rintro (heq | ⟨-, hb' | hb'⟩)
    · exact absurd (heq ▸ ha) hb
    · exact hb'.symm
    · exact absurd hb' hb
  · rw [if_neg ha, if_pos hb]
    constructor
    · exact fun heq => .inr ⟨.inl heq, .inr hb⟩
    rintro (heq | ⟨ha' | ha', -⟩)
    · exact absurd (heq ▸ hb) ha
    · exact ha'
    · exact absurd ha' ha
  · rw [if_neg ha, if_neg hb]
    constructor
    · exact .inl
    rintro (heq | ⟨ha' | ha', hb' | hb'⟩)
    · exact heq
    · exact ha'.trans hb'.symm
    · exact absurd hb' hb
    · exact absurd ha' ha
    · exact absurd ha' ha

end Walk

namespace Solver

/-- In every state the parent map is a forest, what is selected and what has
shadows is a representative, and a union joins exactly the classes of its two
keys. -/
theorem groups_are_classes [Lowercase] {solver : Solver} {root : SolverRoot} {w : Walk}
    (h : Reached anyStep solver root w) :
    ParentMap.Acyclic w.groups ∧
      (∀ k, ∃ r, ParentMap.climb w.groups w.groups.keys.length k = some r) ∧
      (∀ k s, w.selected.lookup k = some s → w.groupOf k = k) ∧
      (∀ k targets, w.shadows.lookup k = some targets → w.groupOf k = k) ∧
      ∀ source target,
        (w.union source target).groupOf source = (w.union source target).groupOf target ∧
        ∀ a b, (w.union source target).groupOf a = (w.union source target).groupOf b ↔
          w.groupOf a = w.groupOf b ∨
            (w.groupOf a = w.groupOf source ∨ w.groupOf a = w.groupOf target) ∧
              (w.groupOf b = w.groupOf source ∨ w.groupOf b = w.groupOf target) := by
  have hsound := h.sound
  refine ⟨hsound.shadowsOk.forest.acyclic, hsound.shadowsOk.forest, fun k s hs => ?_,
    hsound.shadowsOk.root, fun source target => ⟨?_, Walk.groupOf_union_iff hsound source target⟩⟩
  · exact hsound.selectedRoot k s.node (Walk.nodeOf_of_lookup hs)
  · rw [Walk.groupOf_union_iff hsound]
    exact .inr ⟨.inl rfl, .inr rfl⟩

local instance groupsLowercase : Lowercase :=
  asciiLowercase

/-- After `x` has relocated to `e` the two are one class. -/
theorem groups_are_classes_relocated :
    ∃ w, Reached anyStep (.ofProjects [.moved ['x'] ['1'] ['e'] ['1'], .of ['e'] ['1'] []])
        (.of [.on ['x'] ['1'] []]) w ∧
      w.groupOf (.of ['e']) = .of ['x'] ∧ ParentMap.Acyclic w.groups := by
  obtain ⟨w, hbetween, hgroup⟩ := exists_between (N := anyStep) (fun _ _ _ => trivial)
    (show (walkAfter (.ofProjects [.moved ['x'] ['1'] ['e'] ['1'], .of ['e'] ['1'] []])
      (.of [.on ['x'] ['1'] []]) (fun _ _ => true) 1).any
        (fun w => w.groupOf (.of ['e']) == .of ['x']) = true by decide +kernel)
  exact ⟨w, .between hbetween, by simpa using hgroup, (groups_are_classes (.between hbetween)).1⟩

/-- Every declared candidate was declared by the present winner of its
parent. -/
theorem declared_candidate_is_current [Lowercase] {solver : Solver} {root : SolverRoot} {w : Walk}
    (h : Reached anyStep solver root w) (k : CoordKey) (s : Selected)
    (hs : w.selected.lookup k = some s) (c : Candidate) (hc : c ∈ s.candidates)
    (hshadow : c.item.shadow = none) :
    w.generations[c.item.parent]? = some c.item.parentGeneration :=
  (h.sound.fits k c ⟨s, hs, hc⟩).current hshadow

/-- What `m` declares is a candidate of its present winner. -/
theorem declared_candidate_is_current_below :
    ∃ w c, Reached anyStep (.ofProjects [.of ['m'] ['1'] [.on ['l'] ['1'] []], .of ['l'] ['1'] []])
        (.of [.on ['m'] ['1'] []]) w ∧
      w.Holds (.of ['l']) c ∧ c.item.parent = 1 ∧
      w.generations[c.item.parent]? = some c.item.parentGeneration := by
  obtain ⟨w, hbetween, hheld⟩ := exists_between (N := anyStep) (fun _ _ _ => trivial)
    (show (walkAfter (.ofProjects [.of ['m'] ['1'] [.on ['l'] ['1'] []], .of ['l'] ['1'] []])
      (.of [.on ['m'] ['1'] []]) (fun _ _ => true) 2).any
        (fun w => (w.selected.lookup (.of ['l'])).any fun s =>
          s.candidates.any fun c => c.item.parent == 1 && c.item.shadow.isNone) = true
      by decide +kernel)
  simp only [Option.any_eq_true, List.any_eq_true, Bool.and_eq_true, beq_iff_eq,
    Option.isNone_iff_eq_none] at hheld
  obtain ⟨s, hs, c, hc, hparent, hshadow⟩ := hheld
  exact ⟨w, c, .between hbetween, ⟨s, hs, hc⟩, hparent,
    declared_candidate_is_current (.between hbetween) _ s hs c hc hshadow⟩

end Solver

end Raeva
