import Raeva.Resolver.Memory
import Raeva.Resolver.Provenance

/-!
# Artifacts below themselves

A declaration that lies below its own artifact is cut, and a union drops the
candidates that it puts below their own group.  It does not look for them when
nothing is selected in the group it merges, so a candidate can end up in the
group of a key on its own path.
-/

namespace Raeva

open List

namespace Walk

/-- No candidate lies below a key of its group. -/
def Apart (w : Walk) : Prop :=
  ∀ k c, w.Holds k c → ∀ p ∈ c.item.path.keys, w.groupOf p ≠ k

/-- Nothing is selected in the group of `target`, and a key of that group lies on the
path of a candidate in the group of `source`. -/
def Sinks (w : Walk) (source target : CoordKey) : Prop :=
  w.selected.lookup (w.groupOf target) = none ∧
    ∃ c, w.Holds (w.groupOf source) c ∧ ∃ p ∈ c.item.path.keys, w.groupOf p = w.groupOf target

/-- The keys that the action merges, if any, sink no candidate. -/
def KeepsApart (w w' : Walk) : Prop :=
  ∀ source target, w' = w.union source target → ¬w.Sinks source target

variable {w : Walk} {c : Candidate} {p : CoordKey}

theorem not_mem_of_dropBeneath {into : CoordKey} (hroot : w.groupOf into = into)
    (h : (w.dropBeneath into).Holds into c) (hp : p ∈ c.item.path.keys) : w.groupOf p ≠ into := by
  unfold dropBeneath at h
  split at h
  · rename_i hnone
    obtain ⟨s, hs, -⟩ := h
    rw [hnone] at hs
    cases hs
  · rw [holds_setSelected, if_pos rfl] at h
    have hfilter := (mem_filter.mp h).2
    rw [Bool.not_eq_true', ← Bool.not_eq_true, beneathOwnGroup_iff] at hfilter
    exact fun heq => hfilter ⟨p, hp, heq.trans hroot.symm⟩

/-- A union takes out the candidates that it would bring below their own group. -/
theorem union_filters (h : w.Sound) {source target : CoordKey} {moved : Selected}
    (hne : w.groupOf source ≠ w.groupOf target)
    (hmoved : w.selected.lookup (w.groupOf target) = some moved)
    (hc : (w.union source target).Holds (w.groupOf source) c) (hp : p ∈ c.item.path.keys) :
    (w.union source target).groupOf p ≠ w.groupOf source := by
  have hroot : (w.union source target).groupOf (w.groupOf source) = w.groupOf source := by
    rw [groupOf_union h, rename, h.groupOf_groupOf, if_neg hne]
  have hunion :
      w.union source target = ((((w.link (w.groupOf target) (w.groupOf source)).eraseSelected
      (w.groupOf target)).absorb (w.groupOf source) moved).dropBeneath
        (w.groupOf source)).markDirty (w.groupOf source) := by
    unfold union
    simp only [if_neg hne, selected_link, hmoved]
  rw [hunion] at hc hroot ⊢
  generalize ((w.link (w.groupOf target) (w.groupOf source)).eraseSelected
    (w.groupOf target)).absorb (w.groupOf source) moved = w₁ at hc hroot ⊢
  have hgroup (k : CoordKey) : ((w₁.dropBeneath (w.groupOf source)).markDirty
      (w.groupOf source)).groupOf k = w₁.groupOf k := by
    rw [groupOf_markDirty]
    unfold dropBeneath
    split <;> rfl
  rw [hgroup] at hroot ⊢
  exact not_mem_of_dropBeneath hroot (by rwa [Holds, selected_markDirty] at hc) hp

theorem selected_union_of_none {source target : CoordKey}
    (h : w.selected.lookup (w.groupOf target) = none) :
    (w.union source target).selected = w.selected := by
  unfold union
  simp only
  split
  · rfl
  · simp [h]

/-- A union leaves every candidate apart from its own group just if it sinks none. -/
theorem apart_union_iff (h : w.Sound) (hapart : w.Apart) (source target : CoordKey) :
    (w.union source target).Apart ↔ ¬w.Sinks source target := by
  have hgroup := groupOf_union h source target
  constructor
  · rintro hunion ⟨hnone, c, hc, p, hp, heq⟩
    refine hunion (w.groupOf source) c ?_ p hp ?_
    · rwa [Holds, selected_union_of_none hnone]
    · rw [hgroup, rename, if_pos heq]
  · intro hkeeps k c hc p hp heq
    obtain ⟨k₀, c₀, hc₀, hfrom⟩ := (union_inherits h source target).candidate k c hc
    have hp₀ : p ∈ c₀.item.path.keys := hfrom.path_eq ▸ hp
    have hne := hapart k₀ c₀ hc₀ p hp₀
    have hk : rename (w.groupOf target) (w.groupOf source) k₀ = k := by
      rw [← ((h.union source target).fits k c hc).member, hfrom.key_eq, hgroup,
        (h.fits k₀ c₀ hc₀).member]
    have heq' : rename (w.groupOf target) (w.groupOf source) (w.groupOf p) = k := by
      rw [← hgroup, heq]
    unfold rename at hk heq'
    have hst : w.groupOf source ≠ w.groupOf target := by
      intro hst
      apply hne
      split at hk <;> split at heq' <;> simp_all
    cases hmoved : w.selected.lookup (w.groupOf target) with
    | none =>
      -- Only the class of `p` can have moved.
      have hk₀ : k₀ ≠ w.groupOf target := by
        obtain ⟨s, hs, -⟩ := hc₀
        rintro rfl
        rw [hmoved] at hs
        cases hs
      rw [if_neg hk₀] at hk
      subst hk
      split at heq'
      · rename_i htarget
        exact hkeeps ⟨hmoved, c₀, heq' ▸ hc₀, p, hp₀, htarget⟩
      · exact hne heq'
    | some moved =>
      have hinto : k = w.groupOf source := by
        split at hk
        · exact hk.symm
        · split at heq'
          · exact heq'.symm
          · exact absurd (heq'.trans hk.symm) hne
      subst hinto
      exact union_filters h hst hmoved hc hp heq

end Walk

namespace Stage

variable [Lowercase] {st st' : Stage} {solver : Solver}

/-- Where the groups of all keys stay, candidates stay apart: what joins was not
below its own group. -/
theorem apart_of_groups_eq (hok : st.Ok) (hok' : st'.Ok)
    (hgroups : st'.walk.groups = st.walk.groups) (horigins : Origins solver st st')
    (hapart : st.walk.Apart) : st'.walk.Apart := by
  intro k c hc p hp heq
  have hgroup (k : CoordKey) : st'.walk.groupOf k = st.walk.groupOf k := by
    rw [Walk.groupOf, Walk.groupOf, hgroups]
  have hk := (hok'.sound.fits k c hc).member
  rw [hgroup] at heq hk
  rcases horigins.candidate k c hc with ⟨k₀, c₀, hc₀, hfrom⟩ | ⟨r, hr, hbelow, arc, hmem⟩
  · obtain ⟨hkey, hpath⟩ : c.key = c₀.key ∧ c.item.path = c₀.item.path := by
      rcases hfrom with hfrom | hrefreshed
      · exact ⟨hfrom.key_eq, hfrom.path_eq⟩
      · obtain ⟨⟨arc, resolved, resolvedProject, rfl⟩, -⟩ := hrefreshed
        exact ⟨rfl, rfl⟩
    rw [hkey, (hok.sound.fits k₀ c₀ hc₀).member] at hk
    exact hapart k₀ c₀ hc₀ p (hpath ▸ hp) (heq.trans hk.symm)
  · obtain ⟨hitem, hkey⟩ := Walk.mem_versions hmem
    exact hbelow ⟨p, hitem ▸ hp, by rw [heq, ← hk, hkey]⟩

/-- An action leaves every candidate apart from its own group just if it is no union
that sinks one. -/
theorem Act.apart_iff (hok : st.Ok) (hapart : st.walk.Apart)
    (hact : Act solver st st') : st'.walk.Apart ↔ st.walk.KeepsApart st'.walk := by
  rcases hact.groups_eq with hgroups | ⟨r, hr, source, heq⟩
  · refine iff_of_true (apart_of_groups_eq hok (hok.act hact) hgroups (hact.origins hok) hapart) ?_
    rintro source target hunion ⟨hnone, c, ⟨s, hs, -⟩, p, -, hp⟩
    have hmoved := Walk.groupOf_union hok.sound source target p
    rw [← hunion, Walk.groupOf, hgroups, ← Walk.groupOf, Walk.rename, if_pos hp, hp] at hmoved
    rw [hmoved, hs] at hnone
    cases hnone
  · have hunion := Walk.apart_union_iff hok.sound hapart
    constructor
    · intro hst source' target' heq'
      exact (hunion source' target').mp (heq' ▸ hst)
    · intro hkeeps
      exact heq ▸ (hunion source r.candidate.key).mpr (hkeeps source r.candidate.key heq)

theorem Reach.apart {root : SolverRoot}
    (h : Reach Walk.KeepsApart solver root st) : st.walk.Apart := by
  induction h with
  | start h =>
    obtain ⟨node, hqueues⟩ := start_queues h
    rintro k c ⟨s, hs, -⟩
    rw [hqueues.lookup_none k rfl] at hs
    cases hs
  | act hreach hact hN ih => exact (hact.apart_iff hreach.ok ih).mpr hN
  | turn hreach hturn ih =>
    exact apart_of_groups_eq hreach.ok (hreach.ok.turn hturn) hturn.groups_eq hturn.origins ih

end Stage

namespace Solver

/-- In every resolution whose unions sink no candidate, no candidate lies below a key of
its own group; and from there a union leaves it so just if it sinks none. -/
theorem no_candidate_below_its_group [Lowercase] {solver : Solver} {root : SolverRoot} {w : Walk}
    (h : Reached Walk.KeepsApart solver root w) :
    (∀ k s, w.selected.lookup k = some s → ∀ c ∈ s.candidates, ∀ p ∈ c.item.path.keys,
      w.groupOf p ≠ k) ∧
    ∀ source target, (w.union source target).Apart ↔ ¬w.Sinks source target := by
  obtain ⟨e, hand, hvisits⟩ := h.seen
  have hapart := Stage.Reach.apart hvisits
  refine ⟨?_, Walk.apart_union_iff hvisits.ok.sound hapart⟩
  intro k s hs c hc p hp
  exact hapart k c ⟨s, hs, hc⟩ p hp

local instance ancestryLowercase : Lowercase :=
  asciiLowercase

/-- Two ways lead to `l`, and one of them excludes `e` and `f`.  Below the other
`e` leads back to `x`, and `f` to a version of `x` that moved to `e`. -/
def circular : Solver :=
  ofProjects
    [.of ['x'] ['1'] [.on ['l'] ['1'] [['e'], ['f']]], .of ['m'] ['1'] [.on ['l'] ['1'] []],
      .of ['l'] ['1'] [.on ['e'] ['1'] [], .on ['f'] ['1'] []],
      .of ['e'] ['1'] [.on ['x'] ['1'] []],
      .of ['f'] ['1'] [.on ['x'] ['2'] []],
      .moved ['x'] ['2'] ['e'] ['9'],
      .of ['e'] ['9'] []]

def circularRoot : SolverRoot :=
  .of [.on ['x'] ['1'] [], .on ['m'] ['1'] []]

/-- Where a union sinks a candidate, it puts the group of a key on its path into its own. -/
def keepsApart (w w' : Walk) : Bool :=
  w.selected.entries.all fun ⟨k, s⟩ => s.candidates.all fun c => c.item.path.keys.all fun p =>
    (w.selected.lookup (w.groupOf p)).isSome || w'.groups.lookup (w.groupOf p) != some k

theorem keepsApart_of_check {w w' : Walk} (h : keepsApart w w' = true) : w.KeepsApart w' := by
  rintro source target rfl ⟨hnone, c, ⟨s, hs, hc⟩, p, hp, hgroup⟩
  have hne : w.groupOf source ≠ w.groupOf target := by
    intro heq
    rw [heq, hnone] at hs
    cases hs
  have hlinked : (w.union source target).groups.lookup (w.groupOf target) =
      some (w.groupOf source) := by
    unfold Walk.union
    simp only [if_neg hne, Walk.selected_link, hnone]
    unfold Walk.link
    simp only
    split <;> simp
  simp only [keepsApart, all_eq_true] at h
  have hentry := h ⟨_, s⟩ (AList.mem_lookup_iff.mp hs) c hc p hp
  rw [hgroup, hnone, hlinked] at hentry
  simp at hentry

/-- The shadow of `e` below `l` is apart from the groups above it. -/
theorem no_candidate_below_its_group_circular :
    ∃ w s c, Reached Walk.KeepsApart circular circularRoot w ∧
      w.selected.lookup (.of ['x']) = some s ∧ c ∈ s.candidates ∧
      c.item.path.keys = [.of ['e'], .of ['l'], .of ['m']] ∧
      (∀ p ∈ c.item.path.keys, w.groupOf p ≠ .of ['x']) ∧
      ∀ source target, (w.union source target).Apart ↔ ¬w.Sinks source target := by
  obtain ⟨w, hbetween, hheld⟩ := exists_between (fun _ _ => keepsApart_of_check)
    (show (walkAfter circular circularRoot keepsApart 10).any
      (fun w => (w.selected.lookup (.of ['x'])).any fun s =>
        s.candidates.any fun c => c.item.path.keys == [.of ['e'], .of ['l'], .of ['m']]) = true
      by decide +kernel)
  simp only [Option.any_eq_true, any_eq_true, beq_iff_eq] at hheld
  obtain ⟨s, hs, c, hc, hpath⟩ := hheld
  obtain ⟨hapart, hunion⟩ := no_candidate_below_its_group (.between hbetween)
  exact ⟨w, s, c, .between hbetween, hs, hc, hpath, hapart _ s hs c hc, hunion⟩

/-- At the end that shadow is in the group of `e`, which is on its path. -/
theorem candidate_below_its_group :
    ∃ w s c, Reached anyStep circular circularRoot w ∧
      w.selected.lookup (.of ['x']) = some s ∧ c ∈ s.candidates ∧
      .of ['e'] ∈ c.item.path.keys ∧ w.groupOf (.of ['e']) = .of ['x'] := by
  obtain ⟨w, hbetween, hheld⟩ := exists_between (N := anyStep) (fun _ _ _ => trivial)
    (show (walkAfter circular circularRoot (fun _ _ => true) 12).any
      (fun w => w.groupOf (.of ['e']) == .of ['x'] && (w.selected.lookup (.of ['x'])).any fun s =>
          s.candidates.any fun c => c.item.path.keys.any (· == .of ['e'])) = true
      by decide +kernel)
  simp only [Bool.and_eq_true, Option.any_eq_true, any_eq_true, beq_iff_eq] at hheld
  obtain ⟨hgroup, s, hs, c, hc, p, hp, rfl⟩ := hheld
  exact ⟨w, s, c, .between hbetween, hs, hc, hp, hgroup⟩

end Solver

end Raeva
