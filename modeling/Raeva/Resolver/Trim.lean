import Raeva.Resolver.Mediation

/-!
# Operations that only trim groups

Dropping stale shadows and retiring what a winner declared take candidates out
of groups or turn them into shadows, and nothing else happens to the groups.
Every group that changes is mediated again.  `Walk.Trims` is this relation
between the walks before and after; the invariants of the walk follow from it.
-/

namespace Raeva

open List

def Candidate.ComesFrom (c c₀ : Candidate) : Prop :=
  c = c₀ ∨ ∃ origin arc, c = Walk.shadowOf origin arc c₀

namespace Candidate.ComesFrom

variable {c c₀ c₁ : Candidate}

theorem refl (c : Candidate) : c.ComesFrom c :=
  .inl rfl

theorem trans (h : c.ComesFrom c₁) (h' : c₁.ComesFrom c₀) : c.ComesFrom c₀ := by
  rcases h with rfl | ⟨origin, arc, rfl⟩
  · exact h'
  · rcases h' with rfl | ⟨origin', arc', rfl⟩
    · exact .inr ⟨origin, arc, rfl⟩
    · exact .inr ⟨origin, arc, rfl⟩

theorem eq_of_shadow_eq_none (h : c.ComesFrom c₀) (hc : c.item.shadow = none) : c = c₀ := by
  rcases h with rfl | ⟨origin, arc, rfl⟩
  · rfl
  · simp [Walk.shadowOf] at hc

theorem coord_eq (h : c.ComesFrom c₀) : c.coord = c₀.coord := by
  rcases h with rfl | ⟨origin, arc, rfl⟩ <;> rfl

theorem key_eq (h : c.ComesFrom c₀) : c.key = c₀.key := by
  rw [Candidate.key, h.coord_eq, Candidate.key]

theorem path_eq (h : c.ComesFrom c₀) : c.item.path = c₀.item.path := by
  rcases h with rfl | ⟨origin, arc, rfl⟩ <;> rfl

end Candidate.ComesFrom

/-- Only the candidates of a group change, and only by leaving or by turning
into shadows. -/
structure Selected.Trimmed (s s' : Selected) : Prop where
  eq : s' = { s with candidates := s'.candidates }
  comesFrom : ∀ c ∈ s'.candidates, ∃ c₀ ∈ s.candidates, c.ComesFrom c₀

namespace Selected.Trimmed

variable {s s' s'' : Selected}

theorem refl (s : Selected) : s.Trimmed s :=
  ⟨rfl, fun c hc => ⟨c, hc, .refl c⟩⟩

theorem trans (h : s.Trimmed s') (h' : s'.Trimmed s'') : s.Trimmed s'' := by
  refine ⟨?_, fun c hc => ?_⟩
  · rw [h'.eq, h.eq]
  · obtain ⟨c₁, hc₁, hfrom₁⟩ := h'.comesFrom c hc
    obtain ⟨c₀, hc₀, hfrom₀⟩ := h.comesFrom c₁ hc₁
    exact ⟨c₀, hc₀, hfrom₁.trans hfrom₀⟩

theorem node_eq (h : s.Trimmed s') : s'.node = s.node := by
  rw [h.eq]

theorem mem_of_shadow_eq_none (h : s.Trimmed s') {c : Candidate} (hc : c ∈ s'.candidates)
    (hshadow : c.item.shadow = none) : c ∈ s.candidates := by
  obtain ⟨c₀, hc₀, hfrom⟩ := h.comesFrom c hc
  rwa [hfrom.eq_of_shadow_eq_none hshadow]

theorem filter (s : Selected) (p : Candidate → Bool) :
    s.Trimmed (s.withCandidates (s.candidates.filter p)) :=
  ⟨rfl, fun c hc => ⟨c, (mem_filter.mp hc).1, .refl c⟩⟩

end Selected.Trimmed

namespace Walk

/-! ## Small facts about the walk -/

@[simp] theorem lookup_setSelected (w : Walk) (key k : CoordKey) (s : Selected) :
    (w.setSelected key s).selected.lookup k = if k = key then some s else w.selected.lookup k :=
  Table.lookup_insert_eq _ _ _ _

section MarkDirty

variable (w : Walk) (key : CoordKey)

theorem markDirty_eq : w.markDirty key =
      { w with dirty := (w.markDirty key).dirty, dirtySet := insert key w.dirtySet } := by
  unfold markDirty
  split
  · rename_i h
    simp [Finset.insert_eq_self.mpr h]
  · rfl

@[simp] theorem selected_markDirty : (w.markDirty key).selected = w.selected := by
  rw [markDirty_eq]

@[simp] theorem dirtySet_markDirty : (w.markDirty key).dirtySet = insert key w.dirtySet := by
  rw [markDirty_eq]

@[simp] theorem shadows_markDirty : (w.markDirty key).shadows = w.shadows := by
  rw [markDirty_eq]

@[simp] theorem groups_markDirty : (w.markDirty key).groups = w.groups := by
  rw [markDirty_eq]

@[simp] theorem groupOf_markDirty (k : CoordKey) : (w.markDirty key).groupOf k = w.groupOf k := by
  simp [groupOf]

end MarkDirty

/-- The queue of groups to mediate lists its membership set once each. -/
def DirtyOk (w : Walk) : Prop :=
  w.dirty.Nodup ∧ ∀ k, k ∈ w.dirtySet ↔ k ∈ w.dirty

theorem DirtyOk.markDirty {w : Walk} (h : w.DirtyOk) (key : CoordKey) :
    (w.markDirty key).DirtyOk := by
  unfold Walk.markDirty
  split
  · exact h
  rename_i hkey
  have hnot : key ∉ w.dirty := fun hmem => hkey ((h.2 key).mpr hmem)
  refine ⟨nodup_append.mpr ⟨h.1, nodup_singleton key, ?_⟩, fun k => ?_⟩
  · simp only [mem_singleton, forall_eq]
    exact fun a ha hak => hnot (hak ▸ ha)
  · simp [h.2 k, or_comm]

/-- The groups form a forest, and every origin of shadows is a representative. -/
structure ShadowsOk (w : Walk) : Prop where
  forest : ParentMap.Forest w.groups
  root : ∀ k targets, w.shadows.lookup k = some targets → w.groupOf k = k

/-! ## The relation -/

/-- Groups are trimmed, each of them only if it is mediated again or is one of
`T`. -/
structure Trims (T : CoordKey → Prop) (w w' : Walk) : Prop where
  frame : w' = { w with
      selected := w'.selected
      shadows := w'.shadows
      dirty := w'.dirty
      dirtySet := w'.dirtySet
      nextArc := w'.nextArc }
  lookup_none : ∀ k, w.selected.lookup k = none → w'.selected.lookup k = none
  lookup_some : ∀ k s, w.selected.lookup k = some s →
    ∃ s', w'.selected.lookup k = some s' ∧ s.Trimmed s' ∧ (s' = s ∨ T k ∨ k ∈ w'.dirtySet)
  dirtySet_subset : w.dirtySet ⊆ w'.dirtySet
  dirtyOk : w.DirtyOk → w'.DirtyOk
  shadowsOk : w.ShadowsOk → w'.ShadowsOk

namespace Trims

variable {T T' : CoordKey → Prop} {w w' w'' : Walk}

theorem refl (T : CoordKey → Prop) (w : Walk) : Trims T w w where
  frame := rfl
  lookup_none _ h := h
  lookup_some _ s h := ⟨s, h, .refl s, .inl rfl⟩
  dirtySet_subset := Finset.Subset.refl _
  dirtyOk h := h
  shadowsOk h := h

section

variable (h : Trims T w w')

include h

theorem trans (h' : Trims T w' w'') : Trims T w w'' where
  frame := by rw [h'.frame, h.frame]
  lookup_none k hk := h'.lookup_none k (h.lookup_none k hk)
  lookup_some k s hk := by
    obtain ⟨s₁, hs₁, htrim₁, hcase₁⟩ := h.lookup_some k s hk
    obtain ⟨s₂, hs₂, htrim₂, hcase₂⟩ := h'.lookup_some k s₁ hs₁
    refine ⟨s₂, hs₂, htrim₁.trans htrim₂, ?_⟩
    rcases hcase₂ with rfl | hT | hdirty
    · rcases hcase₁ with rfl | hT | hdirty
      · exact .inl rfl
      · exact .inr (.inl hT)
      · exact .inr (.inr (h'.dirtySet_subset hdirty))
    · exact .inr (.inl hT)
    · exact .inr (.inr hdirty)
  dirtySet_subset := h.dirtySet_subset.trans h'.dirtySet_subset
  dirtyOk hok := h'.dirtyOk (h.dirtyOk hok)
  shadowsOk hok := h'.shadowsOk (h.shadowsOk hok)

theorem weaken (hT : ∀ k, T k → T' k ∨ k ∈ w'.dirtySet) : Trims T' w w' where
  __ := h
  lookup_some k s hk := by
    obtain ⟨s', hs', htrim, hcase⟩ := h.lookup_some k s hk
    refine ⟨s', hs', htrim, ?_⟩
    rcases hcase with heq | hTk | hdirty
    · exact .inl heq
    · exact .inr (hT k hTk)
    · exact .inr (.inr hdirty)

theorem graph_eq : w'.graph = w.graph := by rw [h.frame]
theorem generations_eq : w'.generations = w.generations := by rw [h.frame]
theorem nextGeneration_eq : w'.nextGeneration = w.nextGeneration := by rw [h.frame]
theorem groups_eq : w'.groups = w.groups := by rw [h.frame]
theorem declared_eq : w'.declared = w.declared := by rw [h.frame]
theorem queue_eq : w'.queue = w.queue := by rw [h.frame]
theorem walkLoads_eq : w'.walkLoads = w.walkLoads := by rw [h.frame]
theorem relocations_eq : w'.relocations = w.relocations := by rw [h.frame]

theorem groupOf_eq (k : CoordKey) : w'.groupOf k = w.groupOf k := by
  simp [groupOf, h.groups_eq]

theorem lookup_of_lookup {k : CoordKey} {s' : Selected}
    (hk : w'.selected.lookup k = some s') :
    ∃ s, w.selected.lookup k = some s ∧ s.Trimmed s' ∧ (s' = s ∨ T k ∨ k ∈ w'.dirtySet) := by
  cases hs : w.selected.lookup k with
  | none => simp [h.lookup_none k hs] at hk
  | some s =>
    obtain ⟨s₁, hs₁, htrim, hcase⟩ := h.lookup_some k s hs
    obtain rfl : s₁ = s' := Option.some.inj (hs₁.symm.trans hk)
    exact ⟨s, rfl, htrim, hcase⟩

end

theorem markDirty (T : CoordKey → Prop) (w : Walk) (key : CoordKey) :
    Trims T w (w.markDirty key) where
  frame := by rw [markDirty_eq]
  lookup_none k hk := by simpa using hk
  lookup_some k s hk := ⟨s, by simpa using hk, .refl s, .inl rfl⟩
  dirtySet_subset := by simp
  dirtyOk h := h.markDirty key
  shadowsOk h := by
    refine ⟨by simpa using h.forest, fun k targets hk => ?_⟩
    rw [shadows_markDirty] at hk
    simpa using h.root k targets hk

theorem shadows {shadows : Table CoordKey (List CoordKey)}
    (h : w.ShadowsOk → ∀ k targets, shadows.lookup k = some targets → w.groupOf k = k) :
    Trims T w { w with shadows } where
  frame := rfl
  lookup_none _ hk := hk
  lookup_some _ s hk := ⟨s, hk, .refl s, .inl rfl⟩
  dirtySet_subset := Finset.Subset.refl _
  dirtyOk h := h
  shadowsOk hok := ⟨hok.forest, h hok⟩

theorem addShadowTarget (T : CoordKey → Prop) (w : Walk) (origin : ShadowOrigin)
    (key : CoordKey) : Trims T w (w.addShadowTarget origin key) := by
  refine .shadows fun hok k targets hk => ?_
  rw [Table.extend, Table.lookup_insert_eq] at hk
  split at hk
  · rename_i hkey
    subst hkey
    exact ParentMap.root_root hok.forest _
  · exact hok.root k targets hk

theorem setSelected {key : CoordKey} {s s' : Selected} (nextArc : ℕ)
    (hs : w.selected.lookup key = some s) (htrim : s.Trimmed s') (hcase : s' = s ∨ T key) :
    Trims T w ((w.setSelected key s').setNextArc nextArc) where
  frame := rfl
  lookup_none k hk := by
    have hne : k ≠ key := by
      rintro rfl
      simp [hs] at hk
    simp [setNextArc, hne, hk]
  lookup_some k s₁ hk := by
    by_cases hkey : k = key
    · subst hkey
      obtain rfl : s = s₁ := Option.some.inj (hs.symm.trans hk)
      refine ⟨s', by simp [setNextArc], htrim, ?_⟩
      rcases hcase with heq | hT
      · exact .inl heq
      · exact .inr (.inl hT)
    · exact ⟨s₁, by simp [setNextArc, hkey, hk], .refl s₁, .inl rfl⟩
  dirtySet_subset := Finset.Subset.refl _
  dirtyOk h := h
  shadowsOk h := ⟨h.forest, h.root⟩

end Trims

variable {l : List Candidate} {arc : ℕ} {node old : ℕ}
  {convert : Option (ShadowOrigin × PathNode)} {c : Candidate}

theorem revalidateTarget_trims (T : CoordKey → Prop) (group : CoordKey)
    (state : Walk × List CoordKey) (key : CoordKey) :
    Trims T state.1 (revalidateTarget group state key).1 := by
  obtain ⟨w, kept⟩ := state
  unfold revalidateTarget
  simp only
  split
  · exact .refl T w
  cases hs : w.selected.lookup (w.groupOf key) with
  | none => exact .refl T w
  | some s =>
    simp only
    split
    · have hset : Trims (· = w.groupOf key) w
          (w.setSelected (w.groupOf key)
            (s.withCandidates (s.candidates.filter (!w.isStaleShadow group ·)))) :=
        .setSelected w.nextArc hs (.filter s _) (.inr rfl)
      refine (hset.trans (.markDirty _ _ (w.groupOf key))).weaken fun k hk => .inr ?_
      simp [hk]
    · exact .refl T w

theorem foldl_revalidateTarget_trims (T : CoordKey → Prop) (group : CoordKey)
    (targets : List CoordKey) (state : Walk × List CoordKey) :
    Trims T state.1 (targets.foldl (revalidateTarget group) state).1 := by
  induction targets generalizing state with
  | nil => exact .refl T _
  | cons key targets ih => exact (revalidateTarget_trims T group state key).trans (ih _)

theorem revalidateShadows_trims (T : CoordKey → Prop) (w : Walk) (group : CoordKey) :
    Trims T w (w.revalidateShadows group) := by
  unfold revalidateShadows
  cases htargets : w.shadows.lookup group with
  | none => exact .refl T w
  | some targets =>
    have herase : Trims T w { w with shadows := w.shadows.erase group } := by
      refine .shadows fun hok k targets' hk => ?_
      rw [Table.lookup_erase_eq] at hk
      split at hk
      · cases hk
      · exact hok.root k targets' hk
    have hfold := herase.trans (foldl_revalidateTarget_trims T group targets (_, []))
    simp only
    split
    · exact hfold
    -- The origin comes back with what it kept; it was a representative.
    refine ⟨?_, hfold.lookup_none, hfold.lookup_some, hfold.dirtySet_subset, hfold.dirtyOk,
      fun hok => ⟨(hfold.shadowsOk hok).forest, fun k targets' hk => ?_⟩⟩
    · conv_lhs => rw [hfold.frame]
    have hgroup : w.groupOf group = group := hok.root group targets htargets
    rw [Table.lookup_insert_eq] at hk
    split at hk
    · rename_i hkey
      subst hkey
      exact (hfold.groupOf_eq k).trans hgroup
    · exact (hfold.shadowsOk hok).root k targets' hk

/-! ## Retired declarations -/

theorem comesFrom_of_mem_retireCandidates (hc : c ∈ (retireCandidates node old convert l arc).1) :
    ∃ c₀ ∈ l, c.ComesFrom c₀ := by
  induction l generalizing arc with
  | nil => simp [retireCandidates] at hc
  | cons a l ih =>
    have hrest {arc : ℕ} (h : c ∈ (retireCandidates node old convert l arc).1) :
        ∃ c₀ ∈ a :: l, c.ComesFrom c₀ := by
      obtain ⟨c₀, hc₀, hfrom⟩ := ih h
      exact ⟨c₀, mem_cons_of_mem a hc₀, hfrom⟩
    unfold retireCandidates at hc
    split at hc
    · split at hc
      · rcases mem_cons.mp hc with rfl | hc
        · exact ⟨a, mem_cons_self, .inr ⟨_, _, rfl⟩⟩
        · exact hrest hc
      · exact hrest hc
    · rcases mem_cons.mp hc with rfl | hc
      · exact ⟨c, mem_cons_self, .refl c⟩
      · exact hrest hc

theorem not_isDeclaredBy_of_mem_retireCandidates
    (hc : c ∈ (retireCandidates node old convert l arc).1) : isDeclaredBy node old c = false := by
  induction l generalizing arc with
  | nil => simp [retireCandidates] at hc
  | cons a l ih =>
    unfold retireCandidates at hc
    split at hc
    · split at hc
      · rcases mem_cons.mp hc with rfl | hc
        · simp [isDeclaredBy, shadowOf]
        · exact ih hc
      · exact ih hc
    · rename_i hdeclared
      rcases mem_cons.mp hc with rfl | hc
      · simpa using hdeclared
      · exact ih hc

theorem retireCandidates_eq_self (h : ∀ c ∈ l, isDeclaredBy node old c = false) :
    retireCandidates node old convert l arc = (l, arc) := by
  induction l with
  | nil => rfl
  | cons a l ih =>
    simp [retireCandidates, h a mem_cons_self, ih fun c hc => h c (mem_cons_of_mem a hc)]

section RetireKey

variable (node old : ℕ) (convert : Option (ShadowOrigin × PathNode))

theorem retireKey_trims (state : Walk × List CoordKey) (key : CoordKey) :
    Trims (· ∈ (retireKey node old convert state key).2) state.1
      (retireKey node old convert state key).1 := by
  obtain ⟨w, touched⟩ := state
  unfold retireKey
  simp only
  split
  · exact .refl _ w
  cases hs : w.selected.lookup (w.groupOf key) with
  | none => exact .refl _ w
  | some s =>
    simp only
    generalize convert.filter (fun x => w.mediatedBefore (w.groupOf key) x.1.group) = convert'
    generalize hres : retireCandidates node old convert' s.candidates w.nextArc = res
    have hset : Trims (· ∈ if s.candidates.any (isDeclaredBy node old) = true
          then touched ++ [w.groupOf key] else touched) w
        ((w.setSelected (w.groupOf key) (s.withCandidates res.1)).setNextArc res.2) := by
      refine .setSelected res.2 hs ⟨rfl, fun c hc => ?_⟩ ?_
      · subst hres
        exact comesFrom_of_mem_retireCandidates hc
      cases hany : s.candidates.any (isDeclaredBy node old) with
      | true => exact .inr (by simp)
      | false =>
        rw [retireCandidates_eq_self (by simpa using hany)] at hres
        subst hres
        exact .inl rfl
    cases Option.filter (fun x => s.candidates.any fun c =>
      isDeclaredBy node old c && x.2.contains c.key) convert' with
    | none => exact hset
    | some converted => exact hset.trans (.addShadowTarget _ _ converted.1 _)

theorem subset_retireKey (state : Walk × List CoordKey) (key : CoordKey) :
    state.2 ⊆ (retireKey node old convert state key).2 := by
  obtain ⟨w, touched⟩ := state
  unfold retireKey
  simp only
  split
  · exact .refl touched
  cases w.selected.lookup (w.groupOf key) with
  | none => exact .refl touched
  | some s =>
    simp only
    split
    · exact subset_append_left touched _
    · exact .refl touched

theorem foldl_retireKey_trims (keys : List CoordKey) (state : Walk × List CoordKey) :
    state.2 ⊆ (keys.foldl (retireKey node old convert) state).2 ∧
      Trims (· ∈ (keys.foldl (retireKey node old convert) state).2) state.1
        (keys.foldl (retireKey node old convert) state).1 := by
  induction keys generalizing state with
  | nil => exact ⟨.refl _, .refl _ _⟩
  | cons key keys ih =>
    obtain ⟨hsubset, htrims⟩ := ih (retireKey node old convert state key)
    refine ⟨List.Subset.trans (subset_retireKey node old convert state key) hsubset, ?_⟩
    exact ((retireKey_trims node old convert state key).weaken
      fun k hk => .inl (hsubset hk)).trans htrims

/-- No candidate of the group `k` is one that `node` declared in generation
`old`. -/
def Cleared (w : Walk) (k : CoordKey) : Prop :=
  ∀ s, w.selected.lookup k = some s → ∀ c ∈ s.candidates, isDeclaredBy node old c = false

variable {node old} {state : Walk × List CoordKey}

theorem Trims.cleared {T : CoordKey → Prop} {w w' : Walk} {k : CoordKey} (h : Trims T w w')
    (hk : Cleared node old w k) : Cleared node old w' k := by
  intro s' hs' c hc
  obtain ⟨s, hs, htrim, -⟩ := h.lookup_of_lookup hs'
  cases hshadow : c.item.shadow with
  | some origin => simp [isDeclaredBy, hshadow]
  | none => exact hk s hs c (htrim.mem_of_shadow_eq_none hc hshadow)

theorem retireKey_cleared (key : CoordKey) (h : ∀ k ∈ state.2, Cleared node old state.1 k) :
    Cleared node old (retireKey node old convert state key).1 (state.1.groupOf key) ∧
      ∀ k ∈ (retireKey node old convert state key).2,
        Cleared node old (retireKey node old convert state key).1 k := by
  have hown : Cleared node old (retireKey node old convert state key).1 (state.1.groupOf key) := by
    obtain ⟨w, touched⟩ := state
    unfold retireKey
    simp only
    split
    · rename_i hmem
      exact h _ hmem
    cases hs : w.selected.lookup (w.groupOf key) with
    | none =>
      intro s hs'
      simp only [hs] at hs'
      cases hs'
    | some s =>
      simp only
      generalize convert.filter (fun x => w.mediatedBefore (w.groupOf key) x.1.group) = convert'
      have hset : Cleared node old ((w.setSelected (w.groupOf key) (s.withCandidates
          (retireCandidates node old convert' s.candidates w.nextArc).1)).setNextArc
          (retireCandidates node old convert' s.candidates w.nextArc).2) (w.groupOf key) := by
        intro s' hs' c hc
        simp only [setNextArc, lookup_setSelected, if_true, Option.some.injEq] at hs'
        subst hs'
        exact not_isDeclaredBy_of_mem_retireCandidates hc
      cases Option.filter (fun x => s.candidates.any fun c =>
        isDeclaredBy node old c && x.2.contains c.key) convert' with
      | none | some converted => exact hset
  refine ⟨hown, fun k hk => ?_⟩
  by_cases hkey : k = state.1.groupOf key
  · rw [hkey]
    exact hown
  refine (retireKey_trims node old convert state key).cleared (h k ?_)
  -- Only the group of `key` joins those touched.
  obtain ⟨w, touched⟩ := state
  unfold retireKey at hk
  simp only at hk hkey ⊢
  split at hk
  · exact hk
  cases hs : w.selected.lookup (w.groupOf key) with
  | none => simpa [hs] using hk
  | some s =>
    simp only [hs] at hk
    split at hk
    · simpa [hkey] using hk
    · exact hk

theorem foldl_retireKey_cleared {keys : List CoordKey}
    (h : ∀ k ∈ state.2, Cleared node old state.1 k) :
    ∀ k ∈ keys, Cleared node old (keys.foldl (retireKey node old convert) state).1
      (state.1.groupOf k) := by
  induction keys generalizing state with
  | nil => simp
  | cons key keys ih =>
    obtain ⟨hown, hall⟩ := retireKey_cleared convert key h
    have htrims := retireKey_trims node old convert state key
    intro k hk
    rcases mem_cons.mp hk with rfl | hk
    · exact (foldl_retireKey_trims node old convert keys _).2.cleared hown
    · have := ih hall k hk
      rwa [htrims.groupOf_eq] at this

end RetireKey

theorem foldl_revalidate_trims (T : CoordKey → Prop) (touched : List CoordKey) (w : Walk) :
    Trims T w (touched.foldl (fun w key => (w.revalidateShadows key).markDirty key) w) ∧
      ∀ k ∈ touched,
        k ∈ (touched.foldl (fun w key => (w.revalidateShadows key).markDirty key) w).dirtySet := by
  induction touched generalizing w with
  | nil => exact ⟨.refl T w, by simp⟩
  | cons key touched ih =>
    have hstep : Trims T w ((w.revalidateShadows key).markDirty key) :=
      (revalidateShadows_trims T w key).trans (.markDirty T _ key)
    obtain ⟨htrims, hdirty⟩ := ih ((w.revalidateShadows key).markDirty key)
    refine ⟨hstep.trans htrims, fun k hk => ?_⟩
    rcases mem_cons.mp hk with rfl | hk
    · exact htrims.dirtySet_subset (by simp)
    · exact hdirty k hk

theorem retire_trims (T : CoordKey → Prop) (w : Walk) (node : ℕ)
    (convert : Option (ShadowOrigin × PathNode)) :
    Trims T (w.renew node) (w.retire node convert) := by
  unfold retire
  simp only
  generalize hres : ((w.declared.lookup node).getD []).foldl
    (retireKey node (w.generations[node]?.getD 0) convert) (w.renew node, []) = res
  have hfold := (foldl_retireKey_trims node (w.generations[node]?.getD 0) convert
    ((w.declared.lookup node).getD []) (w.renew node, [])).2
  rw [hres] at hfold
  obtain ⟨htrims, hdirty⟩ := foldl_revalidate_trims (· ∈ res.2) res.2 res.1
  exact (hfold.trans htrims).weaken fun k hk => .inr (hdirty k hk)

/-- A retired node leaves no candidate of its old generation. -/
theorem retire_cleared (w : Walk) (node : ℕ) (convert : Option (ShadowOrigin × PathNode)) :
    ∀ k ∈ (w.declared.lookup node).getD [],
      Cleared node (w.generations[node]?.getD 0) (w.retire node convert) (w.groupOf k) := by
  intro k hk
  unfold retire
  simp only
  have hnone : ∀ k ∈ (w.renew node, ([] : List CoordKey)).2,
      Cleared node (w.generations[node]?.getD 0) (w.renew node) k := by simp
  have hfold := foldl_retireKey_cleared convert hnone k hk
  exact (foldl_revalidate_trims (fun _ => True) _ _).1.cleared hfold

end Walk

end Raeva
