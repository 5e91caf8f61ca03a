import Raeva.Lock.UnlistedRows

/-!
# The edges of lockfiles without a line between them

An edge is compared by the keys of the packages that it joins, and the keys are
those of the paired versions, so the edges of one side are those of the other.
How often an edge is listed is not compared.
-/

namespace Raeva.Lock

open List

/-! ## The states of an edge -/

variable {key : DepKey × DepKey}

theorem EdgeMap.mem_states {map : EdgeMap} {state : EdgeState} :
    state ∈ map.states key ↔ (key, state) ∈ map := by
  simp only [EdgeMap.states, mem_sortBy, mem_dedup, mem_map, mem_filter, decide_eq_true_eq]
  constructor
  · rintro ⟨edge, ⟨hmem, rfl⟩, rfl⟩
    exact hmem
  · intro hmem
    exact ⟨_, ⟨hmem, rfl⟩, rfl⟩

theorem edgePairs_eq_nil {old new removed added : List EdgeState}
    (h : edgePairs key old new removed added = []) (hne : ∀ a ∈ removed, ∀ b ∈ added, a ≠ b) :
    removed = [] ∧ added = [] := by
  cases removed with
  | nil =>
    cases added with
    | nil => exact ⟨rfl, rfl⟩
    | cons b added => simp [edgePairs] at h
  | cons a removed =>
    cases added with
    | nil => simp [edgePairs] at h
    | cons b added =>
      rw [edgePairs, append_eq_nil_iff, append_eq_nil_iff] at h
      obtain ⟨⟨hscope, hoptional⟩, -⟩ := h
      have hstate : a = b := by
        refine Prod.ext ?_ ?_
        · by_contra hdiffer
          rw [if_pos hdiffer] at hscope
          cases hscope
        · by_contra hdiffer
          rw [if_pos hdiffer] at hoptional
          cases hoptional
      exact absurd hstate (hne a mem_cons_self b mem_cons_self)

theorem edgeChangesOf_eq_nil {before after : EdgeMap} (h : edgeChangesOf before after key = [])
    (state : EdgeState) : (key, state) ∈ before ↔ (key, state) ∈ after := by
  obtain ⟨hremoved, hadded⟩ := edgePairs_eq_nil h fun a ha b hb hab => by
    rw [mem_filter, decide_eq_true_eq] at ha hb
    exact ha.2 (hab ▸ hb.1)
  rw [filter_eq_nil_iff] at hremoved hadded
  rw [← EdgeMap.mem_states, ← EdgeMap.mem_states]
  constructor
  · intro hmem
    simpa using hremoved state hmem
  · intro hmem
    simpa using hadded state hmem

/-- The edges of one lockfile with the keys of the paired versions, but for those that
the other records the same. -/
abbrev edgesBetween (old new lock other : Lockfile) : EdgeMap :=
  edgeMap lock other none (oldBetween old new) (newBetween old new)

theorem Unlisted.mem_edgeMap_iff [UrlParser] {old new : Lockfile} (h : Unlisted old new)
    (edge : (DepKey × DepKey) × EdgeState) :
    edge ∈ edgesBetween old new old new ↔ edge ∈ edgesBetween old new new old := by
  have hnil : edgeChanges old new none (oldBetween old new) (newBetween old new) = [] := h.edges
  by_cases hkey : edge.1 ∈
      (edgesBetween old new old new ++ edgesBetween old new new old).map Prod.fst
  · exact edgeChangesOf_eq_nil (flatMap_eq_nil_iff.mp hnil edge.1
      ((mem_sortBy _).mpr (mem_dedup.mpr hkey))) edge.2
  · rw [map_append, mem_append, not_or] at hkey
    exact ⟨fun hmem => absurd (mem_map_of_mem hmem) hkey.1,
      fun hmem => absurd (mem_map_of_mem hmem) hkey.2⟩

/-! ## The keys of the endpoints -/

section Keys

variable {old new : Lockfile} {p q : LockPlatform} {m n : LockModule} {lock other : Lockfile}
  {key : DepKey} {a : DepKey × DepEntry} {package source target : LockModulePackage}

theorem DepMap.contains_iff {map : DepMap} :
    map.contains key = true ↔ ∃ entry ∈ map, entry.1 = key := by
  rw [DepMap.contains, decide_eq_true_eq, mem_map]

theorem contains_between_iff :
    (oldBetween old new).contains key = true ∨ (newBetween old new).contains key = true ↔
      ∃ a, (a ∈ depMap old none ∨ a ∈ depMap new none) ∧ keyBetween old new a.1 = key := by
  simp only [DepMap.contains_iff, oldBetween, newBetween, DepMap.mem_pair]
  constructor
  · rintro (⟨_, ⟨a, ha, rfl⟩, rfl⟩ | ⟨_, ⟨a, ha, rfl⟩, rfl⟩)
    · exact ⟨a, .inl ha, rfl⟩
    · exact ⟨a, .inr ha, rfl⟩
  · rintro ⟨a, ha | ha, rfl⟩
    · exact .inl ⟨_, ⟨a, ha, rfl⟩, rfl⟩
    · exact .inr ⟨_, ⟨a, ha, rfl⟩, rfl⟩

theorem version_of_mem_depMap (h : a ∈ depMap lock none) : a.1.version ≠ none := by
  obtain ⟨p, hp, m, hm, package, hpackage, rfl⟩ := mem_depMap.mp h
  simp [DepKey.of]

theorem ite_contains_eq_keyBetween (ha : a ∈ depMap old none ∨ a ∈ depMap new none) :
    (if !(oldBetween old new).contains a.1 && !(newBetween old new).contains a.1 then
      a.1.unversioned else a.1) = keyBetween old new a.1 := by
  have hversion : ∀ {b : DepKey × DepEntry}, b ∈ depMap old none ∨ b ∈ depMap new none →
      b.1.version ≠ none := fun hb => hb.elim version_of_mem_depMap version_of_mem_depMap
  have hcases : ∀ key, keyBetween old new key = key.unversioned ∨ keyBetween old new key = key := by
    intro key
    rw [keyBetween, DepMap.pairKey]
    split
    · exact .inl rfl
    · exact .inr rfl
  rcases hcases a.1 with hpaired | hself
  · have hnot : ¬ ((oldBetween old new).contains a.1 = true ∨
        (newBetween old new).contains a.1 = true) := by
      rw [contains_between_iff]
      rintro ⟨b, hb, hkey⟩
      rcases hcases b.1 with hb' | hb'
      · rw [hb'] at hkey
        exact hversion ha (by rw [← hkey]; rfl)
      · rw [hb'] at hkey
        rw [hkey, hpaired] at hb'
        exact hversion ha (by rw [← hb']; rfl)
    rw [not_or] at hnot
    simp [hnot.1, hnot.2, hpaired]
  · have hcontains := contains_between_iff.mpr ⟨a, ha, hself⟩
    rw [hself]
    rcases hcontains with hcontains | hcontains <;> simp [hcontains]

theorem edgeKey_eq (hlock : lock = old ∨ lock = new) (hp : p ∈ lock.platforms) (hm : m ∈ p.modules)
    (index : ℕ) :
    edgeKey (oldBetween old new) (newBetween old new) p m index =
      m.packages[index]?.map fun package => keyBetween old new (.of p m package) := by
  rw [edgeKey]
  cases hget : m.packages[index]? with
  | none => rfl
  | some package =>
    have hmem : (DepKey.of p m package, DepEntry.of p package) ∈ depMap lock none :=
      mem_depMap.mpr ⟨p, hp, m, hm, package, mem_of_getElem? hget, rfl⟩
    rw [Option.map_some, Option.map_some, Option.some.injEq]
    refine ite_contains_eq_keyBetween (a := (DepKey.of p m package, DepEntry.of p package)) ?_
    rcases hlock with rfl | rfl
    · exact .inl hmem
    · exact .inr hmem

/-- A package of a module that both lockfiles compare under one key. -/
def Shared (old new : Lockfile) (p : LockPlatform) (m : LockModule) (package : LockModulePackage) :
    Prop :=
  (oldBetween old new).contains (keyBetween old new (.of p m package)) = true ∧
    (newBetween old new).contains (keyBetween old new (.of p m package)) = true

theorem shared_of_mem (hp : p ∈ old.platforms) (hq : q ∈ new.platforms)
    (hpq : p.platform = q.platform) (hm : m ∈ p.modules) (hn : n ∈ q.modules)
    (hpath : m.path = n.path) (hleft : package ∈ m.packages) (hright : package ∈ n.packages) :
    Shared old new p m package := by
  simp only [Shared, DepMap.contains_iff, oldBetween, newBetween, DepMap.mem_pair]
  refine ⟨⟨_, ⟨_, mem_depMap.mpr ⟨p, hp, m, hm, package, hleft, rfl⟩, rfl⟩, rfl⟩,
    ⟨_, ⟨_, mem_depMap.mpr ⟨q, hq, n, hn, package, hright, rfl⟩, rfl⟩, ?_⟩⟩
  rw [depKey_of_eq hpq hpath]
  rfl

theorem mem_edgeMap_of_mem (hlock : lock = old ∨ lock = new) (hdistinct : DistinctLock other)
    (hp : p ∈ lock.platforms) (hq : q ∈ other.platforms) (hpq : p.platform = q.platform)
    (hm : m ∈ p.modules) (hmq : m ∉ q.modules) {e : LockEdge} (he : e ∈ m.edges)
    (hsource : m.packages[e.source]? = some source) (htarget : m.packages[e.target]? = some target)
    (hleft : Shared old new p m source) (hright : Shared old new p m target) :
    ((keyBetween old new (.of p m source), keyBetween old new (.of p m target)),
      (e.scope, e.optional)) ∈ edgesBetween old new lock other := by
  have hfind : (other.platforms.find? fun entry => entry.platform = p.platform) = some q :=
    find?_key_eq_some (inj_on_of_nodup_map hdistinct.platforms) hq hpq.symm
  refine mem_edgeMap.mpr
    ⟨p, hp, m, hm, by rw [hfind]; exact hmq, e, he, edgeEntry_eq_some_iff.mpr ?_⟩
  refine ⟨?_, ?_, fun key hkey => ?_, rfl⟩
  · rw [edgeKey_eq hlock hp hm, hsource, Option.map_some]
  · rw [edgeKey_eq hlock hp hm, htarget, Option.map_some]
  · rcases List.mem_pair.mp hkey with rfl | rfl
    · exact hleft
    · exact hright

theorem mem_namedEdges_of_mem_edgeMap (hlock : lock = old ∨ lock = new)
    (hdistinct : DistinctLock lock) (hq : q ∈ lock.platforms) (hn : n ∈ q.modules)
    (hsource : source ∈ n.packages) (htarget : target ∈ n.packages) {state : EdgeState}
    (h : ((keyBetween old new (.of q n source), keyBetween old new (.of q n target)), state) ∈
      edgesBetween old new lock other) :
    (some source, some target, state.1, state.2) ∈ namedEdges n := by
  obtain ⟨q', hq', n', hn', -, e, he, hedge⟩ := mem_edgeMap.mp h
  obtain ⟨hleft, hright, -, rfl⟩ := edgeEntry_eq_some_iff.mp hedge
  rw [edgeKey_eq hlock hq' hn', Option.map_eq_some_iff] at hleft hright
  obtain ⟨package, hpackage, hkey⟩ := hleft
  obtain ⟨package', hpackage', hkey'⟩ := hright
  obtain ⟨rfl, rfl, rfl⟩ := keyBetween_inj hlock hdistinct hq' hn' (mem_of_getElem? hpackage) hq hn
    hsource hkey
  obtain ⟨-, -, rfl⟩ := keyBetween_inj hlock hdistinct hq' hn' (mem_of_getElem? hpackage') hq hn
    htarget hkey'
  exact mem_map.mpr ⟨e, he, by rw [hpackage, hpackage']⟩

theorem LockModule.Indexed.exists_ends (h : m.Indexed) {edge : NamedEdge}
    (hedge : edge ∈ namedEdges m) :
    ∃ e ∈ m.edges, ∃ source target, m.packages[e.source]? = some source ∧
      m.packages[e.target]? = some target ∧
        edge = (some source, some target, e.scope, e.optional) := by
  obtain ⟨e, he, rfl⟩ := mem_map.mp hedge
  obtain ⟨hsource, htarget⟩ := h.edges e he
  refine ⟨e, he, m.packages[e.source], m.packages[e.target], getElem?_eq_getElem hsource,
    getElem?_eq_getElem htarget, ?_⟩
  rw [getElem?_eq_getElem hsource, getElem?_eq_getElem htarget]

/-- Without a line, modules of one path join the same packages by the same edges. -/
theorem Facing.mem_namedEdges_iff [UrlParser] (h : Facing old new p q) (hm : m ∈ p.modules)
    (hn : n ∈ q.modules) (hpath : m.path = n.path) (edge : NamedEdge) :
    edge ∈ namedEdges m ↔ edge ∈ namedEdges n := by
  by_cases hmn : m = n
  · rw [hmn]
  have hmq : m ∉ q.modules := fun hmem => hmn
    (inj_on_of_nodup_map h.distinct_right.paths hmem hn hpath)
  have hnp : n ∉ p.modules := fun hmem => hmn
    (inj_on_of_nodup_map h.distinct_left.paths hm hmem hpath)
  have hperm := h.packages_perm hm hn hpath
  have hshared : ∀ package ∈ m.packages, Shared old new p m package := fun package hpackage =>
    shared_of_mem h.left h.right h.platform hm hn hpath hpackage (hperm.mem_iff.mp hpackage)
  have hkeys := fun package => depKey_of_eq h.platform hpath package
  constructor
  · intro hedge
    obtain ⟨e, he, source, target, hsource, htarget, rfl⟩ :=
      (h.old.indexed p h.left m hm).exists_ends hedge
    have hs := mem_of_getElem? hsource
    have ht := mem_of_getElem? htarget
    have hmem := mem_edgeMap_of_mem (.inl rfl) h.new.distinct h.left h.right h.platform hm hmq he
      hsource htarget (hshared _ hs) (hshared _ ht)
    rw [h.unlisted.mem_edgeMap_iff, hkeys source, hkeys target] at hmem
    exact mem_namedEdges_of_mem_edgeMap (.inr rfl) h.new.distinct h.right hn (hperm.mem_iff.mp hs)
      (hperm.mem_iff.mp ht) hmem
  · intro hedge
    obtain ⟨e, he, source, target, hsource, htarget, rfl⟩ :=
      (h.new.indexed q h.right n hn).exists_ends hedge
    have hs := hperm.mem_iff.mpr (mem_of_getElem? hsource)
    have ht := hperm.mem_iff.mpr (mem_of_getElem? htarget)
    have hshared' : ∀ package ∈ m.packages, Shared old new q n package := by
      intro package hpackage
      rw [Shared, ← hkeys package]
      exact hshared package hpackage
    have hmem := mem_edgeMap_of_mem (.inr rfl) h.old.distinct h.right h.left h.platform.symm hn hnp
      he hsource htarget (hshared' _ hs) (hshared' _ ht)
    rw [← h.unlisted.mem_edgeMap_iff, ← hkeys source, ← hkeys target] at hmem
    exact mem_namedEdges_of_mem_edgeMap (.inl rfl) h.old.distinct h.left hm hs ht hmem

end Keys

end Raeva.Lock
