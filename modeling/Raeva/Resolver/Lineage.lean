import Mathlib.Data.List.Pairwise
import Mathlib.Data.List.TakeDrop
import Mathlib.Logic.Relation
import Raeva.Resolver.Load

/-!
# Where a declaration leads

A declaration leads to the versions that its own text or the root's management
asks for, and from there along the relocations of the models that the backend
serves.  Chains of relocations are cached, so what a load returns is of this kind
from a cache whose entries are, and it leaves such a cache.
-/

namespace Raeva

open List Relation

namespace Backend

/-- A build that the metadata of an artifact with this SNAPSHOT version names. -/
def Builds (backend : Backend) (snapshot build : Version) : Prop :=
  resolvesThroughSnapshotMetadata snapshot.original = true ∧ ∃ coord repos resolved,
    backend.resolveSnapshotVersion coord repos = .ok resolved ∧ coord.version = snapshot ∧
      resolved.version = build

/-- The build that a lookup goes by, if any, is one of the SNAPSHOT. -/
def Pins (backend : Backend) (snapshot : Version) (pinned : Option ResolvedVersion) : Prop :=
  ∀ build, pinned = some build → backend.Builds snapshot build.version

/-- The model of an artifact: of a SNAPSHOT that of a build, and an empty one of
what is not read. -/
inductive Serves (backend : Backend) (coord : Coord) : ResolvedProject → Prop where
  | fetched {resolved : ResolvedProject} {resolveSnapshotPom : Bool} {repos : RepoContext}
      (h : backend.fetchProject coord resolveSnapshotPom repos = .ok resolved) :
      Serves backend coord resolved
  | build {resolved : ResolvedProject} {version : Version} {resolveSnapshotPom : Bool}
      {repos : RepoContext} (hbuild : backend.Builds coord.version version)
      (h : backend.fetchProject { coord with version } resolveSnapshotPom repos = .ok resolved) :
      Serves backend coord resolved
  | unread (version : Version) : Serves backend coord (unreadProject { coord with version })

def Relocates (backend : Backend) (coord next : Coord) : Prop :=
  ∃ resolved, backend.Serves coord resolved ∧ nextCoord coord resolved = .ok next

/-- The entries of the cache are chains of relocations. -/
def Supports (backend : Backend) (cache : RelocationCache) : Prop :=
  ∀ key value, cache.lookup key = some value →
    (key.1 :: value.2).Pairwise (ReflTransGen backend.Relocates) ∧
      ∀ seen ∈ key.1 :: value.2, ReflTransGen backend.Relocates seen value.1

variable {backend : Backend} {coord current mapped : Coord} {repos : RepoContext}
  {resolved : ResolvedProject} {snapshot inherited : Option ResolvedVersion}
  {chain between : List Coord} {cacheable : Bool} {cache cache' : RelocationCache}
  {fetched : Fetched}

theorem serves_of_fetchBuild (hinherited : backend.Pins coord.version inherited)
    (h : fetchBuild backend coord inherited repos = .ok (resolved, snapshot)) :
    backend.Serves coord resolved ∧ ∀ build, snapshot = some build →
      backend.Builds coord.version build.version ∧
        backend.Serves { coord with version := build.version } resolved := by
  unfold fetchBuild at h
  split at h
  · rename_i hsnapshot
    obtain ⟨build, hbuilds, h⟩ : ∃ build : ResolvedVersion,
        backend.Builds coord.version build.version ∧
          (backend.fetchProject { coord with version := build.version } inherited.isNone repos >>=
            fun resolved => .ok (resolved, some build)) = .ok (resolved, snapshot) := by
      cases inherited with
      | none =>
        obtain ⟨build, hbuild, h⟩ := bind_eq_ok h
        exact ⟨build, ⟨hsnapshot, coord, repos, build, hbuild, rfl, rfl⟩, h⟩
      | some build => exact ⟨build, hinherited build rfl, h⟩
    obtain ⟨_, hfetch, h⟩ := bind_eq_ok h
    cases h
    refine ⟨.build hbuilds hfetch, fun build' hbuild' => ?_⟩
    cases hbuild'
    exact ⟨hbuilds, .fetched hfetch⟩
  · obtain ⟨resolved', hfetch, h⟩ := bind_eq_ok h
    cases h
    exact ⟨.fetched hfetch, fun build hbuild => by cases hbuild⟩

/-- The build is kept only for a coordinate of the same version. -/
theorem Pins.keptBuild {next : Coord} (hnext : nextCoord current resolved = .ok next)
    (hsnapshot : backend.Pins current.version snapshot) :
    backend.Pins next.version (keptBuild resolved snapshot) := by
  intro build h
  unfold Raeva.keptBuild at h
  split at h
  · rename_i hany
    obtain ⟨relocation, hrelocation, hnone⟩ := (Option.any_eq_true _ _).mp hany
    obtain ⟨build', hbuild, rfl⟩ := Option.map_eq_some_iff.mp h
    have hversion : next.version = current.version := by
      simp only [nextCoord, hrelocation, relocationCoord,
        Option.isNone_iff_eq_none.mp hnone] at hnext
      split at hnext <;> cases hnext <;> rfl
    rw [hversion]
    exact hsnapshot build' hbuild
  · cases h

/-! ## Chains -/

theorem supports_empty (backend : Backend) : backend.Supports ∅ := by
  intro key value h
  simp at h

/-- What is cached of a chain is cached for each of its coordinates. -/
theorem Supports.cacheChain (h : backend.Supports cache)
    (hchain : chain.Pairwise (ReflTransGen backend.Relocates)) (repos : RepoContext) :
    backend.Supports (cacheChain cache chain repos) := by
  unfold Raeva.cacheChain
  split
  · exact h
  rename_i last hlast
  refine foldlRecOn _ _ h ?_
  rintro cache hcache ⟨seen, index⟩ hmem key value hlookup
  rw [Table.lookup_insert_eq] at hlookup
  split at hlookup
  · rename_i hkey
    subst hkey
    cases hlookup
    obtain ⟨hlt, hseen⟩ := List.getElem?_eq_some_iff.mp (mem_zipIdx_iff_getElem?.mp hmem)
    have hsub : (seen :: (chainBetween chain).drop index).Sublist chain := by
      have hdrop : (chainBetween chain).drop index = (chain.drop (index + 1)).dropLast := by
        rw [chainBetween, ← dropLast_drop_eq_drop_dropLast, drop_tail]
      rw [hdrop, show seen = chain.get ⟨index, hlt⟩ from hseen.symm, get_eq_getElem]
      refine .trans (Sublist.cons_cons _ (dropLast_sublist _)) ?_
      rw [← drop_eq_getElem_cons hlt]
      exact drop_sublist _ _
    refine ⟨hchain.sublist hsub, fun hop hhop => ?_⟩
    have hinit := dropLast_append_getLast? last hlast
    have hmem' : hop ∈ chain.dropLast ++ [last] := by
      rw [hinit]
      exact hsub.subset hhop
    rw [← hinit, pairwise_append] at hchain
    rcases mem_append.mp hmem' with hfirst | hlast'
    · exact hchain.2.2 hop hfirst last mem_cons_self
    · rw [mem_singleton.mp hlast']
  · exact hcache key value hlookup

theorem takeOn_eq {chain chain' between : List Coord} (h : takeOn chain between = .ok chain') :
    chain' = chain ++ between := by
  induction between generalizing chain with
  | nil =>
    cases h
    rw [append_nil]
  | cons hop rest ih =>
    unfold takeOn at h
    split at h
    · cases h
    · rw [ih h, append_assoc, singleton_append]

structure Fetches (backend : Backend) (coord : Coord) (fetched : Fetched) : Prop where
  leads : ReflTransGen backend.Relocates coord fetched.target
  served : backend.Serves fetched.target fetched.project
  build : ∀ build, fetched.snapshot = some build →
    backend.Builds fetched.target.version build.version ∧
      backend.Serves { fetched.target with version := build.version } fetched.project

theorem Supports.finishChain {inheritedBuild : Bool} (h : backend.Supports cache)
    (hchain : chain.Pairwise (ReflTransGen backend.Relocates))
    (hleads : ReflTransGen backend.Relocates coord current)
    (hinherited : backend.Pins current.version inherited)
    (hfetch : fetchBuild backend current inherited repos = .ok (resolved, snapshot))
    (heq : finishChain repos chain cacheable cache current resolved snapshot inheritedBuild =
      (fetched, cache')) : backend.Fetches coord fetched ∧ backend.Supports cache' := by
  obtain ⟨hserved, hbuild⟩ := serves_of_fetchBuild hinherited hfetch
  cases heq
  refine ⟨⟨hleads, hserved, hbuild⟩, ?_⟩
  split
  · exact h.cacheChain hchain repos
  · exact h

theorem Supports.followCached (h : backend.Supports cache)
    (hchain : (chain ++ [current]).Pairwise (ReflTransGen backend.Relocates))
    (hcached : cache.lookup (current, repos) = some (mapped, between))
    (hfollow : followCached backend coord repos (chain ++ [current]) current cacheable cache mapped
      between = .ok (fetched, cache')) :
    backend.Fetches current fetched ∧ backend.Supports cache' := by
  obtain ⟨hbetween, hmapped⟩ := h _ _ hcached
  have htaken : ((chain ++ [current]) ++ between).Pairwise (ReflTransGen backend.Relocates) := by
    rw [append_assoc, singleton_append, pairwise_append]
    rw [pairwise_append] at hchain
    refine ⟨hchain.1, hbetween, fun seen hseen hop hhop => ?_⟩
    have hcurrent := hchain.2.2 seen hseen current mem_cons_self
    rcases mem_cons.mp hhop with rfl | hhop
    · exact hcurrent
    · exact hcurrent.trans (rel_of_pairwise_cons hbetween hhop)
  unfold Raeva.followCached at hfollow
  obtain ⟨chain₁, hchain₁, hfollow⟩ := bind_eq_ok hfollow
  rw [takeOn_eq hchain₁] at hfollow
  -- The chain ends where the entry does, which a chain that ends here repeats.
  extract_lets finish at hfollow
  obtain ⟨chain₂, hpairwise, hfollow⟩ : ∃ chain₂ : List Coord,
      chain₂.Pairwise (ReflTransGen backend.Relocates) ∧ finish chain₂ = .ok (fetched, cache') := by
    split at hfollow
    · exact ⟨_, htaken, hfollow⟩
    · obtain ⟨chain₂, hchain₂, hfollow⟩ := bind_eq_ok hfollow
      refine ⟨chain₂, ?_, hfollow⟩
      rw [takeOn_eq hchain₂, pairwise_append]
      refine ⟨htaken, pairwise_singleton _ _, fun seen hseen last hlast => ?_⟩
      rw [mem_singleton.mp hlast]
      rw [append_assoc, singleton_append, mem_append] at hseen
      rcases hseen with hseen | hseen
      · exact ((pairwise_append.mp hchain).2.2 seen hseen current mem_cons_self).trans
          (hmapped current mem_cons_self)
      · exact hmapped seen hseen
  dsimp only [finish] at hfollow
  obtain ⟨_, -, hfollow⟩ := bind_eq_ok hfollow
  split at hfollow
  · cases hfollow
  rename_i hfetch
  exact h.finishChain hpairwise (hmapped current mem_cons_self) (fun _ h => by cases h) hfetch
    (Except.ok.inj hfollow)

/-- Following relocations fetches what they lead to and caches chains of relocations only. -/
theorem Supports.followChain {fuel : ℕ} (h : backend.Supports cache)
    (hchain : (chain ++ [current]).Pairwise (ReflTransGen backend.Relocates))
    (hinherited : backend.Pins current.version inherited)
    (hfollow : followChain backend coord repos fuel chain current inherited cacheable cache =
      .ok (fetched, cache')) :
    backend.Fetches current fetched ∧ backend.Supports cache' := by
  induction fuel generalizing chain current inherited cacheable with
  | zero => cases hfollow
  | succ fuel ih =>
    unfold Raeva.followChain at hfollow
    split at hfollow
    · cases hfollow
    obtain ⟨_, -, hfollow⟩ := bind_eq_ok hfollow
    simp only at hfollow
    split at hfollow
    · rename_i mapped between hcached
      split at hcached
      · cases hcached
      · exact h.followCached hchain hcached hfollow
    split at hfollow
    · cases hfollow
    rename_i resolved snapshot hfetch
    split at hfollow
    · cases hfollow
    rename_i next hnext
    obtain ⟨hserved, hbuild⟩ := serves_of_fetchBuild hinherited hfetch
    split at hfollow
    · exact h.finishChain hchain .refl hinherited hfetch (Except.ok.inj hfollow)
    · have hhop : backend.Relocates current next := ⟨resolved, hserved, hnext⟩
      have hchain' : (chain ++ [current] ++ [next]).Pairwise (ReflTransGen backend.Relocates) := by
        rw [pairwise_append]
        refine ⟨hchain, pairwise_singleton _ _, fun seen hseen last hlast => ?_⟩
        rw [mem_singleton.mp hlast]
        rcases mem_append.mp hseen with hseen | hseen
        · exact ((pairwise_append.mp hchain).2.2 seen hseen current mem_cons_self).tail hhop
        · rw [mem_singleton.mp hseen]
          exact .single hhop
      have hkept := Pins.keptBuild hnext fun build hsnapshot => (hbuild build hsnapshot).1
      obtain ⟨⟨hleads, hserved', hbuild'⟩, hsupports⟩ := ih hchain' hkept hfollow
      exact ⟨⟨.head hhop hleads, hserved', hbuild'⟩, hsupports⟩

end Backend

/-! ## Declarations -/

section Leads

variable [Lowercase] (solver : Solver) (repos : RepoContext) (dependency : Dependency)

namespace Solver

/-- A version of an artifact that the text of the declaration or the root's
management asks for. -/
def Offers (coord : Coord) (version : Version) : Prop :=
  ∃ text, (dependency.version = some text ∨
      (solver.management.entry coord.groupId coord.artifactId dependency).bind Dependency.version =
        some text) ∧
    (version = .unresolved text ∨ ∃ requested,
      requestedVersions solver.backend coord.groupId coord.artifactId text repos = .ok requested ∧
        ∃ resolved ∈ requested.highest :: requested.versions, version = resolved.version)

/-- Where the declaration leads from `coord`: along relocations, to the versions that are
asked for, and from a SNAPSHOT to its builds. -/
def Leads : Coord → Coord → Prop :=
  ReflTransGen fun coord next => solver.backend.Relocates coord next ∨
    ∃ version, (solver.Offers repos dependency coord version ∨
      solver.backend.Builds coord.version version) ∧ next = { coord with version }

/-- The artifact and version that a candidate for the declaration may have. -/
def Stands (coord : Coord) : Prop :=
  ∃ version, solver.Offers repos dependency (coordOf dependency version) version ∧
    solver.Leads repos dependency (coordOf dependency version) coord

omit [Lowercase] in
/-- What the root's management does to a declaration. -/
def Manages (depth : ℕ) (dependency managed : Dependency) : Prop :=
  ∃ groupId artifactId entry, solver.management.entry groupId artifactId dependency = some entry ∧
    managed = (manage entry dependency depth).1

variable {solver repos dependency} {coord origin : Coord} {version : Version}

theorem Leads.offered (h : solver.Leads repos dependency origin coord)
    (hoffers : solver.Offers repos dependency coord version) :
    solver.Leads repos dependency origin { coord with version } :=
  ReflTransGen.tail h (.inr ⟨version, .inl hoffers, rfl⟩)

theorem Leads.relocates {next : Coord} (h : solver.Leads repos dependency origin coord)
    (hnext : ReflTransGen solver.backend.Relocates coord next) :
    solver.Leads repos dependency origin next :=
  ReflTransGen.trans h (ReflTransGen.mono (fun _ _ => Or.inl) _ _ hnext)

omit [Lowercase] in
/-- Management changes the scope, the system path and the exclusions. -/
theorem Manages.eq {depth : ℕ} {managed : Dependency}
    (h : ReflTransGen (solver.Manages depth) dependency managed) :
    ∃ scope systemPath exclusions,
      managed = { dependency with scope, systemPath, exclusions } := by
  induction h with
  | refl => exact ⟨_, _, _, rfl⟩
  | tail _ hstep ih =>
    obtain ⟨scope, systemPath, exclusions, rfl⟩ := ih
    obtain ⟨groupId, artifactId, entry, -, rfl⟩ := hstep
    unfold manage
    cases entry.scope.filter fun _ => 1 < depth with
    | none => exact ⟨_, _, _, rfl⟩
    | some scope =>
      simp only
      split <;> exact ⟨_, _, _, rfl⟩

end Solver

end Leads

section Fetch

variable [Lowercase] {solver : Solver} {item : QueueItem} {requested coord origin : Coord}
  {target : FetchedTarget} {cache : RelocationCache}

omit [Lowercase] in
theorem fetchTarget_keeps (solver : Solver) (item : QueueItem) (requested coord : Coord) :
    (fetchTarget solver item requested coord).Keeps solver.backend.Supports := by
  intro cache hcache
  unfold fetchTarget fetchProjectWithRelocationCached
  cases hfollow :
    followChain solver.backend coord item.path.repos (maxRelocations + 2) [] coord none
    true cache with
  | error fault => exact hcache
  | ok result =>
    exact (hcache.followChain (pairwise_singleton _ _) (fun _ h => by cases h) hfollow).2

theorem fetchTarget_leads {dependency : Dependency}
    (h : (fetchTarget solver item requested coord).ReturnsFrom solver.backend.Supports target)
    (hcoord : solver.Leads item.path.repos dependency origin coord) :
    solver.Leads item.path.repos dependency origin target.target ∧
      solver.backend.Serves target.target target.project := by
  obtain ⟨cache, cache', hcache, h⟩ := h
  unfold fetchTarget fetchProjectWithRelocationCached at h
  cases hfollow :
    followChain solver.backend coord item.path.repos (maxRelocations + 2) [] coord none
    true cache with
  | error fault => simp [hfollow] at h
  | ok result =>
    obtain ⟨hleads, hserved, hbuild⟩ :=
      (hcache.followChain (pairwise_singleton _ _) (fun _ h => by cases h) hfollow).1
    simp only [hfollow, Prod.mk.injEq, Except.ok.injEq] at h
    obtain ⟨rfl, -⟩ := h
    have htarget := hcoord.relocates hleads
    split
    · rename_i build hsnapshot
      obtain ⟨hbuilds, hbuilt⟩ := hbuild build (Option.filter_eq_some_iff.mp hsnapshot).1
      exact ⟨ReflTransGen.tail htarget (.inr ⟨build.version, .inr hbuilds, rfl⟩), hbuilt⟩
    · exact ⟨htarget, hserved⟩

end Fetch

end Raeva
