import Raeva.Resolver.Lineage

/-!
# What a read can give

A read keeps a declaration where it is: only the root's management may change its
dependency.  It ends at a coordinate that the declaration leads to, with the model
there.  That coordinate is not excluded, unless it closes a cycle on the
declaration's own path, which cuts it off.
-/

namespace Raeva

open List Relation

/-- Only the root's management changes the dependency. -/
def QueueItem.ManagedFrom (solver : Solver) (item' item : QueueItem) : Prop :=
  ∃ dependency managedScope,
    ReflTransGen (solver.Manages item.depth) item.dependency dependency ∧
      item' = { item with dependency, managedScope }

theorem QueueItem.ManagedFrom.refl (solver : Solver) (item : QueueItem) :
    item.ManagedFrom solver item :=
  ⟨_, _, .refl, rfl⟩

theorem applyManagedMetadata_managedFrom (solver : Solver) (item : QueueItem) :
    (applyManagedMetadata solver.management item).ManagedFrom solver item := by
  unfold applyManagedMetadata
  split
  · exact .refl solver item
  rename_i managed hmanaged
  split
  · exact .refl solver item
  · exact ⟨_, _, .single ⟨_, _, managed, hmanaged, rfl⟩, rfl⟩

def Candidate.LoadedFrom (backend : Backend) (c' c : Candidate) : Prop :=
  ∃ resolved project, backend.Serves c.coord project ∧
    c' = { c with resolved, resolvedProject := some project }

section Read

variable [Lowercase] (solver : Solver)

/-- The candidate is where `item` leads from `origin`, and has the model of that place. -/
structure Candidate.LedFrom (item : QueueItem) (origin : Coord) (c : Candidate) : Prop where
  leads : solver.Leads item.path.repos item.dependency origin c.coord
  served : ∀ resolved, c.resolvedProject = some resolved → solver.backend.Serves c.coord resolved

/-- What reading `item` at `origin` can give. -/
structure Resolution.ReadFrom (item : QueueItem) (origin : Coord) (r : Resolution) : Prop where
  managed : r.candidate.item.ManagedFrom solver item
  allowed :
    excludes item.exclusions r.candidate.coord.groupId r.candidate.coord.artifactId = false ∨
    item.path.contains r.candidate.key = true
  led : r.candidate.LedFrom solver item origin
  /-- The other versions of the range are asked for too; those of a system file are not read. -/
  alternatives : ∀ alternative ∈ r.alternatives,
    solver.Leads item.path.repos item.dependency origin
      { r.candidate.coord with version := alternative.version } ∧
    (r.candidate.scope = .system → ∀ resolved, r.candidate.resolvedProject = some resolved →
      solver.backend.Serves { r.candidate.coord with version := alternative.version } resolved)

def Load.ReadFrom (c : Candidate) : Load → Prop
  | .ready c' => c'.LoadedFrom solver.backend c
  | .relocated r | .cyclic r => r.ReadFrom solver c.item c.coord
  | .excluded => True

end Read

theorem systemCandidate_eq {item : QueueItem} {coord : Coord} {c : Candidate}
    (h : systemCandidate item coord = .ok c) :
    c.item = item ∧ c.coord = coord ∧ c.resolvedProject = some (unreadProject coord) := by
  unfold systemCandidate at h
  split at h
  · cases h
  · cases h
    exact ⟨rfl, rfl, rfl⟩

theorem Resolution.ReadFrom.of_system [Lowercase] {solver : Solver} {item item' : QueueItem}
    {origin coord : Coord} {system : Candidate} {hard : Option Hard} {source : List ℕ}
    {alternatives : List ResolvedVersion} {aliases : List CoordKey}
    (h : systemCandidate item' coord = .ok system) (hmanaged : item'.ManagedFrom solver item)
    (hallows : excludes item.exclusions coord.groupId coord.artifactId = false)
    (hleads : solver.Leads item.path.repos item.dependency origin coord)
    (halternatives : ∀ alternative ∈ alternatives,
      solver.Leads item.path.repos item.dependency origin
        { coord with version := alternative.version }) :
    Resolution.ReadFrom solver item origin
      { candidate := { system with hard, source }, alternatives, aliases } := by
  obtain ⟨rfl, rfl, hproject⟩ := systemCandidate_eq h
  have hserved (version : Version) (resolved : ResolvedProject)
      (hresolved : system.resolvedProject = some resolved) :
      solver.backend.Serves { system.coord with version } resolved := by
    rw [hproject] at hresolved
    cases hresolved
    exact .unread system.coord.version
  exact ⟨hmanaged, .inl hallows, ⟨hleads, hserved system.coord.version⟩,
    fun alternative hmem => ⟨halternatives alternative hmem, fun _ => hserved alternative.version⟩⟩

section Relocate

variable [Lowercase] {solver : Solver} {candidate : Candidate} {s : Relocating} {loaded : Load}
  {r : Resolution} {again : Relocating → Loading Load}

def Allows (item : QueueItem) (coord : Coord) : Prop :=
  excludes item.exclusions coord.groupId coord.artifactId = false

/-- The loop is where the candidate's declaration leads. -/
structure Relocating.LedBy (solver : Solver) (candidate : Candidate) (s : Relocating) : Prop where
  managed :
    ReflTransGen (solver.Manages candidate.item.depth) candidate.item.dependency s.dependency
  leads : solver.Leads candidate.item.path.repos candidate.item.dependency candidate.coord s.target
  served : solver.backend.Serves s.target s.project
  alternatives : ∀ alternative ∈ s.alternatives,
    solver.Leads candidate.item.path.repos candidate.item.dependency candidate.coord
      { s.target with version := alternative.version } ∧ s.dependency.effectiveScope ≠ .system

/-- A version that the root's management asks for at the loop's target. -/
abbrev Relocating.Offered (solver : Solver) (candidate : Candidate) (s : Relocating) :
    Version → Prop :=
  solver.Offers candidate.item.path.repos candidate.item.dependency s.target

theorem Relocating.LedBy.readFrom (hs : s.LedBy solver candidate)
    (h : Allows candidate.item s.target ∨ candidate.item.path.contains (.ofCoord s.target) = true) :
    (s.resolution candidate).ReadFrom solver candidate.item candidate.coord where
  managed := ⟨_, _, hs.managed, rfl⟩
  allowed := h
  led := ⟨hs.leads, fun resolved hresolved => Option.some.inj hresolved ▸ hs.served⟩
  alternatives alternative halternative := by
    obtain ⟨hleads, hscope⟩ := hs.alternatives alternative halternative
    exact ⟨hleads, fun hsystem => absurd hsystem hscope⟩

/-- The version that the root's management gives the loop's target. -/
abbrev Relocating.Asks (solver : Solver) (candidate : Candidate) (s : Relocating) (text : Text) :
    Prop :=
  (solver.management.entry s.target.groupId s.target.artifactId
    candidate.item.dependency).bind Dependency.version = some text

theorem offered_of_requestedVersions {text : Text} {requested : RequestedVersions}
    (htext : s.Asks solver candidate text)
    (h : requestedVersions solver.backend s.target.groupId s.target.artifactId text
      candidate.item.path.repos = .ok requested) {resolved : ResolvedVersion}
    (hmem : resolved ∈ requested.highest :: requested.versions) :
    s.Offered solver candidate resolved.version :=
  ⟨text, .inr htext, .inr ⟨requested, h, resolved, hmem, rfl⟩⟩

theorem relocatedToSystem_readFrom {version : Option Text} (hs : s.LedBy solver candidate)
    (hversion : ∀ text, version = some text → s.Asks solver candidate text)
    {dependency : Dependency} {managedScope : Bool}
    (hmanaged : ReflTransGen (solver.Manages candidate.item.depth) candidate.item.dependency
      dependency)
    (hallows : Allows candidate.item s.target)
    (h : relocatedToSystem solver { s with dependency, managedScope } candidate version = .ok r) :
    r.ReadFrom solver candidate.item candidate.coord := by
  unfold relocatedToSystem at h
  simp only at h
  split at h
  · obtain ⟨system, hsystem, hrest⟩ := bind_eq_ok h
    cases hrest
    exact .of_system hsystem ⟨_, _, hmanaged, rfl⟩ hallows hs.leads
      fun _ halternative => absurd halternative not_mem_nil
  · rename_i text
    obtain ⟨requested, hrequested, hrest⟩ := bind_eq_ok h
    obtain ⟨system, hsystem, hrest⟩ := bind_eq_ok hrest
    cases hrest
    have hoffered {resolved : ResolvedVersion}
        (hmem : resolved ∈ requested.highest :: requested.versions) :=
      hs.leads.offered (offered_of_requestedVersions (hversion text rfl) hrequested hmem)
    exact .of_system hsystem ⟨_, _, hmanaged, rfl⟩ hallows (hoffered mem_cons_self)
      fun _ halternative => hoffered (mem_cons_of_mem _ halternative)

theorem relocatedToRange_readFrom {requested : RequestedVersions} (hs : s.LedBy solver candidate)
    (hoffered : ∀ resolved ∈ requested.highest :: requested.versions,
      s.Offered solver candidate resolved.version)
    (hallows : Allows candidate.item s.target)
    (h : relocatedToRange s candidate requested = .ok r) :
    r.ReadFrom solver candidate.item candidate.coord := by
  unfold relocatedToRange at h
  simp only at h
  split at h
  · cases h
  · cases h
    have hleads := fun resolved hmem => hs.leads.offered (hoffered resolved hmem)
    refine ⟨⟨_, _, hs.managed, rfl⟩, .inl hallows, ⟨hleads _ mem_cons_self, ?_⟩, ?_⟩
    · intro resolved hresolved
      cases hresolved
    · intro alternative halternative
      refine ⟨hleads _ (mem_cons_of_mem _ halternative), fun _ resolved hresolved => ?_⟩
      cases hresolved

omit [Lowercase] in
theorem stoppingLowest_keeps (requested : RequestedVersions) :
    (stoppingLowest solver s candidate requested).Keeps solver.backend.Supports :=
  (fetchTarget_keeps _ _ _ _).bind fun _ => .pure _

omit [Lowercase] in
theorem mem_of_stoppingLowest {requested : RequestedVersions} {lowest : ResolvedVersion}
    (h : (stoppingLowest solver s candidate requested).ReturnsFrom solver.backend.Supports
      (some lowest)) : lowest ∈ requested.highest :: requested.versions := by
  obtain ⟨fetched, -, h⟩ := h.bind (fetchTarget_keeps _ _ _ _)
  have hlowest := h.of_pure
  split at hlowest
  · cases hlowest
    cases requested.versions with
    | nil => exact mem_cons_self
    | cons first rest => exact mem_cons_of_mem _ mem_cons_self
  · cases hlowest

section Again

variable (hagain : ∀ s loaded, s.LedBy solver candidate →
    (again s).ReturnsFrom solver.backend.Supports loaded → loaded.ReadFrom solver candidate)
  (hs : s.LedBy solver candidate) (hscope : s.dependency.effectiveScope ≠ .system)
  (hallows : Allows candidate.item s.target)
include hagain hs hscope hallows

theorem settleManaged_readFrom {requirement : RequestedRequirement}
    {versions : List ResolvedVersion} {resolved : ResolvedVersion}
    (hoffered : ∀ other ∈ resolved :: versions, s.Offered solver candidate other.version)
    (h : (settleManaged solver again s candidate requirement versions resolved).ReturnsFrom
      solver.backend.Supports loaded) : loaded.ReadFrom solver candidate := by
  have hleads := fun other hmem => hs.leads.offered (hoffered other hmem)
  have hversions (alternative : ResolvedVersion) (hmem : alternative ∈ versions) :=
    hleads alternative (mem_cons_of_mem _ hmem)
  unfold settleManaged at h
  simp only at h
  split at h
  · obtain rfl := h.of_pure
    exact Relocating.LedBy.readFrom
      ⟨hs.managed, hs.leads, hs.served, fun _ hmem => ⟨hversions _ hmem, hscope⟩⟩ (.inl hallows)
  obtain ⟨fetched, hfetched, h⟩ := h.bind (fetchTarget_keeps _ _ _ _)
  obtain ⟨htarget, hserved⟩ := fetchTarget_leads hfetched (hleads resolved mem_cons_self)
  split at h
  · rename_i hsame
    obtain rfl := h.of_pure
    rw [sameText_iff] at hsame
    refine Relocating.LedBy.readFrom
      ⟨hs.managed, htarget, hserved, fun _ hmem => ⟨?_, hscope⟩⟩ (.inl ?_)
    · change solver.Leads _ _ _ { fetched.target with version := _ }
      rw [hsame]
      exact hversions _ hmem
    · change Allows candidate.item fetched.target
      rw [hsame]
      exact hallows
  · refine hagain _ _ ?_ h
    exact ⟨hs.managed, htarget, hserved, fun _ hmem => absurd hmem not_mem_nil⟩

theorem manageVersion_readFrom {version : Text} (hversion : s.Asks solver candidate version)
    (h : (manageVersion solver again s candidate version).ReturnsFrom solver.backend.Supports
      loaded) : loaded.ReadFrom solver candidate := by
  unfold manageVersion at h
  obtain ⟨requested, hrequested, h⟩ := h.bind (.ofExcept _)
  have hoffered (resolved : ResolvedVersion)
      (hmem : resolved ∈ requested.highest :: requested.versions) :=
    offered_of_requestedVersions hversion hrequested.ofExcept hmem
  split at h
  · obtain ⟨lowest, hlowest, h⟩ := h.bind (stoppingLowest_keeps _)
    cases lowest with
    | some lowest =>
      refine settleManaged_readFrom hagain hs hscope hallows (fun other hmem => ?_) h
      rw [mem_singleton.mp hmem]
      exact hoffered lowest (mem_of_stoppingLowest hlowest)
    | none =>
      obtain ⟨r, hr, h⟩ := h.bind (.ofExcept _)
      obtain rfl := h.of_pure
      exact relocatedToRange_readFrom hs hoffered hallows hr.ofExcept
  · exact settleManaged_readFrom hagain hs hscope hallows hoffered h

end Again

/-- However often a project relocates, the loop ends where the declaration leads. -/
theorem relocate_readFrom {fuel : ℕ} (hs : s.LedBy solver candidate)
    (h : (relocate solver candidate fuel s).ReturnsFrom solver.backend.Supports loaded) :
    loaded.ReadFrom solver candidate := by
  induction fuel generalizing s loaded with
  | zero => simp [relocate] at h
  | succ fuel ih =>
    unfold relocate at h
    simp only at h
    split at h
    · rename_i hcyclic
      obtain rfl := h.of_pure
      exact hs.readFrom (.inr hcyclic)
    split at h
    · obtain rfl := h.of_pure
      trivial
    rename_i hexcluded
    -- Every other way ends at an artifact that was just let pass.
    have hallows : Allows candidate.item s.target := by simpa [Allows] using hexcluded
    split at h
    · obtain rfl := h.of_pure
      trivial
    split at h
    · obtain rfl := h.of_pure
      exact hs.readFrom (.inl hallows)
    split at h
    · obtain rfl := h.of_pure
      exact Relocating.LedBy.readFrom ⟨hs.managed, hs.leads, hs.served, hs.alternatives⟩
        (.inl hallows)
    rename_i managed hmanaged
    have hlike : solver.management.entry s.target.groupId s.target.artifactId s.dependency =
        some managed := by
      obtain ⟨scope, systemPath, exclusions, heq⟩ := Solver.Manages.eq hs.managed
      rw [heq]
      exact hmanaged
    have hstep := hs.managed.tail ⟨_, _, managed, hlike, rfl⟩
    have hversion {text : Text}
        (htext : (managed.version.filter fun _ => 1 < candidate.item.depth) =
        some text) : s.Asks solver candidate text := by
      rw [Relocating.Asks, hmanaged]
      exact (Option.filter_eq_some_iff.mp htext).1
    split at h
    · obtain ⟨r, hr, h⟩ := h.bind (.ofExcept _)
      obtain rfl := h.of_pure
      exact relocatedToSystem_readFrom hs (fun _ => hversion) hstep hallows hr.ofExcept
    · rename_i hscope
      have hs' : Relocating.LedBy solver candidate
          { s with
            dependency := (manage managed s.dependency candidate.item.depth).1
            managedScope := (manage managed s.dependency candidate.item.depth).2 } :=
        ⟨hstep, hs.leads, hs.served, fun _ hmem => ⟨(hs.alternatives _ hmem).1, hscope⟩⟩
      split at h
      · obtain rfl := h.of_pure
        exact hs'.readFrom (.inl hallows)
      · rename_i htext
        exact manageVersion_readFrom (fun _ _ => ih) hs' hscope hallows (hversion htext) h

theorem loadCandidate_readFrom
    (h : (loadCandidate solver candidate).ReturnsFrom solver.backend.Supports loaded) :
    loaded.ReadFrom solver candidate := by
  unfold loadCandidate at h
  split at h
  · obtain rfl := h.of_pure
    exact ⟨_, _, .unread candidate.coord.version, rfl⟩
  have hdeclared := h.mapError
  unfold loadDeclared at hdeclared
  obtain ⟨fetched, hfetched, hrest⟩ := hdeclared.bind (fetchTarget_keeps _ _ _ _)
  have hrefl : solver.Leads candidate.item.path.repos candidate.item.dependency candidate.coord
      candidate.coord := .refl
  obtain ⟨hleads, hserved⟩ := fetchTarget_leads hfetched hrefl
  split at hrest
  · rename_i hsame
    obtain rfl := hrest.of_pure
    rw [sameText_iff] at hsame
    exact ⟨_, _, hsame ▸ hserved, rfl⟩
  · exact relocate_readFrom
      ⟨.refl, hleads, hserved, fun _ hmem => absurd hmem not_mem_nil⟩ hrest

omit [Lowercase] in
theorem settleManaged_keeps (hagain : ∀ s, (again s).Keeps solver.backend.Supports)
    (requirement : RequestedRequirement) (versions : List ResolvedVersion)
    (resolved : ResolvedVersion) :
    (settleManaged solver again s candidate requirement versions resolved).Keeps
      solver.backend.Supports := by
  unfold settleManaged
  simp only
  split
  · exact .pure _
  refine (fetchTarget_keeps _ _ _ _).bind fun fetched => ?_
  split
  · exact .pure _
  · exact hagain _

theorem relocate_keeps (fuel : ℕ) :
    (relocate solver candidate fuel s).Keeps solver.backend.Supports := by
  induction fuel generalizing s with
  | zero => exact .fail _
  | succ fuel ih =>
    unfold relocate
    simp only
    repeat' split
    all_goals first | exact .pure _ | skip
    · exact (Attempt.Keeps.ofExcept _).bind fun _ => .pure _
    · refine (Attempt.Keeps.ofExcept _).bind fun requested => ?_
      split
      · refine (stoppingLowest_keeps requested).bind fun lowest => ?_
        cases lowest with
        | some lowest => exact settleManaged_keeps (fun _ => ih) _ _ _
        | none => exact (Attempt.Keeps.ofExcept _).bind fun _ => .pure _
      · exact settleManaged_keeps (fun _ => ih) _ _ _

theorem loadCandidate_keeps (solver : Solver) (candidate : Candidate) :
    (loadCandidate solver candidate).Keeps solver.backend.Supports := by
  unfold loadCandidate
  split
  · exact .pure _
  refine Attempt.Keeps.mapError ((fetchTarget_keeps _ _ _ _).bind fun fetched => ?_)
  split
  · exact .pure _
  · exact relocate_keeps _

end Relocate

/-! ## Queued declarations -/

section Queued

variable [Lowercase] {solver : Solver} {item : QueueItem}

/-- What reading a queued declaration can give. -/
def Resolution.ReadOf (solver : Solver) (item : QueueItem) (r : Resolution) : Prop :=
  ∃ version, solver.Offers item.path.repos item.dependency (coordOf item.dependency version)
    version ∧ r.ReadFrom solver item (coordOf item.dependency version)

theorem resolveManaged_readOf {text : Text} {r : Resolution}
    (htext : item.dependency.version = some text ∨
      (solver.management.managed item.dependency).bind Dependency.version = some text)
    (hallows : excludes item.exclusions item.dependency.groupId item.dependency.artifactId = false)
    (h : (resolveManaged solver item text).ReturnsFrom solver.backend.Supports (some r)) :
    r.ReadOf solver item := by
  unfold resolveManaged at h
  obtain ⟨requested, hrequested, h⟩ := h.bind (.ofExcept _)
  have hoffers {resolved : ResolvedVersion}
      (hmem : resolved ∈ requested.highest :: requested.versions) (version : Version) :
      solver.Offers item.path.repos item.dependency (coordOf item.dependency version)
        resolved.version :=
    ⟨text, htext, .inr ⟨requested, hrequested.ofExcept, resolved, hmem, rfl⟩⟩
  have hleads (alternative : ResolvedVersion) (hmem : alternative ∈ requested.versions) :=
    Solver.Leads.offered .refl (hoffers (mem_cons_of_mem _ hmem) requested.highest.version)
  refine ⟨requested.highest.version, hoffers mem_cons_self _, ?_⟩
  split at h
  · obtain ⟨system, hsystem, h⟩ := h.bind (.ofExcept _)
    cases h.of_pure
    exact .of_system hsystem.ofExcept (.refl _ _) hallows .refl hleads
  simp only at h
  split at h
  · cases h.of_pure
    refine ⟨.refl _ _, .inl hallows, ⟨.refl, fun resolved hresolved => by cases hresolved⟩, ?_⟩
    exact fun alternative hmem =>
      ⟨hleads alternative hmem, fun _ resolved hresolved => by cases hresolved⟩
  obtain ⟨loaded, hloaded, h⟩ := h.bind (loadCandidate_keeps _ _)
  have hread := loadCandidate_readFrom hloaded
  cases loaded with
  | ready c =>
    cases h.of_pure
    obtain ⟨resolved, project, hserved, rfl⟩ := hread
    exact ⟨.refl _ _, .inl hallows,
      ⟨.refl, fun resolved hresolved => Option.some.inj hresolved ▸ hserved⟩,
      fun _ hmem => absurd hmem not_mem_nil⟩
  | relocated r' | cyclic r' =>
    cases h.of_pure
    exact hread
  | excluded => cases h.of_pure

omit [Lowercase] in
theorem asked_of_resolveVersionStr {management : Management} {dependency : Dependency} {depth : ℕ}
    {text : Text} (h : resolveVersionStr management dependency depth = .ok text) :
    dependency.version = some text ∨
      (management.managed dependency).bind Dependency.version = some text := by
  unfold resolveVersionStr at h
  simp only at h
  split at h
  · rename_i hversion
    cases h
    rw [Option.or_eq_some_iff] at hversion
    rcases hversion with hmanaged | ⟨-, hdeclared⟩
    · split at hmanaged
      · exact .inr hmanaged
      · cases hmanaged
    · exact .inl hdeclared
  · cases h

/-- Reading a queued declaration gives what the declaration can lead to. -/
theorem resolveItem_readOf {r : Resolution}
    (h : (resolveItem solver item).ReturnsFrom solver.backend.Supports (some r)) :
    r.ReadOf solver item := by
  obtain ⟨dependency, managedScope, hmanaged, heq⟩ := applyManagedMetadata_managedFrom solver item
  obtain ⟨scope, systemPath, exclusions, hdependency⟩ := Solver.Manages.eq hmanaged
  unfold resolveItem at h
  simp only [heq] at h
  split at h
  · cases h.of_pure
  rename_i hpruned
  simp only [Bool.or_eq_true, not_or, Bool.not_eq_true] at hpruned
  have hallows : excludes item.exclusions dependency.groupId dependency.artifactId = false :=
    hpruned.1.1
  split at h
  · simp at h
  rename_i text htext
  have hasked := asked_of_resolveVersionStr htext
  -- What management leaves of the dependency asks for the same versions of the same artifact.
  have hread : r.ReadOf solver { item with dependency, managedScope } := by
    split at h
    · split at h
      · simp at h
      · cases h.of_pure
        refine ⟨.unresolved text, ⟨text, hasked, .inl rfl⟩, .refl _ _, .inl hallows,
          ⟨.refl, fun resolved hresolved => by cases hresolved⟩,
          fun _ hmem => absurd hmem not_mem_nil⟩
    · exact resolveManaged_readOf hasked hallows h
  obtain ⟨version, hoffers, ⟨dependency', managedScope', hmanaged', hitem⟩, hallowed, hled,
    halternatives⟩ := hread
  subst hdependency
  exact ⟨version, hoffers, ⟨dependency', managedScope', hmanaged.trans hmanaged', hitem⟩, hallowed,
    ⟨hled.leads, hled.served⟩, halternatives⟩

theorem resolveItem_keeps (solver : Solver) (item : QueueItem) :
    (resolveItem solver item).Keeps solver.backend.Supports := by
  unfold resolveItem
  simp only
  repeat' split
  all_goals first | exact .pure _ | exact .fail _ | skip
  unfold resolveManaged
  refine (Attempt.Keeps.ofExcept _).bind fun requested => ?_
  simp only
  split
  · exact (Attempt.Keeps.ofExcept _).bind fun _ => .pure _
  split
  · exact .pure _
  refine (loadCandidate_keeps _ _).bind fun loaded => ?_
  cases loaded <;> exact .pure _

end Queued

end Raeva
