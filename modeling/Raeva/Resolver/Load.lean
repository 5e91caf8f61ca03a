import Raeva.Library.Attempt
import Raeva.Resolver.Candidate
import Raeva.Resolver.Relocation

/-!
# Reading a declaration

`resolve_item`, `load_candidate` and `load_declared` of `solver/mod.rs`: what a
queued declaration becomes, and what loading a candidate's project gives.  All
of them share the relocation cache, which keeps what a failed load put in it.
-/

namespace Raeva

structure Solver where
  backend : Backend
  management : Management

abbrev Loading := Attempt RelocationCache ResolveError

def maxRelocationManagementPasses : ℕ := 8

def declaredBelow (err : ResolveError) (path : PathNode) : ResolveError :=
  err.declaredVia path.coordinates.tail

/-- Name the ignored repositories that could have served a missing dependency. -/
def attachDroppedRepos (backend : Backend) (item : QueueItem) (coord : Coord)
    (err : ResolveError) : ResolveError :=
  match err with
  | .artifactNotFound failed searched droppedRepos classifierLike =>
    .artifactNotFound failed searched
      (droppedRepos ++
        backend.droppedReposOnPath item.path.coordinates coord.version.original searched)
      classifierLike
  | err => err

/-- Fail on a `${...}` left in the coordinate of `item`, naming the POM that
declared it. -/
def refuseUndefinedProperty (backend : Backend) (item : QueueItem) (versionStr : Text) :
    Except ResolveError Unit :=
  let dependency := item.dependency
  let ga := Text.join [':'] [dependency.groupId, dependency.artifactId]
  let type := dependency.effectiveType
  let exact :=
    !(versionStr.elem '[' || versionStr.elem '(') &&
      !(versionStr == "LATEST" || versionStr == "RELEASE") && type != "pom"
  let rest : Text :=
    if item.depth == 1 && exact &&
        !backend.isReactorModule dependency.groupId dependency.artifactId versionStr then
      let packaging := if type = "jar" then [] else type
      match dependency.effectiveClassifier with
      | some classifier => ':' :: (packaging ++ ':' :: classifier)
      | none => if packaging.isEmpty then [] else ':' :: packaging
    else []
  let coord := ga ++ ':' :: (versionStr ++ rest)
  match undefinedProperty coord with
  | none => .ok ()
  | some property =>
    -- A version the root's management gave is the root's.
    let managed := (undefinedProperty ga).isNone && dependency.version != some versionStr
    let declaring := if managed then item.path.top else item.path
    let declaredBy := declaring.coordinates.getLast?.getD []
    let module :=
      match Coord.parse declaredBy with
      | .ok declaring => backend.workspaceModule declaring
      | .error _ => none
    .error (.undefinedProperty coord property (module.getD declaredBy))

def resolveRequirementVersions (backend : Backend) (groupId artifactId : Text)
    (requirement : RequestedRequirement) (repos : RepoContext) :
    Except ResolveError (List ResolvedVersion) :=
  match requirement with
  | .exact version _ | .soft version => .ok [{ version, repo := none }]
  | .ranges req _ => backend.resolveVersions groupId artifactId req repos
  | .dynamic token =>
    match Version.parse token.requirementLabel with
    | .error error => .error (.version error)
    | .ok version => do
        let resolved ← backend.resolveVersion groupId artifactId (.exact version) repos
        .ok [resolved]

/-- A requirement with the versions it admits below the highest, and the
highest. -/
structure RequestedVersions where
  requirement : RequestedRequirement
  versions : List ResolvedVersion
  highest : ResolvedVersion

def requestedVersions [Lowercase] (backend : Backend) (groupId artifactId version : Text)
    (repos : RepoContext) : Except ResolveError RequestedVersions := do
  let requirement ← parseRequestedRequirement groupId artifactId version
  let versions ← resolveRequirementVersions backend groupId artifactId requirement repos
  match versions.getLast? with
  | none => .error (.versionNotFound (Text.join [':'] [groupId, artifactId]) version)
  | some highest => .ok { requirement, versions := versions.dropLast, highest }

def unreadProject (coord : Coord) : ResolvedProject where
  project := .new coord.groupId coord.artifactId coord.version.original
  repoUrl := none
  workspaceModule := none

def systemCandidate (item : QueueItem) (coord : Coord) : Except ResolveError Candidate :=
  if item.dependency.systemPath.all fun path => (Text.trim path).isEmpty then
    .error (.pom ("invalid model: system-scoped dependency " ++
      bounded item.dependency.groupId ++ ':' :: bounded item.dependency.artifactId ++
      " requires a non-empty <systemPath>"))
  else
    .ok
      { arc := 0
        item
        coord
        resolved := { version := coord.version, repo := none }
        resolvedProject := some (unreadProject coord)
        hard := none
        source := [0]
        inherited := [] }

section Load

variable [Lowercase] (solver : Solver)

/-- What the fetch of a load returns: the end of the chain, its project, its
SNAPSHOT build and the coordinates on the way. -/
structure FetchedTarget where
  target : Coord
  project : ResolvedProject
  snapshot : Option ResolvedVersion
  between : List Coord

def fetchTarget (item : QueueItem) (requested coord : Coord) : Loading FetchedTarget :=
  fun cache =>
    match fetchProjectWithRelocationCached solver.backend coord item.path.repos cache with
    | (.error fault, cache) =>
      let err := attachDroppedRepos solver.backend item coord fault.toError
      -- A management or range target is a model of its own.
      (.error (if sameText coord requested then err else err.inModelOf coord), cache)
    | (.ok fetched, cache) =>
      -- A build kept along a relocation without a version is the target's
      -- version itself.
      let target :=
        match fetched.snapshot.filter fun _ => fetched.inheritedBuild with
        | some build => { fetched.target with version := build.version }
        | none => fetched.target
      (.ok
        { target, project := fetched.project, snapshot := fetched.snapshot,
          between := fetched.between }, cache)

structure Relocating where
  target : Coord
  project : ResolvedProject
  snapshot : Option ResolvedVersion
  resolved : ResolvedVersion
  inherited : List CoordKey
  dependency : Dependency
  managedScope : Bool
  hard : Option Hard
  alternatives : List ResolvedVersion
  /-- The coordinate whose versions `resolved` was listed among. -/
  listedFor : Option Coord
  aliases : List CoordKey
  previous : Coord

/-- What the loop leaves when it ends at its target. -/
def Relocating.resolution (s : Relocating) (candidate : Candidate) : Resolution :=
  let resolved :=
    if s.listedFor.all fun listed => !sameText listed s.target then
      { version := s.target.version, repo := none }
    else s.resolved
  { candidate :=
      { candidate with
        item := { candidate.item with dependency := s.dependency, managedScope := s.managedScope }
        coord := s.target
        resolved := s.snapshot.getD resolved
        resolvedProject := some s.project
        hard := s.hard
        inherited := s.inherited }
    alternatives := s.alternatives
    aliases := s.aliases }

def relocatedToSystem (s : Relocating) (candidate : Candidate) (version : Option Text) :
    Except ResolveError Resolution := do
  let item := { candidate.item with dependency := s.dependency, managedScope := s.managedScope }
  match version with
  | none =>
    let system ← systemCandidate item s.target
    .ok
      { candidate := { system with hard := none, source := [0] }
        alternatives := []
        aliases := s.aliases }
  | some version =>
    let requested ← requestedVersions solver.backend s.target.groupId s.target.artifactId version
      candidate.item.path.repos
    let system ← systemCandidate item { s.target with version := requested.highest.version }
    .ok
      { candidate :=
          { system with
            hard := hardConstraint requested.requirement
            source := [requested.versions.length] }
        alternatives := requested.versions
        aliases := s.aliases }

def managedRelocations (coord target : Coord) : ResolveError :=
  .relocationCycle (coord.display ++ " -> " ++ target.display ++
    " (more than 8 managed relocations)")

/-- The relocation target is managed to a range, which is mediated lazily as a
declared one is. -/
def relocatedToRange (s : Relocating) (candidate : Candidate) (requested : RequestedVersions) :
    Except ResolveError Resolution :=
  let managed := { s.target with version := requested.highest.version }
  if maxRelocationManagementPasses ≤ candidate.source.length then
    .error (managedRelocations candidate.coord managed)
  else
    .ok
      { candidate :=
          { candidate with
            item :=
              { candidate.item with dependency := s.dependency, managedScope := s.managedScope }
            coord := managed
            resolved := requested.highest
            resolvedProject := none
            hard := hardConstraint requested.requirement
            source := candidate.source ++ [requested.versions.length]
            inherited := s.aliases }
        alternatives := requested.versions
        aliases := s.aliases }

/-- The lowest version of a managed range, when the walk up the range stops
there because it relocates. -/
def stoppingLowest (s : Relocating) (candidate : Candidate) (requested : RequestedVersions) :
    Loading (Option ResolvedVersion) := do
  let lowest := requested.versions.head?.getD requested.highest
  let coord := { s.target with version := lowest.version }
  let fetched ← fetchTarget solver candidate.item candidate.coord coord
  pure
    (if !sameText fetched.target coord &&
        !candidate.item.path.contains (.ofCoord fetched.target) then some lowest
      else none)

def settleManaged (again : Relocating → Loading Load) (s : Relocating) (candidate : Candidate)
    (requirement : RequestedRequirement) (versions : List ResolvedVersion)
    (resolved : ResolvedVersion) : Loading Load := do
  let managed := { s.target with version := resolved.version }
  let s :=
    { s with
      resolved
      hard := hardConstraint requirement
      alternatives := versions
      listedFor := some managed }
  if sameText managed s.target then pure (.relocated (s.resolution candidate))
  else do
    let fetched ← fetchTarget solver candidate.item candidate.coord managed
    let s :=
      { s with
        previous := managed
        target := fetched.target
        project := fetched.project
        snapshot := fetched.snapshot }
    -- Nothing applies again to a managed version that stays.
    if sameText fetched.target managed then pure (.relocated (s.resolution candidate))
    else
      again
        { s with
          inherited := s.aliases
          aliases := (managed :: fetched.between).map .ofCoord
          hard := none
          alternatives := [] }

def manageVersion (again : Relocating → Loading Load) (s : Relocating) (candidate : Candidate)
    (version : Text) : Loading Load := do
  let requested ← Attempt.ofExcept (requestedVersions solver.backend s.target.groupId
    s.target.artifactId version candidate.item.path.repos)
  if requested.requirement.isRanges then do
    match ← stoppingLowest solver s candidate requested with
    | some lowest =>
      settleManaged solver again s candidate requested.requirement [] lowest
    | none =>
      let resolution ← Attempt.ofExcept (relocatedToRange s candidate requested)
      pure (.relocated resolution)
  else
    settleManaged solver again s candidate requested.requirement requested.versions
      requested.highest

def relocate (candidate : Candidate) : ℕ → Relocating → Loading Load
  | 0, s => Attempt.fail (managedRelocations candidate.coord s.target)
  | fuel + 1, s =>
    let item := candidate.item
    -- A cyclic target is cut before anything else applies to it.
    if item.path.contains (.ofCoord s.target) then pure (.cyclic (s.resolution candidate))
    else if excludes item.exclusions s.target.groupId s.target.artifactId then pure .excluded
    else if 1 < item.depth && !s.dependency.isFollowedTransitively then pure .excluded
    else if s.target.groupId = s.previous.groupId ∧ s.target.artifactId = s.previous.artifactId
    then pure (.relocated (s.resolution candidate))
    else
      match solver.management.entry s.target.groupId s.target.artifactId item.dependency with
      | none => pure (.relocated (({ s with managedScope := false }).resolution candidate))
      | some managed =>
        let (dependency, managedScope) := manage managed s.dependency item.depth
        let s := { s with dependency, managedScope }
        let version := managed.version.filter fun _ => 1 < item.depth
        if dependency.effectiveScope = .system then do
          let resolution ← Attempt.ofExcept (relocatedToSystem solver s candidate version)
          pure (.relocated resolution)
        else
          match version with
          | none => pure (.relocated (s.resolution candidate))
          | some version => manageVersion solver (relocate candidate fuel) s candidate version

def loadDeclared (candidate : Candidate) : Loading Load := do
  let coord := candidate.coord
  let fetched ← fetchTarget solver candidate.item coord coord
  if sameText fetched.target coord then
    pure
      (.ready
        { candidate with
          resolved := fetched.snapshot.getD candidate.resolved
          resolvedProject := some fetched.project })
  else
    relocate solver candidate maxRelocationManagementPasses
      { target := fetched.target
        project := fetched.project
        snapshot := fetched.snapshot
        resolved := candidate.resolved
        inherited := candidate.inherited
        dependency := candidate.item.dependency
        managedScope := candidate.item.managedScope
        hard := none
        alternatives := []
        listedFor := none
        aliases := (coord :: fetched.between).map .ofCoord
        previous := coord }

/-- A fault in the candidate's own model does not name the candidate, nor the
relocation target whose model it is. -/
def loadError (candidate : Candidate) (err : ResolveError) : ResolveError :=
  let (target, err) :=
    match err with
    | .declared module via error => if module.isEmpty then (via, error) else ([], err)
    | err => ([], err)
  let own :=
    match err.cause with
    | .pom _ => [candidate.coord.gav]
    | _ => []
  err.declaredVia (candidate.item.path.coordinates.tail ++ own ++ target)

/-- Fetch a candidate's project.  One whose coordinate names a property is not
read. -/
def loadCandidate (candidate : Candidate) : Loading Load :=
  if namesProperty candidate.coord then
    pure (.ready { candidate with resolvedProject := some (unreadProject candidate.coord) })
  else (loadDeclared solver candidate).mapError (loadError candidate)

def unresolvedCandidate (item : QueueItem) (versionStr : Text) : Candidate :=
  let version := Version.unresolved versionStr
  { arc := 0
    item
    coord := coordOf item.dependency version
    resolved := { version, repo := none }
    resolvedProject := none
    hard := none
    source := [0]
    inherited := [] }

def resolveManaged (item : QueueItem) (versionStr : Text) : Loading (Option Resolution) := do
  let dependency := item.dependency
  let requested ← Attempt.ofExcept (requestedVersions solver.backend dependency.groupId
    dependency.artifactId versionStr item.path.repos)
  let coord := coordOf dependency requested.highest.version
  if dependency.effectiveScope = .system then do
    let system ← Attempt.ofExcept (systemCandidate item coord)
    pure (some
      { candidate :=
          { system with
            hard := hardConstraint requested.requirement
            source := [requested.versions.length] }
        alternatives := requested.versions
        aliases := [] })
  else
    let candidate : Candidate :=
      { arc := 0
        item
        coord
        resolved := requested.highest
        resolvedProject := none
        hard := hardConstraint requested.requirement
        source := [requested.versions.length]
        inherited := [] }
    if requested.requirement.isRanges then
      pure (some { candidate, alternatives := requested.versions, aliases := [] })
    else do
      match ← loadCandidate solver candidate with
      | .ready candidate => pure (some { candidate, alternatives := [], aliases := [] })
      | .relocated resolution | .cyclic resolution => pure (some resolution)
      | .excluded => pure none

/-- Read a queued declaration.  Maven's scope and optional selectors prune on
the declared values, before management applies. -/
def resolveItem (item : QueueItem) : Loading (Option Resolution) :=
  let followed := item.dependency.isFollowedTransitively
  let item := applyManagedMetadata solver.management item
  let scope := item.dependency.effectiveScope
  if isExcluded item.dependency item.exclusions || (1 < item.depth && !followed) ||
      scope = Scope.import then pure none
  else
    match resolveVersionStr solver.management item.dependency item.depth with
    | .error error => Attempt.fail error
    | .ok versionStr =>
      match refuseUndefinedProperty solver.backend item versionStr with
      | .error error =>
        -- Maven fails on it only once mediation keeps it.
        if item.depth == 1 || scope = Scope.system || Text.startsWith versionStr "[" ||
            Text.startsWith versionStr "(" then Attempt.fail error
        else
          pure (some
            { candidate := unresolvedCandidate item versionStr
              alternatives := []
              aliases := [] })
      | .ok () => resolveManaged solver item versionStr

end Load

end Raeva
