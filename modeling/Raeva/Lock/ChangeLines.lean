import Raeva.Lock.Drift
import Raeva.Repo.Url

/-!
# The lines of a lockfile diff

What two lockfiles say differently, one change for each line,
`raeva/src/commands/lock_diff.rs`.  Packages, edges, modules, profiles and POM
pins are compared one kind after the other, and a package whose version changed
is paired with itself where each module has one version of it.
-/

namespace Raeva.Lock

/-! ## Phrases -/

def joinAnd : List Text → Text
  | [] => []
  | [one] => one
  | items => Text.join ", " items.dropLast ++ " and " ++ items.getLast?.getD []

def plural (count : ℕ) (one many : Text) : Text :=
  Text.ofNat count ++ ' ' :: if count = 1 then one else many

def moduleName (path : Text) : Text :=
  if Text.endsWith path "pom.xml" then
    match (path.take (path.length - "pom.xml".length)).rdropWhile (· == '/') with
    | [] => "the root module"
    | dir => dir
  else path

def modulesPhrase (modules : List Text) : Text :=
  if 3 < modules.length then Text.ofNat modules.length ++ " modules"
  else joinAnd (modules.map moduleName)

def boolText (value : Bool) : Text :=
  if value then "true" else "false"

def stampText (stamp : SnapshotStamp) : Text :=
  stamp.timestamp ++ '-' :: Text.ofNat stamp.build

def redactOrigin [UrlParser] (value : Text) : Text :=
  if isValidProjectRelativeOrigin value then value else UrlParser.redactUrl value

/-! ## Packages -/

inductive DepKind where
  | external
  | workspace
  | system
  deriving DecidableEq

def DepKind.label : DepKind → Option Text
  | external => none
  | workspace => some "workspace module"
  | system => some "system"

def DepKind.rank : DepKind → Text
  | external => ['0']
  | workspace => ['1']
  | system => ['2']

structure PackageKey where
  kind : DepKind
  groupId : Text
  artifactId : Text
  packaging : Text
  classifier : Option Text
  deriving DecidableEq

namespace PackageKey

def of (package : LockModulePackage) : PackageKey where
  kind :=
    if package.workspaceModule.isSome then .workspace
    else if package.systemPath.isSome then .system
    else .external
  groupId := package.coordinate.groupId
  artifactId := package.coordinate.artifactId
  packaging := package.coordinate.extension
  classifier := package.coordinate.classifier

def coordinate (key : PackageKey) : Text :=
  Text.join [':'] ([key.groupId, key.artifactId, key.packaging] ++ key.classifier.toList)

def isPlain (key : PackageKey) : Bool :=
  key.packaging = "jar" && (key.classifier.filter (!·.isEmpty)).isNone

def name (key : PackageKey) : Text :=
  if key.isPlain then key.groupId ++ ':' :: key.artifactId else key.coordinate

def shortName (key : PackageKey) : Text :=
  if key.isPlain then key.artifactId
  else Text.join [':'] ([key.artifactId, key.packaging] ++
    (key.classifier.filter (!·.isEmpty)).toList)

def sortKey (key : PackageKey) : List (List Text) :=
  [[key.kind.rank], [key.groupId], [key.artifactId], [key.packaging], key.classifier.toList]

end PackageKey

/-- One version of a package in one module on one platform, or the only one. -/
structure DepKey where
  platform : Text
  modulePath : Text
  package : PackageKey
  version : Option Text
  deriving DecidableEq

namespace DepKey

def of (platform : LockPlatform) (module : LockModule) (package : LockModulePackage) : DepKey where
  platform := platform.platform.display
  modulePath := module.path
  package := .of package
  version := some package.coordinate.version

def unversioned (key : DepKey) : DepKey :=
  { key with version := none }

def sortKey (key : DepKey) : List (List Text) :=
  [[key.platform], [key.modulePath]] ++ key.package.sortKey ++ [key.version.toList]

def name (key : DepKey) : Text :=
  match key.version with
  | some version => key.package.name ++ ':' :: version
  | none => key.package.name

end DepKey

def LockArtifact.new (coordinate : ArtifactCoord) (repoUrl : Text) : LockArtifact where
  coordinate
  repoUrl
  otherRepoUrls := []
  checksums := []
  snapshot := none
  pomSnapshot := none
  pomBase := false
  pomSha256 := none
  pomRepoUrls := []

/-- A package as it is compared: with its artifact row, or with a row that has a
workspace module's path or a system file's path and checksum. -/
structure DepEntry where
  artifact : LockArtifact
  directScope : Option Scope
  scope : Scope
  deriving DecidableEq

namespace DepEntry

def version (entry : DepEntry) : Text :=
  entry.artifact.fileVersion

def snapshot (entry : DepEntry) : Option Text :=
  entry.artifact.snapshot.map stampText

def scopeText (entry : DepEntry) : Text :=
  match entry.directScope with
  | some direct =>
    if direct = entry.scope then direct.asStr
    else direct.asStr ++ " resolving to " ++ entry.scope.asStr
  | none => "transitive " ++ entry.scope.asStr

def artifactOf (platform : LockPlatform) (package : LockModulePackage) : LockArtifact :=
  match package.workspaceModule, package.systemPath with
  | some workspace, _ => .new package.coordinate workspace
  | none, some path =>
    { LockArtifact.new package.coordinate path with
      checksums := package.systemSha256.toList.map Digest.sha256 }
  | none, none =>
    (lookupLast LockArtifact.coordinate platform.artifacts package.coordinate).getD
      (.new package.coordinate [])

def of (platform : LockPlatform) (package : LockModulePackage) : DepEntry where
  artifact := artifactOf platform package
  directScope := package.directScope
  scope := package.scope

end DepEntry

/-- The insertions into a map of packages; the last one of a key counts. -/
abbrev DepMap := List (DepKey × DepEntry)

namespace DepMap

def get? (map : DepMap) (key : DepKey) : Option DepEntry :=
  (lookupLast Prod.fst map key).map Prod.snd

def keys (map : DepMap) : List DepKey :=
  (map.map Prod.fst).dedup

def contains (map : DepMap) (key : DepKey) : Bool :=
  key ∈ map.map Prod.fst

def versions (map : DepMap) (key : DepKey) : ℕ :=
  map.keys.countP fun other => other.unversioned = key

def pairKey (old new : DepMap) (key : DepKey) : DepKey :=
  if old.versions key.unversioned = 1 ∧ new.versions key.unversioned = 1 then key.unversioned
  else key

def pair (map old new : DepMap) : DepMap :=
  map.map fun entry => (pairKey old new entry.1, entry.2)

end DepMap

def matchingPlatforms (lock : Lockfile) (allowed : Option (List Text)) : List LockPlatform :=
  lock.platforms.filter fun platform => allowed.all (·.contains platform.platform.display)

def platformIds (lock : Lockfile) (allowed : Option (List Text)) : List Text :=
  sortedValues ((matchingPlatforms lock allowed).map (·.platform.display))

def depMap (lock : Lockfile) (allowed : Option (List Text)) : DepMap :=
  (matchingPlatforms lock allowed).flatMap fun platform =>
    platform.modules.flatMap fun module =>
      module.packages.map fun package => (.of platform module package, .of platform package)

inductive Change where
  | version (old new : Text)
  | added (version : Text)
  | removed (version : Text)
  | snapshot (version old new : Text)
  | checksum (version : Text)
  | origin (version old new : Text)
  | scope (version old new : Text)
  deriving DecidableEq

namespace Change

def originText [UrlParser] (kind : DepKind) (artifact : LockArtifact) : Text :=
  if kind = .system then artifact.repoUrl
  else
    let files := Text.join ", " (artifact.fileOrigins.map redactOrigin)
    if artifact.pomRepoUrls.isEmpty then files
    else files ++ "; pom: " ++ Text.join ", " (artifact.pomRepoUrls.map redactOrigin)

def of [UrlParser] (key : DepKey) (old new : Option DepEntry) : Option Change :=
  match old, new with
  | none, some new => some (.added new.version)
  | some old, none => some (.removed old.version)
  | none, none => none
  | some old, some new =>
    let version := new.version
    if old.version ≠ version then some (.version old.version version)
    else if old.artifact.snapshot ≠ new.artifact.snapshot then
      some (.snapshot version (old.snapshot.getD "none") (new.snapshot.getD "none"))
    else if checksumDrifted old.artifact new.artifact then some (.checksum version)
    else if key.package.kind ≠ .workspace ∧ (old.artifact.repoUrl ≠ new.artifact.repoUrl ∨
          old.artifact.otherRepoUrls ≠ new.artifact.otherRepoUrls ∨
          old.artifact.pomRepoUrls ≠ new.artifact.pomRepoUrls) then
      some (.origin version (originText key.package.kind old.artifact)
        (originText key.package.kind new.artifact))
    else if (old.directScope, old.scope) ≠ (new.directScope, new.scope) then
      some (.scope version old.scopeText new.scopeText)
    else none

def describe : Change → Text × Option Text
  | .version old new => (old ++ " -> " ++ new, none)
  | .added at_ => (at_, some "added")
  | .removed at_ => (at_, some "removed")
  | .snapshot at_ old new => (at_ ++ ", snapshot " ++ old ++ " -> " ++ new, none)
  | .checksum at_ => (at_ ++ ", checksum changed", none)
  | .origin at_ old new => (at_ ++ ", origin " ++ old ++ " -> " ++ new, none)
  | .scope at_ old new => (at_ ++ ", scope " ++ old ++ " -> " ++ new, none)

def sortKey : Change → List Text
  | .version old new => [['0'], old, new]
  | .added at_ => [['1'], at_]
  | .removed at_ => [['2'], at_]
  | .snapshot at_ old new => [['3'], at_, old, new]
  | .checksum at_ => [['4'], at_]
  | .origin at_ old new => [['5'], at_, old, new]
  | .scope at_ old new => [['6'], at_, old, new]

end Change

/-! ## Modules and profiles -/

def comparedPlatforms (old new : Lockfile) (allowed : Option (List Text)) :
    List (LockPlatform × LockPlatform) :=
  (matchingPlatforms new allowed).filterMap fun platform =>
    (old.platforms.find? fun candidate => candidate.platform = platform.platform).map
      fun previous => (previous, platform)

inductive ModuleChangeKind where
  | added
  | removed
  | coordinate
  deriving DecidableEq

structure ModuleChange where
  platform : Text
  module : Text
  change : ModuleChangeKind
  old : Option Text
  new : Option Text
  oldPackaging : Option Text
  newPackaging : Option Text
  deriving DecidableEq

def orNone (value : Option Text) : Text :=
  value.getD "none"

def ModuleChange.line (change : ModuleChange) : Text :=
  match change.change with
  | .added => "  module " ++ change.module ++ " added: " ++ orNone change.new
  | .removed => "  module " ++ change.module ++ " removed: " ++ orNone change.old
  | .coordinate =>
    "  module ".toList ++ change.module ++ ": ".toList ++ orNone change.old ++ " -> ".toList ++
      orNone change.new ++
      if change.oldPackaging = change.newPackaging then []
      else " (".toList ++ orNone change.oldPackaging ++ " -> ".toList ++
        orNone change.newPackaging ++ [')']

def moduleChangeKind : Option LockModule → Option LockModule → Option ModuleChangeKind
  | none, some _ => some .added
  | some _, none => some .removed
  | some a, some b => if a.gav ≠ b.gav ∨ a.packaging ≠ b.packaging then some .coordinate else none
  | none, none => none

def moduleChange (platform path : Text) (old new : Option LockModule) : Option ModuleChange :=
  (moduleChangeKind old new).map fun change =>
    { platform
      module := path
      change
      old := old.map (·.gav.display)
      new := new.map (·.gav.display)
      oldPackaging := old.map (·.packaging)
      newPackaging := new.map (·.packaging) }

def moduleChanges (previous platform : LockPlatform) : List ModuleChange :=
  (sortedValues ((previous.modules ++ platform.modules).map (·.path))).filterMap fun path =>
    moduleChange platform.platform.display path (lookupLast LockModule.path previous.modules path)
      (lookupLast LockModule.path platform.modules path)

structure ProfileChange where
  platform : Text
  old : List Text
  new : List Text
  deriving DecidableEq

def ProfileChange.line (change : ProfileChange) : Text :=
  let side (profiles : List Text) : Text :=
    if profiles.isEmpty then "none" else Text.join ", " profiles
  "  active profiles: " ++ side change.old ++ " -> " ++ side change.new

def profileChange (previous platform : LockPlatform) : Option ProfileChange :=
  match previous.modelInputs, platform.modelInputs with
  | some a, some b =>
    if a.profiles ≠ b.profiles then
      some { platform := platform.platform.display, old := a.profiles, new := b.profiles }
    else none
  | _, _ => none

/-- The modules added, removed or given other coordinates, and the profile
changes. -/
def modelChanges (old new : Lockfile) (allowed : Option (List Text)) :
    List ModuleChange × List ProfileChange :=
  let compared := comparedPlatforms old new allowed
  (compared.flatMap fun pair => moduleChanges pair.1 pair.2,
    compared.filterMap fun pair => profileChange pair.1 pair.2)

/-! ## Edges -/

inductive EdgeChangeKind where
  | added
  | removed
  | scope
  | optional
  deriving DecidableEq

abbrev EdgeState := Option Scope × Bool

def EdgeState.sortKey (state : EdgeState) : List ℕ :=
  [(state.1.map (·.rank + 1)).getD 0, if state.2 then 1 else 0]

structure EdgeChange where
  source : DepKey
  target : DepKey
  change : EdgeChangeKind
  old : Option Text
  new : Option Text
  state : Text
  /-- Another edge between the same packages stays. -/
  others : Bool
  deriving DecidableEq

def EdgeChange.line (change : EdgeChange) : Text :=
  let source := change.source.name
  let target := change.target.name
  let changed (what : String) : Text :=
    source ++ "'s dependency on " ++ target ++ " changed " ++ what.toList ++ ' ' ::
      (orNone change.old ++ " -> " ++ orNone change.new)
  let text := match change.change, change.others with
    | .added, false =>
      source ++ " now depends on " ++ target ++ " (" ++ change.state ++ [')']
    | .added, true =>
      source ++ " now also depends on " ++ target ++ " (" ++ change.state ++ [')']
    | .removed, false => source ++ " no longer depends on " ++ target
    | .removed, true =>
      source ++ " no longer depends on " ++ target ++ " as " ++ change.state ++
        "; another dependency stays"
    | .scope, _ => changed "scope"
    | .optional, _ => changed "optional"
  "  in " ++ change.source.modulePath ++ ": " ++ text

abbrev EdgeMap := List ((DepKey × DepKey) × EdgeState)

def EdgeMap.states (map : EdgeMap) (key : DepKey × DepKey) : List EdgeState :=
  sortBy EdgeState.sortKey ((map.filter fun edge => edge.1 = key).map Prod.snd).dedup

def edgeKey (oldMap newMap : DepMap) (platform : LockPlatform) (module : LockModule) (index : ℕ) :
    Option DepKey :=
  module.packages[index]?.map fun package =>
    let key := DepKey.of platform module package
    if !oldMap.contains key && !newMap.contains key then key.unversioned else key

def edgeEntry (oldMap newMap : DepMap) (platform : LockPlatform) (module : LockModule)
    (edge : LockEdge) : Option ((DepKey × DepKey) × EdgeState) := do
  let source ← edgeKey oldMap newMap platform module edge.source
  let target ← edgeKey oldMap newMap platform module edge.target
  guard ([source, target].all fun key => oldMap.contains key && newMap.contains key)
  return ((source, target), (edge.scope, edge.optional))

/-- The edges of a lockfile's modules, but for those that the other records the
same. -/
def edgeMap (lock other : Lockfile) (allowed : Option (List Text)) (oldMap newMap : DepMap) :
    EdgeMap :=
  (matchingPlatforms lock allowed).flatMap fun platform =>
    let found := other.platforms.find? fun entry => entry.platform = platform.platform
    let otherModules := (found.map (·.modules)).getD []
    (platform.modules.filter (· ∉ otherModules)).flatMap fun module =>
      module.edges.filterMap (edgeEntry oldMap newMap platform module)

def EdgeState.describe (state : EdgeState) : Text :=
  "scope " ++ (state.1.map Scope.asStr).getD "none" ++ ", optional " ++
    boolText state.2

def EdgeState.text (state : EdgeState) : Text :=
  (state.1.map Scope.asStr).getD "unscoped".toList ++ if state.2 then ", optional".toList else []

/-- The removed and the added edges, taken two by two while both sides have
one. -/
def edgePairs (key : DepKey × DepKey) (old new : List EdgeState) :
    List EdgeState → List EdgeState → List EdgeChange
  | a :: removed, b :: added =>
    (if a.1 ≠ b.1 then
      [⟨key.1, key.2, .scope, a.1.map Scope.asStr, b.1.map Scope.asStr, [], false⟩] else []) ++
    (if a.2 ≠ b.2 then
      [⟨key.1, key.2, .optional, some (boolText a.2), some (boolText b.2), [], false⟩] else []) ++
    edgePairs key old new removed added
  | a :: removed, [] =>
    ⟨key.1, key.2, .removed, some a.describe, none, a.text, !new.isEmpty⟩ ::
      edgePairs key old new removed []
  | [], added => added.map fun b =>
      ⟨key.1, key.2, .added, none, some b.describe, b.text, !old.isEmpty⟩

def edgeChangesOf (before after : EdgeMap) (key : DepKey × DepKey) : List EdgeChange :=
  let old := before.states key
  let new := after.states key
  edgePairs key old new (old.filter (· ∉ new)) (new.filter (· ∉ old))

def edgeChanges (old new : Lockfile) (allowed : Option (List Text)) (oldMap newMap : DepMap) :
    List EdgeChange :=
  let before := edgeMap old new allowed oldMap newMap
  let after := edgeMap new old allowed oldMap newMap
  (sortBy (fun key : DepKey × DepKey => key.1.sortKey ++ key.2.sortKey)
    ((before ++ after).map Prod.fst).dedup).flatMap (edgeChangesOf before after)

/-! ## POM pins -/

inductive PomChangeKind where
  | pom
  | supportPom
  | supportPomOrigin
  | supportPomRemoved
  | parentRange
  deriving DecidableEq

def PomChangeKind.asStr : PomChangeKind → Text
  | pom => "pom"
  | supportPom => "support_pom"
  | supportPomOrigin => "support_pom_origin"
  | supportPomRemoved => "support_pom_removed"
  | parentRange => "parent_range"

structure PomChange where
  platform : Text
  coordinate : Text
  module : Option Text
  model : Option Text
  change : PomChangeKind
  old : Option Text
  new : Option Text
  oldSnapshot : Option Text
  newSnapshot : Option Text
  deriving DecidableEq

namespace PomChange

/-- The line without its platform; a digest is shown by its first digits. -/
def line (change : PomChange) : Text :=
  let short (digest : Option Text) : Text := (digest.map (·.take 12)).getD "none"
  let snapshot (stamp : Option Text) : Text :=
    (stamp.map fun stamp => " (snapshot " ++ stamp ++ [')']).getD []
  let digests : Text := short change.old ++ snapshot change.oldSnapshot ++ " -> " ++
    short change.new ++ snapshot change.newSnapshot
  match change.change, change.old with
  | .parentRange, _ =>
    "  parent range " ++ change.coordinate ++ " for " ++ change.model.getD [] ++
      " in " ++ change.module.getD [] ++ ": " ++ orNone change.old ++
      " -> " ++ orNone change.new
  | .pom, _ => "  POM changed for " ++ change.coordinate ++ ": " ++ digests
  | .supportPom, none => "  support POM added for " ++ change.coordinate
  | .supportPom, some _ =>
    "  support POM changed for " ++ change.coordinate ++ ": " ++ digests
  | .supportPomOrigin, _ =>
    "  support POM origin changed for " ++ change.coordinate ++ ": " ++
      orNone change.old ++ " -> " ++ orNone change.new
  | .supportPomRemoved, _ => "  support POM removed for " ++ change.coordinate

def sortKey (change : PomChange) : List (List Text) :=
  [[change.platform], change.module.toList, change.model.toList, [change.coordinate],
    [change.change.asStr]]

end PomChange

/-- The change of a companion POM.  A new build of the artifact itself is a
change of its package. -/
def companionChange (previous platform : LockPlatform) (artifact : LockArtifact) :
    Option PomChange := do
  let old ← lookupLast LockArtifact.coordinate previous.artifacts artifact.coordinate
  let stampChanged := old.pomBuild ≠ artifact.pomBuild ∧ old.snapshot = artifact.snapshot
  guard (old.pomSha256 ≠ artifact.pomSha256 ∨ stampChanged)
  return {
    platform := platform.platform.display
    coordinate := artifact.coordinate.display
    module := none
    model := none
    change := .pom
    old := old.pomSha256.map Hex.hex
    new := artifact.pomSha256.map Hex.hex
    oldSnapshot := old.pomBuild.map stampText
    newSnapshot := artifact.pomBuild.map stampText }

def supportPomChange [UrlParser] (previous platform : LockPlatform) (entry : Text × SupportPom) :
    Option PomChange :=
  let old := previous.supportPoms.lookup entry.1
  let pinChanged := (old.map fun pin => (pin.sha256, pin.snapshot)) ≠
    some (entry.2.sha256, entry.2.snapshot)
  let originChanged := old.any fun pin => pin.repoUrl ≠ entry.2.repoUrl
  if pinChanged ∨ originChanged then
    some {
      platform := platform.platform.display
      coordinate := entry.1
      module := none
      model := none
      change := if pinChanged then .supportPom else .supportPomOrigin
      old := old.map fun pin => if pinChanged then pin.sha256.hex else redactOrigin pin.repoUrl
      new := some (if pinChanged then entry.2.sha256.hex else redactOrigin entry.2.repoUrl)
      oldSnapshot := (old.bind (·.snapshot)).map stampText
      newSnapshot := entry.2.snapshot.map stampText }
  else none

def supportPomRemoval (platform : LockPlatform) (entry : Text × SupportPom) : Option PomChange :=
  if platform.supportPoms.contains entry.1 then none
  else some {
    platform := platform.platform.display
    coordinate := entry.1
    module := none
    model := none
    change := .supportPomRemoved
    old := some entry.2.sha256.hex
    new := none
    oldSnapshot := entry.2.snapshot.map stampText
    newSnapshot := none }

def modelName (platform : LockPlatform) (model : Text) : Text :=
  match platform.modules.find? fun module => module.gav.display = model with
  | some module => "module:" ++ module.path
  | none => model

def parentRangeSelections (platform : LockPlatform) :
    List ((Text × Text × Text) × ParentRange) :=
  platform.modules.flatMap fun module => module.parentRanges.map fun selection =>
    ((module.path, modelName platform selection.model, selection.parent), selection)

def parentRangeChange (previous platform : LockPlatform) (key : Text × Text × Text) :
    Option PomChange :=
  let old := (lookupLast Prod.fst (parentRangeSelections previous) key).map Prod.snd
  let new := (lookupLast Prod.fst (parentRangeSelections platform) key).map Prod.snd
  if old.map (·.selected) = new.map (·.selected) then none
  else some {
    platform := platform.platform.display
    coordinate := key.2.2
    module := some key.1
    model := (new.or old).map (·.model)
    change := .parentRange
    old := old.map (·.selected)
    new := new.map (·.selected)
    oldSnapshot := none
    newSnapshot := none }

def platformPomChanges [UrlParser] (previous platform : LockPlatform) : List PomChange :=
  platform.artifacts.filterMap (companionChange previous platform) ++
    platform.supportPoms.entries.filterMap (supportPomChange previous platform) ++
    previous.supportPoms.entries.filterMap (supportPomRemoval platform) ++
    (sortBy (fun key : Text × Text × Text => [key.1, key.2.1, key.2.2])
      ((parentRangeSelections previous ++ parentRangeSelections platform).map
        Prod.fst).dedup).filterMap
        (parentRangeChange previous platform)

def pomPinChanges [UrlParser] (old new : Lockfile) (allowed : Option (List Text)) :
    List PomChange :=
  sortBy PomChange.sortKey <|
    (comparedPlatforms old new allowed).flatMap fun pair => platformPomChanges pair.1 pair.2

/-! ## All changes -/

structure LockChanges where
  oldMap : DepMap
  newMap : DepMap
  oldPlatforms : List Text
  newPlatforms : List Text
  changes : List (DepKey × Change)
  moduleChanges : List ModuleChange
  profileChanges : List ProfileChange
  edgeChanges : List EdgeChange
  pomChanges : List PomChange

def packageChanges [UrlParser] (oldMap newMap : DepMap) (oldPlatforms newPlatforms : List Text) :
    List (DepKey × Change) :=
  ((sortBy DepKey.sortKey (oldMap ++ newMap).keys).filter fun key =>
    key.platform ∈ oldPlatforms ∧ key.platform ∈ newPlatforms).filterMap fun key =>
      (Change.of key (oldMap.get? key) (newMap.get? key)).map fun change => (key, change)

namespace LockChanges

def between [UrlParser] (old new : Lockfile) (allowed : Option (List Text)) : LockChanges :=
  let oldMap := depMap old allowed
  let newMap := depMap new allowed
  let oldPaired := oldMap.pair oldMap newMap
  let newPaired := newMap.pair oldMap newMap
  { oldMap := oldPaired
    newMap := newPaired
    oldPlatforms := platformIds old allowed
    newPlatforms := platformIds new allowed
    changes :=
      packageChanges oldPaired newPaired (platformIds old allowed) (platformIds new allowed)
    moduleChanges := (modelChanges old new allowed).1
    profileChanges := (modelChanges old new allowed).2
    edgeChanges := Lock.edgeChanges old new allowed oldPaired newPaired
    pomChanges := pomPinChanges old new allowed }

def compared (diff : LockChanges) : List Text :=
  diff.oldPlatforms.filter (· ∈ diff.newPlatforms)

def grouped (diff : LockChanges) (changes : List (Text × Text)) : List (Text × Option ℕ) :=
  let kept := changes.filter fun change => change.2 ∈ diff.compared
  (sortedValues (kept.map Prod.fst)).map fun line =>
    let platforms := sortedValues ((kept.filter fun change => change.1 = line).map Prod.snd)
    (if platforms.length < diff.compared.length then
      line ++ " (on " ++ joinAnd platforms ++ [')'] else line, none)

def groups (diff : LockChanges) : List (PackageKey × Change) :=
  sortBy (fun group : PackageKey × Change => group.1.sortKey ++ [group.2.sortKey])
    (diff.changes.map fun change => (change.1.package, change.2)).dedup

/-- The modules of a group, each with its platforms and the index of its first
change. -/
def places (diff : LockChanges) (group : PackageKey × Change) : List (Text × List Text × ℕ) :=
  let rows := diff.changes.zipIdx.filter fun row => (row.1.1.package, row.1.2) = group
  (sortedValues (rows.map (·.1.1.modulePath))).map fun path =>
    let here := rows.filter fun row => row.1.1.modulePath = path
    (path, sortedValues (here.map (·.1.1.platform)), (here.head?.map (·.2)).getD 0)

def rowName (diff : LockChanges) (package : PackageKey) : Text :=
  let named := diff.groups.filter fun group => group.1.artifactId = package.artifactId
  if 1 < (sortedValues (named.map (·.1.groupId))).length then
    package.groupId ++ ':' :: package.shortName
  else package.shortName

def rowText (diff : LockChanges) (group : PackageKey × Change) (modules platforms : List Text) :
    Text :=
  let all := sortedValues ((diff.oldMap ++ diff.newMap).keys.map (·.modulePath))
  let (text, word) := group.2.describe
  let notes := word.toList ++ group.1.kind.label.toList ++
    (if 1 < all.length ∧ modules.length < all.length then
      ["in " ++ modulesPhrase modules] else []) ++
    (if platforms.length < diff.compared.length then ["on " ++ joinAnd platforms] else [])
  if notes.isEmpty then text
  else text ++ " (" ++ Text.join ", " notes ++ [')']

/-- The rows of a group: one where its modules changed on the same platforms,
otherwise one for each module. -/
def groupRows (diff : LockChanges) (group : PackageKey × Change) : List (Text × Text × ℕ) :=
  match diff.places group with
  | [] => []
  | (path, platforms, index) :: rest =>
    if rest.all fun place => place.2.1 = platforms then
      [(diff.rowName group.1, diff.rowText group (path :: rest.map (·.1)) platforms,
        rest.foldl (fun least place => min least place.2.2) index)]
    else ((path, platforms, index) :: rest).map fun place =>
      (diff.rowName group.1, diff.rowText group [place.1] place.2.1, place.2.2)

def nameColumnMax : ℕ := 40

def platformLine (map : DepMap) (word : String) (platform : Text) : Text × Option ℕ :=
  let count := ((map.keys.filter fun key =>
    key.platform = platform ∧ key.package.kind = .external).map
      fun key => (key.package, key.version)).dedup.length
  ("  platform " ++ platform ++ ' ' :: word.toList ++ " (" ++
    plural count "dependency" "dependencies" ++ [')'], none)

def changeLines (diff : LockChanges) : List (Text × Option ℕ) :=
  let rows := diff.groups.flatMap diff.groupRows
  let width := ((rows.map (·.1.length)).filter (· ≤ nameColumnMax)).foldl max 0
  rows.map (fun (name, text, index) =>
      ("  " ++ name ++ List.replicate (width - name.length) ' ' ++ "  " ++ text,
        some index)) ++
    (diff.newPlatforms.filter (· ∉ diff.oldPlatforms)).map (platformLine diff.newMap "added") ++
    (diff.oldPlatforms.filter (· ∉ diff.newPlatforms)).map (platformLine diff.oldMap "removed")

def churn (diff : LockChanges) (collapse : Bool) (change : PomChange) : Bool :=
  collapse && change.platform ∈ diff.compared &&
    (change.change = .supportPomRemoved || (change.change = .supportPom && change.old.isNone))

def churnLine (diff : LockChanges) (collapse : Bool) : List (Text × Option ℕ) :=
  let churned := diff.pomChanges.filter (diff.churn collapse)
  let count (side : PomChange → Bool) : ℕ :=
    (sortedValues ((churned.filter side).map (·.coordinate))).length
  let counts := [(count fun change => change.change = .supportPom, "added".toList),
    (count fun change => change.change ≠ .supportPom, "removed".toList)].filter fun side =>
      0 < side.1
  if counts.isEmpty then []
  else [("  support POMs (parents and BOMs): " ++
    Text.join ", " (counts.map fun (count, word) => Text.ofNat count ++ ' ' :: word) ++
    "; -v lists them", none)]

/-- The text lines.  Without `detail` the support POMs added or removed along
with changed packages are one count. -/
def lines (diff : LockChanges) (detail : Bool) : List (Text × Option ℕ) :=
  let packageLines := diff.changeLines
  let collapse := !detail && !packageLines.isEmpty
  diff.grouped (diff.moduleChanges.map (fun change => (change.line, change.platform)) ++
      diff.profileChanges.map fun change => (change.line, change.platform)) ++
    packageLines ++
    diff.grouped (diff.edgeChanges.map fun change => (change.line, change.source.platform)) ++
    diff.grouped ((diff.pomChanges.filter fun change => !diff.churn collapse change).map
      fun change => (change.line, change.platform)) ++
    diff.churnLine collapse

end LockChanges

def lockChangeLines [UrlParser] (old new : Lockfile) (allowed : Option (List Text)) : List Text :=
  ((LockChanges.between old new allowed).lines true).map Prod.fst

end Raeva.Lock
