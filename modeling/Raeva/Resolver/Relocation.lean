import Raeva.Maven.Snapshot
import Raeva.Resolver.Management

/-!
# Relocations

Following a coordinate's relocations to the end of the chain, with the cache
every lookup shares, as in `solver/relocation.rs`.  The lookup returns its
outcome together with the cache it leaves.
-/

namespace Raeva

def maxRelocations : ℕ := 32

/-- Each coordinate seen on a relocation chain within a repository context,
with the end of the chain and the coordinates between them. -/
abbrev RelocationCache := Table (Coord × RepoContext) (Coord × List Coord)

inductive RelocationFault where
  | cycle (chain : List Coord) (next : Coord)
  | tooLong (coord last : Coord)
  | failed (error : ResolveError)
  deriving DecidableEq

def shownCoordinates : ℕ := 16

def RelocationFault.toError : RelocationFault → ResolveError
  | cycle chain next =>
    let shown := (chain.take shownCoordinates).map Coord.display
    let cut :=
      if shownCoordinates < chain.length then
        ["... (" ++ Text.ofNat (chain.length + 1) ++ " coordinates)"]
      else []
    .relocationCycle (Text.join " -> " (shown ++ cut ++ [next.display]))
  | tooLong coord last =>
    .relocationCycle (coord.display ++ " -> " ++ last.display ++
      " (more than 32 relocations)")
  | failed error => error

structure Fetched where
  target : Coord
  project : ResolvedProject
  snapshot : Option ResolvedVersion
  between : List Coord
  inheritedBuild : Bool
  deriving DecidableEq

def nonEmpty (text : Option Text) : Option Text :=
  text.filter (!·.isEmpty)

def relocationCoord (coord : Coord) (relocation : Relocation) : Except ResolveError Coord :=
  let groupId := (nonEmpty relocation.groupId).getD coord.groupId
  let artifactId := (nonEmpty relocation.artifactId).getD coord.artifactId
  match nonEmpty relocation.version with
  | none => .ok { coord with groupId, artifactId }
  | some text =>
    match Version.parse text with
    | .ok version => .ok { coord with groupId, artifactId, version }
    | .error error => .error (.version error)

/-- Fetch `coord`, a SNAPSHOT as the build `pinned` names or, without one, as
the build its metadata names. -/
def fetchBuild (backend : Backend) (coord : Coord) (pinned : Option ResolvedVersion)
    (repos : RepoContext) : Except ResolveError (ResolvedProject × Option ResolvedVersion) :=
  if resolvesThroughSnapshotMetadata coord.version.original then do
    let snapshot ←
      match pinned with
      | some build => Except.ok build
      | none => backend.resolveSnapshotVersion coord repos
    let resolved ← backend.fetchProject { coord with version := snapshot.version }
      pinned.isNone repos
    .ok (resolved, some snapshot)
  else do
    let resolved ← backend.fetchProject coord false repos
    .ok (resolved, none)

/-- Where a fetched model sends its coordinate; a reactor module's relocation
is never followed. -/
def nextCoord (current : Coord) (resolved : ResolvedProject) : Except ResolveError Coord :=
  match resolved.project.relocation with
  | some relocation =>
    if resolved.workspaceModule.isNone then relocationCoord current relocation else .ok current
  | none => .ok current

def keptBuild (resolved : ResolvedProject) (snapshot : Option ResolvedVersion) :
    Option ResolvedVersion :=
  if resolved.project.relocation.any fun relocation => (nonEmpty relocation.version).isNone then
    snapshot.map fun build => { version := build.version, repo := none }
  else none

def chainBetween (chain : List Coord) : List Coord :=
  chain.tail.dropLast

def cacheChain (cache : RelocationCache) (chain : List Coord) (repos : RepoContext) :
    RelocationCache :=
  match chain.getLast? with
  | none => cache
  | some last =>
    chain.zipIdx.foldl (fun cache (seen, index) =>
      cache.insert (seen, repos) (last, (chainBetween chain).drop index)) cache

/-- A fault in a relocation target's own model names each hop after the first
coordinate. -/
def atHop (chain : List Coord) (error : ResolveError) : ResolveError :=
  chain.tail.reverse.foldl ResolveError.inModelOf error

def takeOn (chain : List Coord) : List Coord → Except RelocationFault (List Coord)
  | [] => .ok chain
  | hop :: rest => if hop ∈ chain then .error (.cycle chain hop) else takeOn (chain ++ [hop]) rest

section Follow

variable (backend : Backend) (coord : Coord) (repos : RepoContext)

def tooLong (chain : List Coord) : Except RelocationFault Unit :=
  if chain.length ≤ maxRelocations + 1 then .ok ()
  else .error (.tooLong coord (chain.getLast?.getD coord))

def finishChain (chain : List Coord) (cacheable : Bool) (cache : RelocationCache)
    (current : Coord) (resolved : ResolvedProject) (snapshot : Option ResolvedVersion)
    (inheritedBuild : Bool) : Fetched × RelocationCache :=
  ({ target := current, project := resolved, snapshot, between := chainBetween chain,
     inheritedBuild },
    if cacheable then cacheChain cache chain repos else cache)

def followCached (chain : List Coord) (current : Coord) (cacheable : Bool)
    (cache : RelocationCache) (mapped : Coord) (between : List Coord) :
    Except RelocationFault (Fetched × RelocationCache) := do
  let chain ← takeOn chain between
  -- The end of a chain maps to itself, which is no cycle.
  let chain ← if mapped = current then Except.ok chain else takeOn chain [mapped]
  tooLong coord chain
  match fetchBuild backend mapped none repos with
  | .error error => .error (.failed (atHop chain error))
  | .ok (resolved, snapshot) =>
    .ok (finishChain repos chain cacheable cache mapped resolved snapshot false)

def followChain : ℕ → List Coord → Coord → Option ResolvedVersion → Bool → RelocationCache →
    Except RelocationFault (Fetched × RelocationCache)
  | 0, chain, current, _, _, _ => .error (.tooLong coord (chain.getLast?.getD current))
  | fuel + 1, chain, current, inherited, cacheable, cache =>
    if current ∈ chain then .error (.cycle chain current)
    else do
      let chain := chain ++ [current]
      tooLong coord chain
      let cached := if inherited.isSome then none else cache.lookup (current, repos)
      match cached with
      | some (mapped, between) =>
        followCached backend coord repos chain current cacheable cache mapped between
      | none =>
        match fetchBuild backend current inherited repos with
        | .error error => .error (.failed (atHop chain error))
        | .ok (resolved, snapshot) =>
          match nextCoord current resolved with
          | .error error => .error (.failed error)
          | .ok next =>
            if next = current then
              .ok (finishChain repos chain cacheable cache current resolved snapshot
                inherited.isSome)
            else
              let kept := keptBuild resolved snapshot
              followChain fuel chain next kept (cacheable && kept.isNone) cache

/-- The project of `coord` at the end of its relocations; a failed lookup
leaves the cache as it was. -/
def fetchProjectWithRelocationCached (cache : RelocationCache) :
    Except RelocationFault Fetched × RelocationCache :=
  match followChain backend coord repos (maxRelocations + 2) [] coord none true cache with
  | .error fault => (.error fault, cache)
  | .ok (fetched, cache) => (.ok fetched, cache)

end Follow

end Raeva
