import Raeva.Resolver.Graph
import Raeva.Resolver.Management

/-!
# Requirements and candidates

What a declaration asks for, and the candidates that stand for it in conflict
mediation, with Maven's order of nearness.
-/

namespace Raeva

inductive DynamicVersionToken where
  | release
  | integration
  deriving DecidableEq

def DynamicVersionToken.requirementLabel : DynamicVersionToken → Text
  | release => "RELEASE"
  | integration => "LATEST"

def parseDynamicVersionToken (token : Text) : Option DynamicVersionToken :=
  let token := Text.trim token
  if token = "RELEASE" then some .release
  else if token = "LATEST" then some .integration
  else none

/-- What a declaration requests.  The versions of the hard ones are plain,
since they were written in brackets. -/
inductive RequestedRequirement where
  | exact (version : Version) (plain : version.Plain)
  | soft (version : Version)
  | ranges (req : VersionReq) (bracketed : req.Bracketed)
  | dynamic (token : DynamicVersionToken)

theorem VersionReq.Bracketed.exactVersion [Lowercase] {req : VersionReq} (h : req.Bracketed)
    {version : Version} (hv : req.exactVersion = some version) : version.Plain := by
  unfold VersionReq.exactVersion at hv
  split at hv
  · cases hv
    exact h
  · rename_i range
    split at hv
    · exact (h range (by simp)).1 version hv
    · cases hv
  · cases hv
  · cases hv

def RequestedRequirement.ofBracketed [Lowercase] (req : VersionReq) (h : req.Bracketed) :
    RequestedRequirement :=
  match hv : req.exactVersion with
  | some version => .exact version (h.exactVersion hv)
  | none => .ranges req h

def parseRequestedRequirement [Lowercase] (groupId artifactId rawVersion : Text) :
    Except ResolveError RequestedRequirement :=
  let trimmed := Text.trim rawVersion
  let invalid :=
    ResolveError.invalidVersionRequirement (Text.join [':'] [groupId, artifactId]) trimmed
  match parseDynamicVersionToken trimmed with
  | some token => .ok (.dynamic token)
  | none =>
    -- Gradle's dynamic versions.
    if Text.endsWith trimmed "+" ||
        Text.startsWith (Text.toAsciiLowercase trimmed) "latest." then .error invalid
    else
      match h : VersionReq.parse trimmed with
      | .error _ => .error invalid
      | .ok (.soft version) => .ok (.soft version)
      | .ok (.exact version) =>
        .ok (.ofBracketed (.exact version) ((VersionReq.parse_bracketed h).resolve_left (by simp)))
      | .ok (.ranges ranges) =>
        .ok (.ofBracketed (.ranges ranges) ((VersionReq.parse_bracketed h).resolve_left (by simp)))

structure Hard where
  req : VersionReq
  bracketed : req.Bracketed

instance : DecidableEq Hard := fun a b =>
  decidable_of_iff (a.req = b.req) (by cases a; cases b; simp)

def Hard.text (hard : Hard) : Text :=
  hard.req.display

theorem Hard.text_inj {a b : Hard} (h : a.text = b.text) : a = b := by
  obtain ⟨a, ha⟩ := a
  obtain ⟨b, hb⟩ := b
  obtain rfl : a = b := VersionReq.display_inj ha hb h
  rfl

def hardConstraint : RequestedRequirement → Option Hard
  | .ranges req bracketed => some ⟨req, bracketed⟩
  | .exact version plain => some ⟨.exact version, plain⟩
  | .soft _ | .dynamic _ => none

def RequestedRequirement.isRanges : RequestedRequirement → Bool
  | ranges .. => true
  | _ => false

/-- One declaration's stand in a conflict group.  `arc` numbers the allocation
that holds it, so that equality is that of the shared pointers. -/
structure Candidate where
  arc : ℕ
  item : QueueItem
  coord : Coord
  resolved : ResolvedVersion
  resolvedProject : Option ResolvedProject
  hard : Option Hard
  /-- The positions of the versions of the ranges on the way here. -/
  source : List ℕ
  /-- The relocations carried into this candidate's descriptor read. -/
  inherited : List CoordKey
  deriving DecidableEq

namespace Candidate

def key (c : Candidate) : CoordKey :=
  .ofCoord c.coord

def scope (c : Candidate) : Scope :=
  c.item.dependency.effectiveScope

def follows (c : Candidate) : Bool :=
  Raeva.follows c.item.dependency

def same (a b : Candidate) : Bool :=
  (a.item.order.cmp b.item.order).isEq && sameText a.coord b.coord

/-- Nearest first; then depth-first order of the parents, so that siblings
compare by version, highest first; then depth-first order. -/
def rankCmp [Lowercase] (a b : Candidate) : Ordering :=
  (compare a.item.depth b.item.depth).then <|
  (a.item.order.parent.cmp b.item.order.parent).then <|
  (b.coord.version.cmp a.coord.version).then <|
  (a.item.order.cmp b.item.order).then <|
  compare a.item.declaredAt b.item.declaredAt

end Candidate

/-- A read declaration: its highest candidate, the other versions of its range
and the keys it relocated from. -/
structure Resolution where
  candidate : Candidate
  alternatives : List ResolvedVersion
  aliases : List CoordKey
  deriving DecidableEq

inductive Load where
  | ready (candidate : Candidate)
  | relocated (resolution : Resolution)
  /-- The project relocates onto an artifact on its own path. -/
  | cyclic (resolution : Resolution)
  | excluded
  deriving DecidableEq

/-- Lexicographic order of positions, `Vec<usize>`'s. -/
def sourceLt (a b : List ℕ) : Bool :=
  (compare a b).isLT

def edgeOf (item : QueueItem) : Edge where
  scope := item.dependency.effectiveScope
  managedScope := item.managedScope
  declared := if item.depth = 1 then some item.declaredAt else none
  optional := item.dependency.effectiveOptional
  exclusions := item.dependency.exclusions
  requested := item.dependency.version

def keyOf (dependency : Dependency) : CoordKey where
  groupId := dependency.groupId
  artifactId := dependency.artifactId
  packaging := if dependency.effectiveType = "jar" then none else some dependency.effectiveType
  classifier := dependency.effectiveClassifier

def coordOf (dependency : Dependency) (version : Version) : Coord where
  groupId := dependency.groupId
  artifactId := dependency.artifactId
  version := version
  packaging := if dependency.effectiveType = "jar" then none else some dependency.effectiveType
  classifier := dependency.effectiveClassifier

/-- Whether a `${...}` is left in the group, artifact or version. -/
def namesProperty (coord : Coord) : Bool :=
  [coord.groupId, coord.artifactId, coord.version.original].any (Text.contains · "$\x7b")

end Raeva
