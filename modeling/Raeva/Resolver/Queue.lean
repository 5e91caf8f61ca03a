import Raeva.Library.MinBy
import Raeva.Resolver.Context

/-!
# Queued declarations

The ancestor path, the place in Maven's tree and the accumulated exclusions of
a declaration that waits to be read, as in `solver/queue.rs`.
-/

namespace Raeva

def maxQueueSize : ℕ := 100000
def maxDepth : ℕ := 1000
def maxDeclarations : ℕ := 1000000

/-! ## Paths -/

/-- The ancestors of a declaration, from its own POM up to the root's. -/
inductive PathNode where
  | root (key : CoordKey) (version : Text)
  | child (parent : PathNode) (key : CoordKey) (version : Text) (repos : RepoContext)
  deriving DecidableEq

namespace PathNode

def ofRoot (coord : Coord) : PathNode :=
  .root (.ofCoord coord) coord.version.original

def extend (parent : PathNode) (coord : Coord) (version : Version) (repos : RepoContext) :
    PathNode :=
  .child parent (.ofCoord coord) version.original repos

def key : PathNode → CoordKey
  | root key _ => key
  | child _ key _ _ => key

def repos : PathNode → RepoContext
  | root _ _ => .default
  | child _ _ _ repos => repos

def belowRoot : PathNode → List (CoordKey × Text)
  | root _ _ => []
  | child parent key version _ => (key, version) :: parent.belowRoot

def keys (path : PathNode) : List CoordKey :=
  path.belowRoot.map Prod.fst

def contains (path : PathNode) (key : CoordKey) : Bool :=
  path.keys.any (· == key)

def coordinatesUp : PathNode → List Text
  | root key version => [Text.join [':'] [key.groupId, key.artifactId, version]]
  | child parent key version _ =>
    Text.join [':'] [key.groupId, key.artifactId, version] :: parent.coordinatesUp

def coordinates (path : PathNode) : List Text :=
  path.coordinatesUp.reverse

def top : PathNode → PathNode
  | root key version => root key version
  | child parent _ _ _ => parent.top

@[simp] theorem keys_extend (parent : PathNode) (coord : Coord) (version : Version)
    (repos : RepoContext) :
    (parent.extend coord version repos).keys = .ofCoord coord :: parent.keys := rfl

theorem contains_iff {path : PathNode} {key : CoordKey} :
    path.contains key = true ↔ key ∈ path.keys := by
  simp [contains]

end PathNode

/-! ## Places in the tree -/

/-- The index of each declaration on the way down from the root, the last one
first, as the linked nodes hold them. -/
structure TreeOrder where
  indices : List ℕ
  deriving DecidableEq

namespace TreeOrder

def default : TreeOrder :=
  ⟨[]⟩

/-- The largest `u32`, which larger indices saturate at. -/
def maxIndex : ℕ := 2 ^ 32 - 1

def child (order : TreeOrder) (index : ℕ) : TreeOrder :=
  ⟨min index maxIndex :: order.indices⟩

/-- The order without its last index; the root's own for the root. -/
def parent (order : TreeOrder) : TreeOrder :=
  ⟨order.indices.tail⟩

/-- Up both chains of equal length: the topmost difference decides. -/
def cmpUp : List ℕ → List ℕ → Ordering → Ordering
  | x :: a, y :: b, first => cmpUp a b ((compare x y).then first)
  | _, _, first => first

def cmp (a b : TreeOrder) : Ordering :=
  let (m, n) := (a.indices.length, b.indices.length)
  (cmpUp (a.indices.drop (m - n)) (b.indices.drop (n - m)) .eq).then (compare m n)

end TreeOrder

/-! ## Exclusions -/

structure ExclusionKey where
  groupId : Text
  artifactId : Text
  deriving DecidableEq

def ExclusionKey.ofExclusion (exclusion : Exclusion) : ExclusionKey where
  groupId := exclusion.groupId
  artifactId := exclusion.artifactId

/-- The only wildcard is `*`. -/
def excludes (exclusions : List ExclusionKey) (groupId artifactId : Text) : Bool :=
  exclusions.any fun ex =>
    let exGroup := Text.trim ex.groupId
    let exArtifact := Text.trim ex.artifactId
    (exGroup == "*" || exGroup == Text.trim groupId) &&
      (exArtifact == "*" || exArtifact == Text.trim artifactId)

def isExcluded (dep : Dependency) (exclusions : List ExclusionKey) : Bool :=
  excludes exclusions dep.groupId dep.artifactId

def extendExclusions (parent : List ExclusionKey) (current : List Exclusion) :
    List ExclusionKey :=
  parent ++ current.map .ofExclusion

/-! ## Items -/

/-- Where a shadow declaration comes from: a losing candidate of a group. -/
structure ShadowOrigin where
  group : CoordKey
  instanceAt : ℕ
  coord : Coord
  deriving DecidableEq

structure QueueItem where
  parent : ℕ
  parentGeneration : ℕ
  dependency : Dependency
  managedScope : Bool
  depth : ℕ
  order : TreeOrder
  declaredAt : ℕ
  exclusions : List ExclusionKey
  path : PathNode
  shadow : Option ShadowOrigin
  deriving DecidableEq

namespace QueueItem

/-- Breadth-first, then Maven's depth-first order within a depth. -/
def sortCmp (a b : QueueItem) : Ordering :=
  (compare a.depth b.depth).then ((a.order.cmp b.order).then (compare a.declaredAt b.declaredAt))

end QueueItem

def pushQueue (queue : List QueueItem) (item : QueueItem) : Except ResolveError (List QueueItem) :=
  let refuse (what : String) (limit : ℕ) : Except ResolveError (List QueueItem) :=
    .error (.graphLimitExceeded what.toList limit
      (Text.join [':'] [item.dependency.groupId, item.dependency.artifactId]))
  if maxQueueSize ≤ queue.length then refuse "declarations queued at once" maxQueueSize
  else if maxDepth < item.depth then refuse "levels of depth" maxDepth
  else if maxDeclarations ≤ item.declaredAt then refuse "declarations" maxDeclarations
  else .ok (item :: queue)

def popQueue (queue : List QueueItem) : Option (QueueItem × List QueueItem) :=
  (minBy QueueItem.sortCmp queue).map fun item => (item, queue.erase item)

theorem pushQueue_eq {queue queue' : List QueueItem} {item : QueueItem}
    (h : pushQueue queue item = .ok queue') : queue' = item :: queue := by
  unfold pushQueue at h
  split at h
  · cases h
  split at h
  · cases h
  · split at h
    · cases h
    · exact (Except.ok.inj h).symm

theorem mem_of_popQueue {queue rest : List QueueItem} {item : QueueItem}
    (h : popQueue queue = some (item, rest)) :
    item ∈ queue ∧ ∀ other ∈ rest, other ∈ queue := by
  unfold popQueue at h
  cases hmin : minBy QueueItem.sortCmp queue with
  | none => simp [hmin] at h
  | some least =>
    simp only [hmin, Option.map_some, Option.some.injEq, Prod.mk.injEq] at h
    obtain ⟨rfl, rfl⟩ := h
    exact ⟨mem_of_minBy hmin, fun other hother => List.mem_of_mem_erase hother⟩

end Raeva
