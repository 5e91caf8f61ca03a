import Mathlib.Data.Finset.Erase
import Raeva.Resolver.Load
import Raeva.Resolver.Selected

/-!
# The walk

The state of a resolution and the operations on it, `Walk` of
`solver/mod.rs`.  A lookup that the code takes for granted fails with
`Fault.panic`, an unbounded loop that the model cuts off with `Fault.fuel`.
-/

namespace Raeva

inductive Fault where
  | fuel
  | panic
  | error (e : ResolveError)
  deriving DecidableEq

def maxWinnerChanges : ℕ := 256

def rootGeneration : ℕ := 1

structure Walk where
  graph : Graph
  /-- The generation of each node's winner, by node index. -/
  generations : List ℕ
  nextGeneration : ℕ
  selected : Table CoordKey Selected
  groups : Table CoordKey CoordKey
  declared : Table ℕ (List CoordKey)
  shadows : Table CoordKey (List CoordKey)
  /-- Groups to mediate again, in declaration order. -/
  dirty : List CoordKey
  dirtySet : Finset CoordKey
  queue : List QueueItem
  nextDeclaredAt : ℕ
  /-- Range declarations of a shadow walk, to load and walk. -/
  walkLoads : List (List Candidate)
  confirm : List (CoordKey × Candidate × ℕ)
  /-- The highest candidates of ranges whose versions are not loaded yet. -/
  unscanned : List (CoordKey × Candidate)
  /-- The number of the next candidate to be allocated. -/
  nextArc : ℕ
  relocations : RelocationCache

inductive ShadowRole where
  | candidate
  | walk
  | drop
  deriving DecidableEq

def placeCmp (a b : QueueItem) : Ordering :=
  (compare a.depth b.depth).then (a.order.cmp b.order)

namespace Walk

def new (graph : Graph) : Walk where
  graph := graph
  generations := [rootGeneration]
  nextGeneration := rootGeneration + 1
  selected := ∅
  groups := ∅
  declared := ∅
  shadows := ∅
  dirty := []
  dirtySet := ∅
  queue := []
  nextDeclaredAt := 0
  walkLoads := []
  confirm := []
  unscanned := []
  nextArc := 0
  relocations := ∅

def markDirty (w : Walk) (key : CoordKey) : Walk :=
  if key ∈ w.dirtySet then w
  else { w with dirty := w.dirty ++ [key], dirtySet := insert key w.dirtySet }

def takeDirty (w : Walk) : Option (CoordKey × Walk) :=
  match w.dirty with
  | [] => none
  | key :: rest => some (key, { w with dirty := rest, dirtySet := w.dirtySet.erase key })

def isDirty (w : Walk) (key : CoordKey) : Bool :=
  key ∈ w.dirtySet

def addNode (w : Walk) (node : Node) : Walk :=
  { w with
    graph := w.graph.insertNode node
    generations := w.generations ++ [w.nextGeneration]
    nextGeneration := w.nextGeneration + 1 }

def groupOf (w : Walk) (key : CoordKey) : CoordKey :=
  ParentMap.root w.groups key

def setSelected (w : Walk) (key : CoordKey) (s : Selected) : Walk :=
  { w with selected := w.selected.insert key s }

def eraseSelected (w : Walk) (key : CoordKey) : Walk :=
  { w with selected := w.selected.erase key }

def setGraph (w : Walk) (graph : Graph) : Walk :=
  { w with graph }

def setNextArc (w : Walk) (nextArc : ℕ) : Walk :=
  { w with nextArc }

def isLive (w : Walk) (item : QueueItem) : Bool :=
  match item.shadow with
  | none => w.generations[item.parent]? == some item.parentGeneration
  | some origin =>
    (w.selected.lookup (w.groupOf origin.group)).any fun s => (s.instanceAt origin).isSome

def holds (w : Walk) (key : CoordKey) (candidate : Candidate) : Bool :=
  (w.selected.lookup key).any fun s => candidate ∈ s.candidates

def beneathOwnGroup (w : Walk) (path : PathNode) (key : CoordKey) : Bool :=
  if w.groups.entries.isEmpty then path.contains key
  else path.keys.any fun k => w.groupOf k == w.groupOf key

def first (w : Walk) (key : CoordKey) : Option QueueItem :=
  (w.selected.lookup (w.groupOf key)).bind fun s => minBy placeCmp (s.candidates.map Candidate.item)

def mediatedBefore (w : Walk) (key other : CoordKey) : Bool :=
  match w.first key, w.first other with
  | some a, some b => (placeCmp a b).isLT
  | _, _ => false

def shadowHolds (w : Walk) (origin : ShadowOrigin) (target : CoordKey) : Bool :=
  match w.selected.lookup (w.groupOf origin.group) with
  | none => false
  | some s =>
    match s.instanceAt origin with
    | none => false
    | some found =>
      s.winner.any (·.same found) || (s.onWinnerPath target && w.mediatedBefore target origin.group)

/-! ## Shadows -/

def addShadowTarget (w : Walk) (origin : ShadowOrigin) (key : CoordKey) : Walk :=
  { w with shadows := Table.extend w.shadows (w.groupOf origin.group) [key] }

def isShadowOf (w : Walk) (group : CoordKey) (c : Candidate) : Bool :=
  c.item.shadow.any fun origin => w.groupOf origin.group == group

def isStaleShadow (w : Walk) (group : CoordKey) (c : Candidate) : Bool :=
  w.isShadowOf group c && c.item.shadow.all fun origin => !w.shadowHolds origin c.key

def isLiveShadow (w : Walk) (group : CoordKey) (c : Candidate) : Bool :=
  w.isShadowOf group c && c.item.shadow.any fun origin => w.shadowHolds origin c.key

def revalidateTarget (group : CoordKey) (state : Walk × List CoordKey) (key : CoordKey) :
    Walk × List CoordKey :=
  let (w, kept) := state
  let key := w.groupOf key
  if key ∈ kept then state
  else
    match w.selected.lookup key with
    | none => state
    | some s =>
      let w' :=
        if s.candidates.any (w.isStaleShadow group) then
          (w.setSelected key
            (s.withCandidates (s.candidates.filter (!w.isStaleShadow group ·)))).markDirty key
        else w
      (w', if s.candidates.any (w.isLiveShadow group) then kept ++ [key] else kept)

def revalidateShadows (w : Walk) (group : CoordKey) : Walk :=
  match w.shadows.lookup group with
  | none => w
  | some targets =>
    let (w, kept) :=
      targets.foldl (revalidateTarget group) ({ w with shadows := w.shadows.erase group }, [])
    if kept.isEmpty then w else { w with shadows := w.shadows.insert group kept }

/-! ## Retiring what a winner declared -/

def isDeclaredBy (node old : ℕ) (c : Candidate) : Bool :=
  c.item.shadow.isNone && c.item.parent == node && c.item.parentGeneration == old

def shadowOf (origin : ShadowOrigin) (arc : ℕ) (c : Candidate) : Candidate :=
  { c with arc, item := { c.item with shadow := some origin } }

/-- Take the candidates out that `node` declared in generation `old`; those on
`convert`'s path become shadows of its origin. -/
def retireCandidates (node old : ℕ) (convert : Option (ShadowOrigin × PathNode)) :
    List Candidate → ℕ → List Candidate × ℕ
  | [], arc => ([], arc)
  | c :: rest, arc =>
    if isDeclaredBy node old c then
      match convert.filter fun (_, path) => path.contains c.key with
      | some (origin, _) =>
        let (kept, arc') := retireCandidates node old convert rest (arc + 1)
        (shadowOf origin arc c :: kept, arc')
      | none => retireCandidates node old convert rest arc
    else
      let (kept, arc') := retireCandidates node old convert rest arc
      (c :: kept, arc')

def retireKey (node old : ℕ) (convert : Option (ShadowOrigin × PathNode))
    (state : Walk × List CoordKey) (key : CoordKey) : Walk × List CoordKey :=
  let (w, touched) := state
  let key := w.groupOf key
  if key ∈ touched then state
  else
    let convert := convert.filter fun (origin, _) => w.mediatedBefore key origin.group
    match w.selected.lookup key with
    | none => state
    | some s =>
      let (candidates, nextArc) := retireCandidates node old convert s.candidates w.nextArc
      let w := (w.setSelected key (s.withCandidates candidates)).setNextArc nextArc
      let converted := convert.filter fun (_, path) =>
        s.candidates.any fun c => isDeclaredBy node old c && path.contains c.key
      let w :=
        match converted with
        | some (origin, _) => w.addShadowTarget origin key
        | none => w
      (w, if s.candidates.any (isDeclaredBy node old) then touched ++ [key] else touched)

/-- Give `node` a new generation, without edges and declarations. -/
def renew (w : Walk) (node : ℕ) : Walk :=
  { w with
    generations := w.generations.set node w.nextGeneration
    nextGeneration := w.nextGeneration + 1
    graph := w.graph.clearOutgoing node
    declared := w.declared.erase node }

/-- Retire what the winner of `node` declared: the node's generation moves on
and its candidates leave their groups. -/
def retire (w : Walk) (node : ℕ) (convert : Option (ShadowOrigin × PathNode)) : Walk :=
  let old := w.generations[node]?.getD 0
  let keys := (w.declared.lookup node).getD []
  let (w, touched) := keys.foldl (retireKey node old convert) (w.renew node, [])
  touched.foldl (fun w key => (w.revalidateShadows key).markDirty key) w

def dropGroup (w : Walk) (key : CoordKey) : Walk :=
  match w.selected.lookup key with
  | none => w
  | some s =>
    let w := (w.eraseSelected key).setGraph (w.graph.clearIncoming s.node)
    (w.retire s.node none).revalidateShadows key

/-! ## Merging groups -/

def link (w : Walk) (merged into : CoordKey) : Walk :=
  let w := { w with groups := w.groups.insert merged into }
  match w.shadows.lookup merged with
  | none => w
  | some shadows => { w with shadows := Table.extend (w.shadows.erase merged) into shadows }

def absorb (w : Walk) (into : CoordKey) (moved : Selected) : Walk :=
  match w.selected.lookup into with
  | none => w.setSelected into moved
  | some s =>
    let w := w.setSelected into (s.absorb moved)
    (w.setGraph (w.graph.retargetIncoming moved.node s.node)).retire moved.node none

/-- Take out the candidates of a group that lie below a key of the group. -/
def dropBeneath (w : Walk) (into : CoordKey) : Walk :=
  match w.selected.lookup into with
  | none => w
  | some s =>
    w.setSelected into
      (s.withCandidates (s.candidates.filter fun c => !w.beneathOwnGroup c.item.path into))

def union (w : Walk) (source target : CoordKey) : Walk :=
  let into := w.groupOf source
  let merged := w.groupOf target
  if into = merged then w
  else
    let w := w.link merged into
    match w.selected.lookup merged with
    -- Nothing is selected in the merged group: neither filter nor mediation.
    | none => w
    | some moved =>
      let w := w.eraseSelected merged
      ((w.absorb into moved).dropBeneath into).markDirty into

def cycleTo (w : Walk) (module : Text) : PathNode → List Text → Option (List Text)
  | path, coordinates =>
    let index : Option ℕ :=
      match path with
      | .root _ _ => some Graph.root
      | .child _ key _ _ => (w.selected.lookup (w.groupOf key)).map Selected.node
    match index.bind w.graph.node with
    | none => none
    | some node =>
      match node.workspaceModule with
      | none => none
      | some own =>
        let coordinates :=
          coordinates ++ [Text.join [':'] [node.coord.groupId, node.coord.artifactId]]
        if own = module then some coordinates
        else
          match path with
          | .root _ _ => none
          | .child parent _ _ _ => cycleTo w module parent coordinates

def workspaceDependencyCycle (w : Walk) (item : QueueItem) (module : Text) : Option Text :=
  (w.cycleTo module item.path []).map fun coordinates =>
    Text.join " -> " (coordinates.reverse ++ coordinates.reverse.head?.toList)

def refuseCycle (w : Walk) (c : Candidate) : Except Fault Unit :=
  if c.item.shadow.isNone then
    match (c.resolvedProject.bind (·.workspaceModule)).bind (w.workspaceDependencyCycle c.item) with
    | some cycle => .error (.error (.workspaceDependencyCycle cycle))
    | none => .ok ()
  else .ok ()

/-! ## Queueing -/

def push (w : Walk) (item : QueueItem) : Except Fault Walk :=
  match pushQueue w.queue item with
  | .error e => .error (.error e)
  | .ok queue => .ok { w with queue, nextDeclaredAt := w.nextDeclaredAt + 1 }

def childItem (backend : Backend) (of : Candidate) (project : Project) (parent generation : ℕ)
    (shadow : Option ShadowOrigin) (declaredAt : ℕ) (dependency : Dependency) (index : ℕ) :
    QueueItem :=
  let item := of.item
  { parent
    parentGeneration := generation
    dependency :=
      { dependency with
        version :=
          dependency.version.or (managedChildVersion project.dependencyManagement dependency) }
    managedScope := false
    depth := item.depth + 1
    order := item.order.child index
    declaredAt
    exclusions := extendExclusions item.exclusions item.dependency.exclusions
    path := item.path.extend of.coord of.resolved.version
      (backend.extendRepoContext item.path.repos of.coord project)
    shadow }

/-- Queue what `winner` declares, below `parent` at `generation`, or as shadows
of `shadow`. -/
def queueChildren (backend : Backend) (winner : Candidate) (parent generation : ℕ)
    (shadow : Option ShadowOrigin) (w : Walk) : Except Fault Walk :=
  if !winner.follows then .ok w
  else
    match winner.resolvedProject with
    | none => .error .panic
    | some resolved =>
      resolved.project.dependencies.zipIdx.foldlM (fun w (dependency, index) =>
        w.push (childItem backend winner resolved.project parent generation shadow
          w.nextDeclaredAt dependency index)) w

def queueShadow (backend : Backend) (of : Candidate) (project : Project) (origin : ShadowOrigin)
    (w : Walk) (dependency : Dependency) (index : ℕ) : Except Fault Walk :=
  if !of.follows then .ok w
  else
    w.push (childItem backend of project Graph.root 0 (some origin) w.nextDeclaredAt
      dependency index)

end Walk

end Raeva
