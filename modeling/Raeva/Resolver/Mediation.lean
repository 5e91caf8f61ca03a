import Mathlib.Data.List.Sort
import Raeva.Resolver.Scopes
import Raeva.Resolver.Walk

/-!
# Adding, loading and choosing candidates

The operations of `Walk` that bring candidates into their groups, put a loaded
project in place of a candidate, and make a candidate the winner of its group.
-/

namespace Raeva

/-- The versions of a read declaration as candidates, the highest last,
allocated from `arc` on. -/
def Resolution.versions (resolution : Resolution) (arc : ℕ) : List Candidate :=
  let candidate := resolution.candidate
  (resolution.alternatives.zipIdx.map fun (resolved, position) =>
    { candidate with
      arc := arc + position
      coord := { candidate.coord with version := resolved.version }
      source := candidate.source.dropLast ++ [position]
      resolved
      -- A system file has no descriptor to load.
      resolvedProject := candidate.resolvedProject.filter fun _ => candidate.scope = .system }) ++
  [{ candidate with arc := arc + resolution.alternatives.length }]

def Candidate.openNode (c : Candidate) : Node where
  coord := c.coord
  scope := c.scope
  repoUrl := none
  buildRepo := none
  repos := .default
  workspaceModule := none
  isLocal := false
  systemPath := none
  winnerParent := none

def Candidate.wonNode (winner : Candidate) (project : ResolvedProject) (node : Node) : Node :=
  let isLocal : Bool := winner.scope = .system
  let buildRepo := winner.resolved.repo.filter fun _ => !isLocal
  { node with
    coord := { winner.coord with version := winner.resolved.version }
    scope := winner.scope
    winnerParent := if winner.item.shadow.isNone then some winner.item.parent else none
    isLocal
    systemPath := winner.item.dependency.systemPath
    buildRepo
    repoUrl := ((buildRepo.map RepoRef.url).or project.repoUrl).filter fun _ => !isLocal
    repos := winner.item.path.repos
    workspaceModule := project.workspaceModule }

def Candidate.origin (c : Candidate) (key : CoordKey) : ShadowOrigin where
  group := key
  instanceAt := c.item.declaredAt
  coord := c.coord

def Candidate.ownPath (c : Candidate) : PathNode :=
  c.item.path.extend c.coord c.resolved.version c.item.path.repos

def Candidate.exclusionsBelow (c : Candidate) : List ExclusionKey :=
  extendExclusions c.item.exclusions c.item.dependency.exclusions

def CoordKey.cmp (a b : CoordKey) : Ordering :=
  (compare a.groupId b.groupId).then <|
  (compare a.artifactId b.artifactId).then <|
  (compare a.packaging b.packaging).then <|
  compare a.classifier b.classifier

/-- The lowest of the new candidates that must be loaded before a settled
winner that they are ranked behind and accept may stay, with the memo after
the check; `none` where the winner may change. -/
def Selected.behind [Lowercase] (s : Selected) (candidates : List Candidate) :
    Option (Option Candidate × Settled) :=
  match s.winner, s.settled with
  | some winner, some state =>
    if candidates.all fun c => (c.rankCmp winner).isGT && c.accepts winner.coord.version then
      let (rejecting, state) := state.rejecting candidates
      let lowest := minBy (fun a b => compare a.source b.source) rejecting
      some (lowest.filter (·.resolvedProject.isNone), state)
    else none
  | _, _ => none

namespace Walk

/-! ## Shadows of the losers -/

def scanLoser (backend : Backend) (key : CoordKey) (path : PathNode) (w : Walk)
    (loser : Candidate) : Except Fault Walk :=
  match loser.resolvedProject with
  | none => .error .panic
  | some resolved =>
    resolved.project.dependencies.zipIdx.foldlM (fun w (dependency, index) =>
      let onPath := path.keys.any fun k =>
        k.groupId == dependency.groupId && k.artifactId == dependency.artifactId
      let target := keyOf dependency
      if !onPath || !path.contains target || !w.mediatedBefore target key ||
          loser.ownPath.contains target || !dependency.isFollowedTransitively ||
          isExcluded dependency loser.exclusionsBelow then .ok w
      else w.queueShadow backend loser resolved.project (loser.origin key) dependency index) w

/-- Queue shadows of what the losers of a group from `start` on declare for
keys on its winner's path, which Maven gathers through them. -/
def scanLosers (backend : Backend) (key : CoordKey) (start : ℕ) (w : Walk) : Except Fault Walk :=
  match w.selected.lookup key with
  | none => .ok w
  | some s =>
    match s.winner, s.winnerPath with
    | some winner, some path =>
      if s.candidates.length < start then .error .panic
      else
        let (losers, scanned) := firstUnseen (fun c : Candidate => c.item.declaredAt) s.scanned
          ((s.candidates.drop start).filter fun c =>
            c.item.shadow.isNone && c.resolvedProject.isSome && c.follows && !c.same winner)
        losers.foldlM (scanLoser backend key path) (w.setSelected key { s with scanned })
    | _, _ => .ok w

/-- Walk below what one loser declares and the winner's path excludes; whether
anything was queued. -/
def walkLoser (backend : Backend) (key : CoordKey) (project : Project)
    (excluded : List ExclusionKey) (state : Walk × Bool) (loser : Candidate) :
    Except Fault (Walk × Bool) :=
  project.dependencies.zipIdx.foldlM (fun (w, queued) (dependency, index) =>
    let target := keyOf dependency
    if !dependency.isFollowedTransitively || !isExcluded dependency excluded ||
        isExcluded dependency loser.exclusionsBelow then .ok (w, queued)
    else if loser.ownPath.contains target || (w.selected.lookup (w.groupOf target)).isSome then
      .ok (w, queued)
    else do
      let w ← w.queueShadow backend loser project (loser.origin key) dependency index
      .ok (w, true)) state

def walkGroup (backend : Backend) (state : Walk × Bool) (key : CoordKey) :
    Except Fault (Walk × Bool) :=
  let (w, queued) := state
  match w.selected.lookup key with
  | none => .ok state
  | some s =>
    match s.winner with
    | none => .ok state
    | some winner =>
      match winner.resolvedProject.filter fun _ => !winner.exclusionsBelow.isEmpty with
      | none => .ok state
      | some resolved =>
        let (losers, walked) := firstUnseen (fun c : Candidate => c.item.declaredAt) s.walked
          (s.candidates.filter fun c =>
            c.item.shadow.isNone && sameText c.coord winner.coord && c.follows && !c.same winner)
        losers.foldlM (walkLoser backend key resolved.project winner.exclusionsBelow)
          (w.setSelected key { s with walked }, queued)

/-- Once the queue drains, walk below what a loser with the winner's version
declares and the winner's path excludes.  Whether anything was queued. -/
def walkExcludedDependencies (backend : Backend) (w : Walk) : Except Fault (Walk × Bool) :=
  (w.selected.keys.insertionSort fun a b => (CoordKey.cmp a b).isLE).foldlM (walkGroup backend)
    (w, false)

/-! ## New candidates -/

/-- What a shadow declaration of `target` is: a candidate where Maven gathers
it, a step of a walk below its origin, or nothing. -/
def shadowRole (w : Walk) (origin : ShadowOrigin) (key target : CoordKey) : ShadowRole :=
  match w.selected.lookup (w.groupOf origin.group) with
  | none => .drop
  | some s =>
    match s.instanceAt origin with
    | none => .drop
    | some found =>
      let selected := (w.selected.lookup key).isSome
      if s.winner.any (·.same found) then
        -- The origin won since: its own declarations are on their way.
        if selected then .candidate else .drop
      else if s.onWinnerPath target then
        if selected && w.mediatedBefore key origin.group then .candidate else .drop
      else if selected then .drop
      else .walk

def noteUnscanned (w : Walk) (key : CoordKey) (candidates : List Candidate) : Walk :=
  match candidates.getLast?.filter (·.resolvedProject.isNone) with
  | some highest =>
    if 1 < candidates.length then { w with unscanned := w.unscanned ++ [(key, highest)] } else w
  | none => w

def declareEdge (w : Walk) (item : QueueItem) (key : CoordKey) (node : ℕ) : Walk :=
  { w with
    graph := w.graph.addEdge item.parent node (edgeOf item)
    declared := Table.extend w.declared item.parent [key] }

def addShadow (w : Walk) (item : QueueItem) (origin : ShadowOrigin) (key : CoordKey)
    (candidates : List Candidate) : Walk :=
  let w := w.noteUnscanned key candidates
  match w.selected.lookup key with
  | none => w
  | some s =>
    if s.candidates.any fun c => (c.item.order.cmp item.order).isEq then w
    else
      let w := w.setSelected key (s.withCandidates (s.candidates ++ candidates))
      (w.addShadowTarget origin key).markDirty key

def addGroup (w : Walk) (item : QueueItem) (key : CoordKey) (candidates : List Candidate)
    (highest : Candidate) : Walk :=
  let node := w.graph.nodes.length
  let w := (w.addNode highest.openNode).setSelected key (.new node candidates)
  (w.declareEdge item key node).markDirty key

/-- The edge of a declaration that is cut because it lies below its own
artifact. -/
def cutEdge (w : Walk) (item : QueueItem) (target : CoordKey) : Walk :=
  if item.shadow.isNone then
    match w.selected.lookup (w.groupOf target) with
    | some existing => w.setGraph (w.graph.addEdge item.parent existing.node (edgeOf item))
    | none => w
  else w

/-! ## Loaded candidates -/

def pending (w : Walk) (key : CoordKey) (candidate : Candidate) (start : ℕ) : Option ℕ :=
  if w.isDirty key then none
  else
    match (w.selected.lookup key).filter (·.settled.isSome) with
    | none => none
    | some s =>
      if s.candidates.length < start then none
      else
        ((s.candidates.drop start).findIdx? (· == candidate)).map (start + ·)

/-- Take a candidate out whose project does not stay, and, when the walk up its
range `stops` there, the candidates of its declaration above it. -/
def giveWay (w : Walk) (key : CoordKey) (s : Selected) (best : Candidate) (stops : Bool) : Walk :=
  let item := best.item
  let candidates := s.candidates.filter fun c =>
    c != best && (!stops || c.item.declaredAt != item.declaredAt || sourceLt c.source best.source)
  let w := w.setSelected key (s.withCandidates candidates)
  let w :=
    if item.shadow.isNone && !candidates.any (·.item.declaredAt == item.declaredAt) then
      w.setGraph (w.graph.removeEdge item.parent s.node (edgeOf item))
    else w
  (w.revalidateShadows key).markDirty key

def replaceLoaded (w : Walk) (key : CoordKey) (s : Selected) (best candidate : Candidate) : Walk :=
  let candidate := { candidate with arc := w.nextArc }
  (w.setSelected key
    (s.withCandidates (s.candidates.map fun c => if c = best then candidate else c))).setNextArc
    (w.nextArc + 1)

def replaceAt (key : CoordKey) (index : ℕ) (candidate : Candidate) (w : Walk) :
    Except Fault Walk :=
  match w.selected.lookup key with
  | none => .error .panic
  | some s =>
    if index < s.candidates.length then
      .ok ((w.setSelected key
        (s.withCandidates (s.candidates.set index { candidate with arc := w.nextArc }))).setNextArc
        (w.nextArc + 1))
    else .error .panic

/-- Make `winner` the group's winner: the node takes its coordinate and a new
generation, and the winner's dependencies are queued. -/
def commit (backend : Backend) (key : CoordKey) (winner : Candidate) (w : Walk) :
    Except Fault Walk :=
  match winner.resolvedProject with
  | none => .error .panic
  | some project => do
      w.refuseCycle winner
      match w.selected.lookup key with
      | none => .error .panic
      | some s =>
        let seen := (winner.item.order, winner.coord.display)
        -- A winner that comes back may be an oscillation.
        let changes := if seen ∈ s.winners then s.changes + 1 else s.changes
        if maxWinnerChanges < changes then
          .error (.error (.mediationDiverged
            (Text.join [':'] [winner.coord.groupId, winner.coord.artifactId]) maxWinnerChanges))
        else
          let path := winner.item.path.extend winner.coord winner.resolved.version
            (backend.extendRepoContext winner.item.path.repos winner.coord project.project)
          let convert := (s.winner.bind s.instanceOf).map fun previous =>
            (previous.origin key, path)
          let w := w.setSelected key
            { s with
              winners := insert seen s.winners
              changes
              winner := some winner
              winnerPath := some path
              scanned := ∅
              walked := ∅
              dirtyChecked := ∅ }
          let w := w.retire s.node convert
          let generation := w.generations[s.node]?.getD 0
          let w :=
            match w.graph.node s.node with
            | some node => w.setGraph (w.graph.setNode s.node (winner.wonNode project node))
            | none => w
          (w.revalidateShadows key).queueChildren backend winner s.node generation none

/-- The graph at the end of a resolution: the scopes are settled, and the first
conflict fails it. -/
def finish (backend : Backend) (w : Walk) : Except ResolveError Graph := do
  let graph ← w.graph.selectScopes
  w.selected.values.forM fun s =>
    match s.winner, graph.node s.node with
    | some winner, some node => backend.noteWinner node.coord winner.item.path
    | _, _ => .ok ()
  match minBy (fun a b => SortKey.cmp a.place b.place)
    (w.selected.values.filterMap Selected.conflict)
  with
  | some conflict => .error (.versionConflict conflict.coord conflict.requested conflict.selected)
  | none => .ok graph

/-! ## Declarations -/

variable [Lowercase]

def afterBehind (backend : Backend) (key : CoordKey) (start : ℕ) (lowest : Option Candidate)
    (w : Walk) : Except Fault Walk :=
  if w.isDirty key then .ok w
  else
    match lowest with
    | some lowest => .ok { w with confirm := w.confirm ++ [(key, lowest, start)] }
    | none =>
      -- A losing range that accepts the winner still has a preferred version
      -- that Maven's dirty tree reads for relocation.
      let dirty := (w.selected.lookup key).any fun s =>
        s.winner.any fun winner => !(s.dirtyRanges winner).isEmpty
      if dirty then .ok (w.markDirty key) else w.scanLosers backend key start

def addDeclared (backend : Backend) (item : QueueItem) (key : CoordKey)
    (candidates : List Candidate) (highest : Candidate) (w : Walk) : Except Fault Walk :=
  let w := w.noteUnscanned key candidates
  match w.selected.lookup key with
  | none => .ok (w.addGroup item key candidates highest)
  | some s =>
    -- A declaration takes the place of its own shadow.
    let retained := s.candidates.filter fun c =>
      c.item.shadow.isNone || !(c.item.order.cmp item.order).isEq
    let behind :=
      if retained.length = s.candidates.length then s.behind candidates else none
    match behind with
    | none =>
      let w := w.setSelected key (s.withCandidates (retained ++ candidates))
      .ok ((w.declareEdge item key s.node).markDirty key)
    | some (lowest, state) =>
      let w := w.setSelected key
        { s with candidates := retained ++ candidates, settled := some state }
      (w.declareEdge item key s.node).afterBehind backend key s.candidates.length lowest

def addCandidates (backend : Backend) (item : QueueItem) (key target : CoordKey)
    (candidates : List Candidate) (highest : Candidate) (w : Walk) : Except Fault Walk :=
  match item.shadow with
  | none => w.addDeclared backend item key candidates highest
  | some origin =>
    match w.shadowRole origin key target with
    | .candidate => .ok (w.addShadow item origin key candidates)
    | .walk =>
      if highest.resolvedProject.isSome then
        w.queueChildren backend highest Graph.root 0 (some origin)
      else .ok { w with walkLoads := candidates :: w.walkLoads }
    | .drop => .ok w

/-- Bring a read declaration, whose relocations are in one group, into that
group. -/
def joinGroup (backend : Backend) (resolution : Resolution) (w : Walk) : Except Fault Walk :=
  let candidate := resolution.candidate
  let item := candidate.item
  let target := candidate.key
  if item.path.contains target || w.beneathOwnGroup item.path target then
    .ok (w.cutEdge item target)
  else if candidate.source.isEmpty && !resolution.alternatives.isEmpty then .error .panic
  else
    let candidates := resolution.versions w.nextArc
    let highest := { candidate with arc := w.nextArc + resolution.alternatives.length }
    let w := w.setNextArc (w.nextArc + candidates.length)
    w.addCandidates backend item (w.groupOf target) target candidates highest

end Walk

end Raeva
