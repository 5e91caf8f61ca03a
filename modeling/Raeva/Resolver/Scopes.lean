import Mathlib.Data.List.Sort
import Raeva.Library.Loop
import Raeva.Resolver.Graph

/-!
# Scope selection

`Graph::select_scopes` with `ConflictOrder`: Maven's numbering of the mediated
nodes, the cycles it records, and the scope each node takes.  The loops of the
source run on explicit fuel, chosen above the number of steps they can take.
-/

namespace Raeva

/-- The largest `usize`, which marks a node not numbered yet. -/
def usizeMax : ℕ := 2 ^ 64 - 1

def maxGatherStates : ℕ := 100000

/-- The nodes in the order a depth-first walk in declaration order first finds
them, with the depth Maven records, the nodes below each and how many nodes
lie directly above each. -/
structure ConflictOrder where
  order : List ℕ
  depth : ℕ → ℕ
  children : ℕ → List ℕ
  inDegree : ℕ → ℕ

namespace ConflictOrder

/-- `node` lowered to `depth`, with the nodes below it waiting. -/
def lifted (this : ConflictOrder) (node depth : ℕ) (lift : List (ℕ × ℕ)) :
    ConflictOrder × List (ℕ × ℕ) :=
  ({ this with depth := Function.update this.depth node depth },
    (this.children node).reverse.map (fun child => (child, depth + 1)) ++ lift)

def pullStep : ConflictOrder × List (ℕ × ℕ) → ConflictOrder ⊕ (ConflictOrder × List (ℕ × ℕ))
  | (this, []) => .inl this
  | (this, (node, depth) :: lift) =>
    if depth < this.depth node then .inr (this.lifted node depth lift) else .inr (this, lift)

def pullUp (this : ConflictOrder) (fuel : ℕ) (lift : List (ℕ × ℕ)) : ConflictOrder :=
  loop pullStep Prod.fst fuel (this, lift)

def numbered (this : ConflictOrder) (child depth : ℕ) : ConflictOrder :=
  { this with
    order := this.order ++ [child]
    depth := Function.update this.depth child depth }

def linked (this : ConflictOrder) (node child : ℕ) : ConflictOrder :=
  { this with
    children := Function.update this.children node (this.children node ++ [child])
    inDegree := Function.update this.inDegree child (this.inDegree child + 1) }

/-- A node on the walk, its depth and the children left, the next one first. -/
structure Frame where
  node : ℕ
  depth : ℕ
  next : List ℕ

structure Walking where
  this : ConflictOrder
  number : ℕ → ℕ
  visited : ℕ → Bool

def declared (g : Graph) (node : ℕ) : List ℕ :=
  (g.outgoing node).reverse.map Link.target

def Walking.link (w : Walking) (node child : ℕ) : Walking :=
  if node ≠ Graph.root ∧ child ∉ w.this.children node then
    { w with this := w.this.linked node child }
  else w

def find (g : Graph) (w : Walking) (node child depth : ℕ) : Walking :=
  (if w.number child = usizeMax then
    { w with
      number := Function.update w.number child w.this.order.length
      this := w.this.numbered child depth }
  else
    { w with this := w.this.pullUp ((g.nodes.length + 1) ^ 3) [(child, depth)] }).link node child

def walk (g : Graph) : ℕ → Walking → List Frame → Walking
  | 0, w, _ => w
  | _, w, [] => w
  | fuel + 1, w, frame :: stack =>
    match frame.next with
    | [] => walk g fuel w stack
    | child :: next =>
      let depth := frame.depth + 1
      let w := find g w frame.node child depth
      let stack := { frame with next } :: stack
      if w.visited child then walk g fuel w stack
      else
        walk g fuel { w with visited := Function.update w.visited child true }
          ({ node := child, depth, next := declared g child } :: stack)

/-- The table size of a Java `HashSet` of this many elements. -/
def buckets (size : ℕ) : ℕ → ℕ → ℕ
  | 0, buckets => buckets
  | fuel + 1, n => if n * 3 < size * 4 then buckets size fuel (n * 2) else n

def hashOrder (number : ℕ → ℕ) (children : List ℕ) : List ℕ :=
  let table := buckets children.length children.length 16
  let slot (child : ℕ) : ℕ := (number child ^^^ (number child >>> 16)) &&& (table - 1)
  children.insertionSort fun a b => slot a ≤ slot b

def unwalked : Walking :=
  { this := { order := [], depth := fun _ => usizeMax, children := fun _ => [],
              inDegree := fun _ => 0 }
    number := fun _ => usizeMax
    visited := fun index => index == Graph.root }

def rootFrame (g : Graph) : Frame :=
  { node := Graph.root, depth := 0, next := declared g Graph.root }

/-- The record with the nodes below each in the order of a Java `HashSet`. -/
def Walking.sorted (w : Walking) : ConflictOrder :=
  { w.this with children := fun index => hashOrder w.number (w.this.children index) }

def of (g : Graph) : ConflictOrder :=
  (walk g (g.nodes.length + g.links.length + 1) unwalked [rootFrame g]).sorted

/-- The depth-first search of `cycles`: the cycles so far, the nodes visited,
and the path with the children left at each node, the last node first. -/
structure Searching where
  cycles : List (List ℕ)
  visited : ℕ → Bool
  path : List (ℕ × List ℕ)

def Searching.nodes (s : Searching) : List ℕ :=
  (s.path.map Prod.fst).reverse

def enter (this : ConflictOrder) (s : Searching) (node : ℕ) : Searching :=
  if node ∈ s.nodes then { s with cycles := s.cycles ++ [s.nodes.dropWhile (· ≠ node)] }
  else if s.visited node then s
  else
    { s with
      visited := Function.update s.visited node true
      path := (node, this.children node) :: s.path }

def searchStep (this : ConflictOrder) (s : Searching) : Searching ⊕ Searching :=
  match s.path with
  | [] => .inl s
  | (_, []) :: path => .inr { s with path }
  | (node, child :: next) :: path =>
    .inr (this.enter { s with path := (node, next) :: path } child)

def search (this : ConflictOrder) (fuel : ℕ) (s : Searching) : Searching :=
  loop this.searchStep id fuel s

def unsearched : Searching :=
  { cycles := [], visited := fun _ => false, path := [] }

def cycles (this : ConflictOrder) (fuel : ℕ) : List (List ℕ) :=
  (this.order.foldl (fun s start => this.search fuel (this.enter s start)) unsearched).cycles

end ConflictOrder

/-- How Maven's JavaScopeSelector ranks scopes. -/
def Scope.width : Scope → ℕ
  | .compile => 4
  | .runtime => 3
  | .provided => 2
  | .test => 1
  | .system | .import => 0

def offer (widest : Option Scope) (scope : Scope) : Option Scope :=
  if scope ≠ .system ∧ widest.all (·.width < scope.width) then some scope else widest

namespace Graph

def coordOf (g : Graph) (index : ℕ) : Option (Text × Text) :=
  (g.node index).map fun node => (node.coord.groupId, node.coord.artifactId)

def isExcludedAt (g : Graph) (exclusions : List ExclusionKey) (index : ℕ) : Bool :=
  (g.coordOf index).any fun (groupId, artifactId) => excludes exclusions groupId artifactId

def declaredLe (a b : Option ℕ) : Bool :=
  match a, b with
  | none, _ => true
  | some _, none => false
  | some a, some b => a ≤ b

/-- One declaration more, in front of those seen so far. -/
def addDirect (link : Link) (first : List (ℕ × Edge)) : List (ℕ × Edge) :=
  match first.find? (·.1 == link.target) with
  | none => first ++ [(link.target, link.edge)]
  | some (_, current) =>
    if declaredLe link.edge.declared current.declared then
      first.map fun entry => if entry.1 == link.target then (link.target, link.edge) else entry
    else first

def directEdges (g : Graph) : List (ℕ × Edge) :=
  (g.outgoing root).foldl (fun first link => addDirect link first) []

def ExclusionKey.le (a b : ExclusionKey) : Bool :=
  ((compare a.groupId b.groupId).then (compare a.artifactId b.artifactId)).isLE

def gatheredExclusions (parent : List ExclusionKey) (added : List Exclusion)
    (namesGathered : ExclusionKey → Bool) : List ExclusionKey :=
  let merged := added.foldl (fun merged exclusion =>
    let key := ExclusionKey.ofExclusion exclusion
    if key ∉ merged ∧ namesGathered key then merged ++ [key] else merged) parent
  if merged.length = parent.length then parent
  else merged.insertionSort fun a b => ExclusionKey.le a b

structure Gathering where
  widest : Option Scope
  seen : List (ℕ × Scope × List ExclusionKey)

/-- A node on the gathering walk, with the edges left, the next one first. -/
structure GatherFrame where
  node : ℕ
  scope : Scope
  excluded : List ExclusionKey
  edges : List Link

def gatherLimit (g : Graph) (node : ℕ) : ResolveError :=
  .graphLimitExceeded "states gathering a cycle's scope" maxGatherStates
    (match g.coordOf node with
      | none => []
      | some (groupId, artifactId) => Text.join [':'] [groupId, artifactId])

def ungathered (g : Graph) (picked : ℕ → Option Scope) : Gathering × List GatherFrame :=
  let start := (picked root).getD .compile
  ({ widest := none, seen := [(root, start, [])] },
    [{ node := root, scope := start, excluded := [], edges := (g.outgoing root).reverse }])

def scopeOf (g : Graph) (picked : ℕ → Option Scope) (node : ℕ) : Option Scope :=
  ((g.incoming node).foldl (fun widest link =>
    match picked link.source with
    | none => widest
    | some parent => offer widest (link.edge.scopeBelow parent)) none).or
      ((g.node node).map Node.scope)

section Pick

variable (g : Graph) (node : ℕ) (picked : ℕ → Option Scope) (done ancestors : ℕ → Bool)

def namesGathered (exclusion : ExclusionKey) : Bool :=
  (List.range g.nodes.length).any fun index =>
    (index == node || ancestors index) && g.isExcludedAt [exclusion] index

def throughWinner (source child : ℕ) : Bool :=
  match ((g.node child).bind Node.winnerParent).filter
      (fun parent => g.links.any fun link => link.source == parent && link.target == child) with
  | none => true
  | some parent => parent == source

def gatherStep : Gathering × List GatherFrame →
    Except ResolveError Gathering ⊕ (Gathering × List GatherFrame)
  | (state, []) => .inl (.ok state)
  | (state, frame :: stack) =>
    match frame.edges with
    | [] => .inr (state, stack)
    | link :: edges =>
      let stack := { frame with edges } :: stack
      let below := link.edge.scopeBelow frame.scope
      let child := link.target
      if g.isExcludedAt frame.excluded child then .inr (state, stack)
      else if child = node then
        .inr ({ state with widest := offer state.widest below }, stack)
      else if done child && !g.throughWinner frame.node child then .inr (state, stack)
      else
        let scope := if done child then (picked child).getD below else below
        let excluded :=
          gatheredExclusions frame.excluded link.edge.exclusions (g.namesGathered node ancestors)
        let entry := (child, scope, excluded)
        if ancestors child && !(stack.any (·.node == child)) && entry ∉ state.seen then
          let state := { state with seen := entry :: state.seen }
          if maxGatherStates < state.seen.length then .inl (.error (g.gatherLimit node))
          else
            .inr (state,
              { node := child, scope, excluded, edges := (g.outgoing child).reverse } :: stack)
        else .inr (state, stack)

def gather (fuel : ℕ) (s : Gathering × List GatherFrame) : Except ResolveError Gathering :=
  loop (g.gatherStep node picked done ancestors) (fun s => .ok s.1) fuel s

def pickScope (broken : Bool) : Except ResolveError (Option Scope) :=
  if broken then
    (g.gather node picked done ancestors ((maxGatherStates + 2) * (g.links.length + 1) + 1)
      (g.ungathered picked)).map fun state => state.widest.or ((g.node node).map Node.scope)
  else .ok (g.scopeOf picked node)

end Pick

structure Selecting where
  picked : ℕ → Option Scope
  done : ℕ → Bool
  ancestors : ℕ → Bool
  inDegree : ℕ → ℕ
  cycles : Option (List (List ℕ))
  ready : List (ℕ × Bool)

/-- The nodes gathered through once `node` is settled. -/
def ancestorsOf (s : Selecting) (node : ℕ) : ℕ → Bool :=
  fun index => s.ancestors index || ((s.cycles.getD []).filter (node ∈ ·)).any (index ∈ ·)

def release (state : (ℕ → ℕ) × List (ℕ × Bool)) (child : ℕ) : (ℕ → ℕ) × List (ℕ × Bool) :=
  (Function.update state.1 child (state.1 child - 1),
    if state.1 child - 1 = 0 then (child, false) :: state.2 else state.2)

def settled (groups : ConflictOrder) (s : Selecting) (node : ℕ) (picked : ℕ → Option Scope) :
    Selecting :=
  let released := (groups.children node).foldl release (s.inDegree, s.ready)
  { s with
    picked
    inDegree := released.1
    ready := released.2
    done := Function.update s.done node true
    ancestors := Function.update (ancestorsOf s node) node true }

def settleNode (g : Graph) (groups : ConflictOrder) (s : Selecting) (node : ℕ) (broken : Bool) :
    Except ResolveError Selecting := do
  let picked ←
    match s.picked node with
    | some _ => Except.ok s.picked
    | none => do
        let scope ← g.pickScope node s.picked s.done (ancestorsOf s node) broken
        .ok (Function.update s.picked node scope)
  .ok (settled groups s node picked)

def nearest (groups : ConflictOrder) (s : Selecting) : Option ℕ :=
  minBy (fun a b => (compare (groups.depth a) (groups.depth b)).then
    (compare (s.inDegree a) (s.inDegree b))) (groups.order.filter (!s.done ·))

def selectFrom (g : Graph) (groups : ConflictOrder) : ℕ → Selecting → Except ResolveError Selecting
  | 0, s => .ok s
  | fuel + 1, s =>
    match s.ready with
    | (node, broken) :: ready =>
      let s := { s with ready }
      if s.done node then selectFrom g groups fuel s
      else do
        let s ← g.settleNode groups s node broken
        selectFrom g groups fuel s
    | [] =>
      -- A cycle: Maven goes on at the nearest group left.
      match nearest groups s with
      | none => .ok s
      | some nearest =>
        let cycles := s.cycles.getD
          (groups.cycles (2 * (g.nodes.length + g.links.length + 1)))
        selectFrom g groups fuel { s with
          cycles := some cycles
          inDegree := Function.update s.inDegree nearest 0
          ready := [(nearest, true)] }

def unselected (g : Graph) : Selecting :=
  let groups := ConflictOrder.of g
  let rootScope := (g.node root).map Node.scope
  { picked := fun index =>
      if index ∈ groups.order ∧ (g.node index).any Node.isLocal then some .system
      else
        match g.directEdges.find? (·.1 == index) with
        | some (_, edge) => rootScope.map edge.scopeBelow
        | none => if index = root then rootScope else none
    done := fun index => index == root
    ancestors := fun _ => false
    inDegree := groups.inDegree
    cycles := none
    ready := ((groups.order.filter fun index => groups.inDegree index == 0).map
      fun index => (index, false)).reverse }

def pickedScopes (g : Graph) : Except ResolveError (ℕ → Option Scope) := do
  let s ← g.selectFrom (.of g) (3 * g.nodes.length + g.links.length + 2) g.unselected
  .ok s.picked

def withScopes (g : Graph) (picked : ℕ → Option Scope) : Graph :=
  { g with nodes := g.nodes.mapIdx fun index node =>
      { node with scope := (picked index).getD node.scope } }

def selectScopes (g : Graph) : Except ResolveError Graph := do
  let picked ← g.pickedScopes
  .ok (g.withScopes picked)

theorem selectScopes_eq {g g' : Graph} (h : g.selectScopes = .ok g') :
    g'.links = g.links ∧
      ∀ index, (g'.node index).map Node.coord = (g.node index).map Node.coord := by
  unfold selectScopes at h
  cases hp : g.pickedScopes with
  | error e => simp [hp, bind, Except.bind] at h
  | ok picked =>
    simp only [hp, bind, Except.bind, Except.ok.injEq] at h
    subst h
    refine ⟨rfl, fun index => ?_⟩
    simp only [withScopes, node, List.getElem?_mapIdx]
    cases g.nodes[index]? <;> rfl

end Graph

end Raeva
