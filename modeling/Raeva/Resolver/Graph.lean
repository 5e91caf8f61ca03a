import Mathlib.Logic.Relation
import Raeva.Resolver.Queue

/-!
# The resolution graph

`Graph` of the resolver: nodes by index, edges in the order they were added.
petgraph lists the edges of a node from the latest to the oldest and keeps
that order when it removes one, so the list in insertion order determines
every iteration the code makes.
-/

namespace Raeva

structure Node where
  coord : Coord
  scope : Scope
  repoUrl : Option Text
  buildRepo : Option RepoRef
  repos : RepoContext
  workspaceModule : Option Text
  isLocal : Bool
  systemPath : Option Text
  winnerParent : Option ℕ
  deriving DecidableEq

structure Edge where
  scope : Scope
  managedScope : Bool
  declared : Option ℕ
  optional : Bool
  exclusions : List Exclusion
  requested : Option Text
  deriving DecidableEq

def Edge.scopeBelow (edge : Edge) (parent : Scope) : Scope :=
  if edge.managedScope then edge.scope
  else
    match parent, edge.scope with
    | _, .system | _, .test | .compile, _ => edge.scope
    | .test, _ | .runtime, _ => parent
    | .provided, _ | .system, _ => .provided
    | .import, _ => .runtime

structure Link where
  source : ℕ
  target : ℕ
  edge : Edge
  deriving DecidableEq

structure Graph where
  nodes : List Node
  links : List Link
  deriving DecidableEq

namespace Graph

def root : ℕ := 0

def new (root : Node) : Graph :=
  { nodes := [root], links := [] }

def node (g : Graph) (index : ℕ) : Option Node :=
  g.nodes[index]?

def setNode (g : Graph) (index : ℕ) (node : Node) : Graph :=
  { g with nodes := g.nodes.set index node }

def insertNode (g : Graph) (node : Node) : Graph :=
  { g with nodes := g.nodes ++ [node] }

def addLink (links : List Link) (link : Link) : List Link :=
  if link ∈ links then links else links ++ [link]

def addEdge (g : Graph) (source target : ℕ) (edge : Edge) : Graph :=
  { g with links := addLink g.links { source, target, edge } }

def removeEdge (g : Graph) (source target : ℕ) (edge : Edge) : Graph :=
  { g with links := g.links.erase { source, target, edge } }

def clearOutgoing (g : Graph) (index : ℕ) : Graph :=
  { g with links := g.links.filter (·.source ≠ index) }

def clearIncoming (g : Graph) (index : ℕ) : Graph :=
  { g with links := g.links.filter (·.target ≠ index) }

def retargetIncoming (g : Graph) (dead alive : ℕ) : Graph :=
  { g with
    links := (g.links.filter (·.target = dead)).reverse.foldl
      (fun links link => addLink links { link with target := alive })
      (g.links.filter (·.target ≠ dead)) }

/-- The edges out of a node, the latest first. -/
def outgoing (g : Graph) (index : ℕ) : List Link :=
  (g.links.filter (·.source = index)).reverse

/-- The edges into a node, the latest first. -/
def incoming (g : Graph) (index : ℕ) : List Link :=
  (g.links.filter (·.target = index)).reverse

def Steps (g : Graph) (source target : ℕ) : Prop :=
  ∃ link ∈ g.links, link.source = source ∧ link.target = target

/-- A node that a path of edges leads to from the root. -/
def IsReachable (g : Graph) (index : ℕ) : Prop :=
  Relation.ReflTransGen g.Steps root index

/-- Breadth-first search from the root; every round adds a node or ends. -/
def reachableFrom (g : Graph) : ℕ → List ℕ → List ℕ
  | 0, seen => seen
  | fuel + 1, seen =>
    let next := (g.links.filter fun link => link.source ∈ seen ∧ link.target ∉ seen).map Link.target
    if next.isEmpty then seen else reachableFrom g fuel (seen ++ next.dedup)

def reachable (g : Graph) : List ℕ :=
  reachableFrom g (g.nodes.length + g.links.length) [root]

/-! ## What the operations do to nodes and edges -/

variable {link : Link} {g : Graph} {source target index : ℕ} {edge : Edge}

theorem mem_addLink {links : List Link} {other : Link} :
    other ∈ addLink links link ↔ other = link ∨ other ∈ links := by
  unfold addLink
  split
  · constructor
    · exact .inr
    · rintro (rfl | h)
      · assumption
      · exact h
  · simp [or_comm]

theorem mem_addEdge :
    link ∈ (g.addEdge source target edge).links ↔
      link = { source, target, edge } ∨ link ∈ g.links :=
  mem_addLink

theorem mem_of_mem_removeEdge (h : link ∈ (g.removeEdge source target edge).links) :
    link ∈ g.links :=
  List.mem_of_mem_erase h

theorem mem_clearOutgoing :
    link ∈ (g.clearOutgoing index).links ↔ link ∈ g.links ∧ link.source ≠ index := by
  simp [clearOutgoing]

theorem mem_clearIncoming :
    link ∈ (g.clearIncoming index).links ↔ link ∈ g.links ∧ link.target ≠ index := by
  simp [clearIncoming]

theorem mem_foldl_addLink {f : Link → Link} {added links : List Link} :
    link ∈ added.foldl (fun links l => addLink links (f l)) links ↔
      link ∈ links ∨ ∃ l ∈ added, link = f l := by
  induction added generalizing links with
  | nil => simp
  | cons l added ih =>
    rw [List.foldl_cons, ih, mem_addLink]
    constructor
    · rintro ((rfl | h) | ⟨l', hl', rfl⟩)
      · exact .inr ⟨l, by simp, rfl⟩
      · exact .inl h
      · exact .inr ⟨l', by simp [hl'], rfl⟩
    · rintro (h | ⟨l', hl', rfl⟩)
      · exact .inl (.inr h)
      · rcases List.mem_cons.mp hl' with rfl | hl'
        · exact .inl (.inl rfl)
        · exact .inr ⟨l', hl', rfl⟩

theorem mem_retargetIncoming {dead alive : ℕ} :
    link ∈ (g.retargetIncoming dead alive).links ↔ (link ∈ g.links ∧ link.target ≠ dead) ∨
        ∃ l ∈ g.links, l.target = dead ∧ link = { l with target := alive } := by
  simp only [retargetIncoming]
  rw [mem_foldl_addLink (f := fun l => { l with target := alive })]
  simp [and_assoc]

@[simp] theorem nodes_clearOutgoing (g : Graph) (index : ℕ) :
    (g.clearOutgoing index).nodes = g.nodes := rfl

@[simp] theorem nodes_clearIncoming (g : Graph) (index : ℕ) :
    (g.clearIncoming index).nodes = g.nodes := rfl

@[simp] theorem nodes_retargetIncoming (g : Graph) (dead alive : ℕ) :
    (g.retargetIncoming dead alive).nodes = g.nodes := rfl

end Graph

end Raeva
