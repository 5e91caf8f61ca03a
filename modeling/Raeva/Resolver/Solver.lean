import Raeva.Library.Run
import Raeva.Resolver.Mediation

/-!
# The solver

`Solver::solve` of `solver/mod.rs`: declarations are read one at a time in
queue order, and each is mediated before the next is read.  Mediation is a
`Run` on the walk whose steps are the operations of `Walk`; its loops are cut
off by fuel.
-/

namespace Raeva

structure SolverRoot where
  coord : Coord
  dependencies : List Dependency
  scope : Scope

abbrev Mediating := Run Walk Fault

namespace Solver

variable [Lowercase] (solver : Solver)

/-! ## Loads -/

def loadProbe (candidate : Candidate) : Mediating Load :=
  Run.act fun w =>
    match loadCandidate solver candidate w.relocations with
    | (.ok loaded, relocations) => .ok (loaded, { w with relocations })
    | (.error e, _) => .error (.error e)

def stopsRange : Except ResolveError Load → Bool
  | .ok (.ready _) | .ok (.cyclic _) => false
  | _ => true

/-- Load a range's candidates from the lowest version up, through the first
that relocates, is excluded or fails. -/
def loadEach : List Candidate → RelocationCache → List (Except ResolveError Load) × RelocationCache
  | [], cache => ([], cache)
  | probe :: rest, cache =>
    let (loaded, cache) := loadCandidate solver probe cache
    if stopsRange loaded then ([loaded], cache)
    else
      let (results, cache) := loadEach rest cache
      (loaded :: results, cache)

def loadInOrder (probes : List Candidate) : Mediating (List (Except ResolveError Load)) :=
  Run.act fun w =>
    let (loads, relocations) := loadEach solver probes w.relocations
    .ok (loads, { w with relocations })

/-! ## Candidates -/

/-- Bring a read declaration into its conflict group, merging the groups of the
keys it relocated from first. -/
def addResolution (resolution : Resolution) : Mediating Unit := do
  let candidate := resolution.candidate
  Run.check fun w => w.refuseCycle candidate
  -- A cyclic target joins no group; Maven puts a relocation's source, target
  -- and the coordinates between them in one.
  let aliases :=
    if candidate.item.path.contains candidate.key then candidate.inherited else resolution.aliases
  Run.each (fun key => Run.modify fun w => w.union key candidate.key) aliases
  Run.step (Walk.joinGroup solver.backend resolution)

def applyLoad (key : CoordKey) (best : Candidate) (loaded : Load) : Mediating Unit := do
  let giveWay (stops : Bool) : Mediating Unit := Run.step fun w =>
    match w.selected.lookup key with
    | none => .error .panic
    | some s => .ok (w.giveWay key s best stops)
  match loaded with
  | .ready candidate =>
    Run.step fun w =>
      match w.selected.lookup key with
      | none => .error .panic
      | some s => .ok (w.replaceLoaded key s best candidate)
  | .relocated resolution => do
      giveWay true
      addResolution solver resolution
  | .cyclic resolution => do
      giveWay false
      addResolution solver resolution
  | .excluded => giveWay true

/-- Put loaded projects in place, through the first that relocates, which is
returned; `left` counts the probes from this one on. -/
def applyLoads (key : CoordKey) : List (Candidate × Except ResolveError Load) → ℕ →
    Mediating (Option Candidate)
  | [], _ => pure none
  | (probe, loaded) :: rest, left => do
      let key' ← Run.read fun w => w.groupOf key
      if ← Run.read fun w => w.holds key' probe then do
        let loaded ← Run.check fun _ => loaded.mapError Fault.error
        applyLoad solver key' probe loaded
        match loaded with
        | .ready _ | .cyclic _ => applyLoads key rest (left - 1)
        | _ => pure (some probe)
      else do
        -- A cyclic load can merge the group into another or drop candidates.
        if left = 1 then Run.modify fun w => w.markDirty key'
        applyLoads key rest (left - 1)

/-- The unloaded versions of the candidate's range below it, from the lowest
up. -/
def lowerVersions (s : Selected) (candidate : Candidate) : List Candidate :=
  (s.candidates.filter fun c =>
      c.item.declaredAt == candidate.item.declaredAt && c.resolvedProject.isNone &&
      c.source.length == candidate.source.length &&
      c.source.dropLast == candidate.source.dropLast && sourceLt c.source candidate.source)
    |>.insertionSort fun a b => (compare a.source b.source).isLE

/-- Load a candidate of the group `key`, after the versions of its range below
it, and return the candidate that relocated, if one did. -/
def loadOne (key : CoordKey) (candidate : Candidate) : Mediating (Option Candidate) := do
  if candidate.source.isEmpty then Run.fail .panic
  else
    match ← Run.read fun w => w.selected.lookup key with
    | none => Run.fail .panic
    | some s =>
      let lower := lowerVersions s candidate ++ [candidate]
      let loads ← loadInOrder solver lower
      match ← applyLoads solver key (lower.zip loads) lower.length with
      | some relocated => pure (some relocated)
      | none => do
          -- The load that stopped the rest was of a version no longer held.
          if loads.length ≠ lower.length then Run.modify fun w => w.markDirty (w.groupOf key)
          pure none

def load (key : CoordKey) (candidate : Candidate) : Mediating Unit := do
  match ← loadOne solver key candidate with
  | none => pure ()
  | some relocated => do
      let others ← Run.read fun w =>
        (((w.selected.lookup (w.groupOf key)).map Selected.candidates).getD []).filter fun c =>
          c.resolvedProject.isNone && sameText c.coord relocated.coord
      Run.each (fun other => do
        let key ← Run.read fun w => w.groupOf key
        if ← Run.read fun w => w.holds key other then discard (loadOne solver key other)) others

def loadHeld (key : CoordKey) (candidate : Candidate) : Mediating Unit := do
  let key ← Run.read fun w => w.groupOf key
  if ← Run.read fun w => w.holds key candidate then load solver key candidate

/-- Confirm the lowest version of a range that joined a settled group. -/
def confirm (key : CoordKey) (candidate : Candidate) (start : ℕ) : Mediating Unit := do
  let key ← Run.read fun w => w.groupOf key
  match ← Run.read fun w => w.pending key candidate start with
  | none => Run.modify fun w => w.markDirty key
  | some index =>
    match ← loadProbe solver candidate with
    | .ready loaded => do
        Run.step (Walk.replaceAt key index loaded)
        Run.step (Walk.scanLosers solver.backend key start)
    | _ => Run.modify fun w => w.markDirty key

/-! ## Mediation of one group -/

/-- Note that the preferred version of a losing range does not relocate. -/
def noteChecked (key : CoordKey) (candidate : Candidate) : Mediating Unit :=
  Run.modify fun w =>
    match w.selected.lookup key with
    | none => w
    | some s =>
      w.setSelected key
        { s with dirtyChecked := insert candidate.item.declaredAt s.dirtyChecked }

/-- Whether a declaration in the same repository context loaded this version. -/
def alreadyLoaded (w : Walk) (key : CoordKey) (candidate : Candidate) : Bool :=
  (w.selected.lookup key).any fun s => s.candidates.any fun c =>
    sameText c.coord candidate.coord && c.item.path.repos == candidate.item.path.repos &&
      c.resolvedProject.isSome

/-- Read the preferred versions of losing ranges, as Maven's dirty tree does;
whether one relocated. -/
def probeDirty (key : CoordKey) : List Candidate → Mediating Bool
  | [] => pure false
  | candidate :: rest => do
      let key' ← Run.read fun w => w.groupOf key
      if ← Run.read fun w => w.holds key' candidate then do
        if ← Run.read fun w => alreadyLoaded w key' candidate then do
          noteChecked key' candidate
          probeDirty key rest
        else
          match ← loadProbe solver candidate with
          | .relocated _ | .cyclic _ => do
              load solver key' candidate
              let _ ← probeDirty key rest
              pure true
          | .ready _ | .excluded => do
              noteChecked key' candidate
              probeDirty key rest
      else probeDirty key rest

def modifyGroup (key : CoordKey) (f : Selected → Selected) : Mediating Unit :=
  Run.step fun w =>
    match w.selected.lookup key with
    | none => .error .panic
    | some s => .ok (w.setSelected key (f s))

def settleOn (key : CoordKey) : Mediating Unit := do
  Run.modify fun w =>
    match w.selected.lookup key with
    | none => w
    | some s => w.setSelected key s.settle
  Run.step (Walk.scanLosers solver.backend key 0)

/-- Mediate a group again: the nearest candidate that every hard constraint
accepts wins.  A winner whose project is not loaded yet is loaded first and may
relocate. -/
def reconsider : ℕ → CoordKey → Mediating Unit
  | 0, _ => Run.fail .fuel
  | fuel + 1, key => do
      let key ← Run.read fun w => w.groupOf key
      match ← Run.read fun w => w.selected.lookup key with
      | none => pure ()
      | some s => do
          Run.modify fun w => w.setSelected key { s with settled := none }
          if s.candidates.all (·.item.shadow.isSome) then Run.modify fun w => w.dropGroup key
          else if !(s.unconfirmed s.best).isEmpty then do
            -- A range whose lowest version relocates has no hard constraint
            -- left, so the ranges that decide the mediation load that first.
            Run.each (loadHeld solver key) (s.unconfirmed s.best)
            reconsider fuel key
          else
            match s.best with
            | none => modifyGroup key Selected.noteConflict
            | some best => do
                if ← probeDirty solver key (s.dirtyRanges best) then reconsider fuel key
                else do
                  modifyGroup key fun s => { s with conflict := none }
                  if ← Run.read fun w =>
                      ((w.selected.lookup key).bind Selected.winner).any (·.same best) then do
                    -- A declaration took the place of its own shadow.
                    modifyGroup key fun s => { s with winner := some best }
                    settleOn solver key
                  else if best.resolvedProject.isNone then do
                    load solver key best
                    reconsider fuel key
                  else do
                    Run.step (Walk.commit solver.backend key best)
                    settleOn solver key

/-! ## Mediation -/

def addLoad : Except ResolveError Load → Mediating Unit
  | .error e => Run.fail (.error e)
  | .ok (.ready candidate) =>
    addResolution solver { candidate, alternatives := [], aliases := [] }
  | .ok (.relocated resolution) | .ok (.cyclic resolution) => addResolution solver resolution
  | .ok .excluded => pure ()

/-- Work off what the latest declaration left to do. -/
def settle : ℕ → Mediating Unit
  | 0 => Run.fail .fuel
  | fuel + 1 => do
      match ← Run.read Walk.unscanned with
      | (key, candidate) :: rest => do
          Run.modify fun w => { w with unscanned := rest }
          loadHeld solver key candidate
          settle fuel
      | [] =>
        match ← Run.read Walk.walkLoads with
        | probes :: rest => do
            Run.modify fun w => { w with walkLoads := rest }
            let loads ← loadInOrder solver probes
            Run.each (addLoad solver) loads
            settle fuel
        | [] =>
          match ← Run.read Walk.confirm with
          | entry :: entries => do
              Run.modify fun w => { w with confirm := [] }
              Run.each (fun (key, candidate, start) => confirm solver key candidate start)
                (entry :: entries)
              settle fuel
          | [] =>
            match ← Run.read Walk.takeDirty with
            | some (key, w) => do
                Run.modify fun _ => w
                reconsider solver fuel key
                settle fuel
            | none => pure ()

/-- Mediate what reading `item` gave.  An item that went stale while queued is
read too, but its result is dropped, failures included. -/
def mediate (fuel : ℕ) (item : QueueItem) (outcome : Except ResolveError (Option Resolution)) :
    Mediating Unit := do
  if ← Run.read fun w => w.isLive item then
    match outcome with
    | .error e => Run.fail (.error e)
    | .ok none => settle solver fuel
    | .ok (some resolution) => do
        addResolution solver resolution
        settle solver fuel
  else pure ()

/-! ## The whole resolution -/

def queueRoot (path : PathNode) (w : Walk) (dependency : Dependency) (index : ℕ) :
    Except ResolveError Walk := do
  let item : QueueItem :=
    { parent := Graph.root
      parentGeneration := rootGeneration
      dependency
      managedScope := false
      depth := 1
      order := TreeOrder.default.child index
      declaredAt := w.nextDeclaredAt
      exclusions := []
      path
      shadow := none }
  let managed := applyManagedMetadata solver.management item
  if managed.dependency.effectiveScope ≠ Scope.import then do
    let version ← resolveVersionStr solver.management managed.dependency 1
    refuseUndefinedProperty solver.backend managed version
    discard (parseRequestedRequirement managed.dependency.groupId managed.dependency.artifactId
      version)
  let queue ← pushQueue w.queue item
  .ok { w with queue, nextDeclaredAt := w.nextDeclaredAt + 1 }

def start (root : SolverRoot) : Except ResolveError Walk :=
  let walk := Walk.new (.new
    { coord := root.coord
      scope := root.scope
      repoUrl := none
      buildRepo := none
      repos := .default
      workspaceModule := solver.backend.workspaceModule root.coord
      isLocal := false
      systemPath := none
      winnerParent := none })
  root.dependencies.zipIdx.foldlM
    (fun w (dependency, index) => queueRoot solver (.ofRoot root.coord) w dependency index) walk

/-- Fail on the first declared winner in the graph whose coordinate still names
an undefined property. -/
def refuseUnresolvedWinners (w : Walk) : Except ResolveError Unit :=
  let reachable := w.graph.reachable
  let unresolved := w.selected.values.filterMap fun s =>
    s.winner.filter fun winner => namesProperty winner.coord && s.node ∈ reachable
  match minBy (fun a b : Candidate => compare a.item.declaredAt b.item.declaredAt) unresolved with
  | none => .ok ()
  | some winner => do
      let item := winner.item
      let version ← resolveVersionStr solver.management item.dependency item.depth
      (refuseUndefinedProperty solver.backend item version).mapError (declaredBelow · item.path)

/-- Read the next queued declaration: what it became, and the walk without it
and with the relocations the read followed. -/
def readItem (w : Walk) (item : QueueItem) (queue : List QueueItem) :
    Except ResolveError (Option Resolution) × Walk :=
  let (outcome, relocations) := resolveItem solver item w.relocations
  (outcome.mapError (declaredBelow · item.path), { w with queue, relocations })

def solveFrom : ℕ → Walk → Except Fault Graph
  | 0, _ => .error .fuel
  | fuel + 1, w =>
    match popQueue w.queue with
    | some (item, queue) => do
        let (outcome, w) := readItem solver w item queue
        let ((), w) ← (mediate solver fuel item outcome).result w
        solveFrom fuel w
    | none => do
        let (w, queued) ← w.walkExcludedDependencies solver.backend
        if queued then solveFrom fuel w
        else do
          (refuseUnresolvedWinners solver w).mapError Fault.error
          (w.finish solver.backend).mapError Fault.error

def solve (fuel : ℕ) (root : SolverRoot) : Except Fault Graph := do
  let w ← (start solver root).mapError Fault.error
  solveFrom solver fuel w

end Solver

end Raeva
