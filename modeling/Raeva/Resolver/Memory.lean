import Raeva.Resolver.Reached

/-!
# Resolutions from a repository in memory

A backend that serves a fixed list of projects, and the walk after a number of
rounds of a resolution, which can be evaluated.
-/

namespace Raeva

/-- A repository that serves these projects, listed with the lower versions of
an artifact first, and nothing else. -/
def Backend.ofProjects [Lowercase] (projects : List Project) : Backend :=
  let matching (groupId artifactId : Text) (req : VersionReq) : List ResolvedVersion :=
    (projects.filter fun p =>
      p.groupId == groupId && p.artifactId == artifactId && req.holds ⟨p.version⟩).map
        fun p => ⟨⟨p.version⟩, none⟩
  { workspaceModule := fun _ => none
    isReactorModule := fun _ _ _ => false
    resolveVersion := fun groupId artifactId req _ =>
      match (matching groupId artifactId req).getLast? with
      | some resolved => .ok resolved
      | none => .error (.backend [])
    resolveVersions := fun groupId artifactId req _ => .ok (matching groupId artifactId req)
    resolveSnapshotVersion := fun coord _ => .ok ⟨coord.version, none⟩
    fetchProject := fun coord _ _ =>
      match projects.find? fun p =>
        p.groupId == coord.groupId && p.artifactId == coord.artifactId &&
          p.version == coord.version.original with
      | some project => .ok { project, repoUrl := none, workspaceModule := none }
      | none => .error (.backend [])
    extendRepoContext := fun repos _ _ => repos
    droppedReposOnPath := fun _ _ _ => []
    noteWinner := fun _ _ => .ok () }

def Dependency.on (groupId version : Text) (excluded : List Text) : Dependency where
  groupId := groupId
  artifactId := ['a']
  version := some version
  type := none
  classifier := none
  scope := none
  optional := none
  exclusions := excluded.map fun group => ⟨group, ['a']⟩
  systemPath := none

def Project.of (groupId version : Text) (dependencies : List Dependency) : Project :=
  { Project.new groupId ['a'] version with dependencies }

def Project.moved (groupId version group' version' : Text) : Project :=
  { Project.new groupId ['a'] version with
    relocation := some ⟨some group', none, some version'⟩ }

def CoordKey.of (groupId : Text) : CoordKey :=
  ⟨groupId, ['a'], none, none⟩

def SolverRoot.of (dependencies : List Dependency) : SolverRoot where
  coord := ⟨"root", ['a'], ⟨['1']⟩, none, none⟩
  dependencies := dependencies
  scope := .compile

namespace Solver

variable [Lowercase] {solver : Solver} {root : SolverRoot} {check : Walk → Walk → Bool}
  {N : Walk → Walk → Prop}

def ofProjects (projects : List Project) : Solver :=
  ⟨.ofProjects projects, .empty⟩

/-- The walk after at most `n` rounds of a resolution, as long as every action
passes `check`. -/
def rounds (solver : Solver) (check : Walk → Walk → Bool) (fuel : ℕ) : ℕ → Walk → Except Fault Walk
  | 0, w => .ok w
  | n + 1, w =>
    match popQueue w.queue with
    | some (item, queue) =>
      let (outcome, w) := solver.readItem w item queue
      let run := solver.mediate fuel item outcome
      if (run.steps w).all fun t => check t.1 t.2 then do
        let ((), w) ← run.result w
        rounds solver check fuel n w
      else .error .panic
    | none => do
        let (w, queued) ← w.walkExcludedDependencies solver.backend
        if queued then rounds solver check fuel n w else .ok w

/-- The executable rounds pass through walks that a resolution reaches. -/
theorem Between.rounds (hN : ∀ w w', check w w' = true → N w w') {fuel n : ℕ} {w w' : Walk}
    (h : Between N solver root w) (hrounds : solver.rounds check fuel n w = .ok w') :
    Between N solver root w' := by
  induction n generalizing w with
  | zero =>
    cases hrounds
    exact h
  | succ n ih =>
    unfold Solver.rounds at hrounds
    cases hpop : popQueue w.queue with
    | some p =>
      obtain ⟨item, queue⟩ := p
      simp only [hpop] at hrounds
      split at hrounds
      · rename_i hcheck
        obtain ⟨⟨⟨⟩, w₁⟩, hresult, hrest⟩ := bind_eq_ok hrounds
        refine ih (.mediated h hpop rfl (fun t ht => hN _ _ ?_) hresult) hrest
        exact List.all_eq_true.mp hcheck t ht
      · cases hrounds
    | none =>
      simp only [hpop] at hrounds
      obtain ⟨⟨w₁, queued⟩, hwalk, hrest⟩ := bind_eq_ok hrounds
      have hbetween := Between.walked h hpop hwalk
      cases queued with
      | true => exact ih hbetween hrest
      | false =>
        cases hrest
        exact hbetween

def walkAfter (solver : Solver) (root : SolverRoot) (check : Walk → Walk → Bool) (n : ℕ) :
    Option Walk :=
  match solver.start root with
  | .ok w => (solver.rounds check 50 n w).toOption
  | .error _ => none

theorem exists_between (hN : ∀ w w', check w w' = true → N w w') {n : ℕ} {p : Walk → Bool}
    (h : (solver.walkAfter root check n).any p = true) :
    ∃ w, Between N solver root w ∧ p w = true := by
  rw [Option.any_eq_true] at h
  obtain ⟨w, hw, hp⟩ := h
  refine ⟨w, ?_, hp⟩
  unfold walkAfter at hw
  cases hs : solver.start root with
  | error e => simp [hs] at hw
  | ok w₀ =>
    simp only [hs] at hw
    exact (Between.start hs).rounds hN (eq_ok_of_toOption hw)

end Solver

end Raeva
