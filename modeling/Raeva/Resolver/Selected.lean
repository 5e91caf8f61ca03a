import Mathlib.Data.Finset.Insert
import Raeva.Resolver.Candidate

/-!
# Conflict groups

The candidates of one conflict group with its winner, and Maven's
NearestVersionSelector over them: `Selected` and `Settled` of
`solver/mod.rs`.
-/

namespace Raeva

open List

/-- Keep the better of two values under one key, in the order the keys came. -/
def indexInsert {κ α : Type} [DecidableEq κ] (better : α → α → Bool) (k : κ) (a : α) :
    List (κ × α) → List (κ × α)
  | [] => [(k, a)]
  | (k', a') :: rest =>
    if k' = k then (k', if better a a' then a else a') :: rest
    else (k', a') :: indexInsert better k a rest

def indexBest {κ α : Type} [DecidableEq κ] (better : α → α → Bool) (key : α → κ) (l : List α) :
    List α :=
  (l.foldl (fun index a => indexInsert better (key a) a index) []).map Prod.snd

/-- The first element of each key that is not in `seen`, and the keys seen
then. -/
def firstUnseen {α : Type} (key : α → ℕ) : Finset ℕ → List α → List α × Finset ℕ
  | seen, [] => ([], seen)
  | seen, a :: rest =>
    if key a ∈ seen then firstUnseen key seen rest
    else
      let (fresh, seen) := firstUnseen key (insert (key a) seen) rest
      (a :: fresh, seen)

def distinctTexts (seen : List Text) : List Hard → List Hard
  | [] => []
  | hard :: rest =>
    if hard.text ∈ seen then distinctTexts seen rest
    else hard :: distinctTexts (hard.text :: seen) rest

variable {seen : List Text} {l : List Hard} {hard : Hard}

theorem mem_of_mem_distinctTexts (h : hard ∈ distinctTexts seen l) : hard ∈ l := by
  induction l generalizing seen with
  | nil => cases h
  | cons first rest ih =>
    unfold distinctTexts at h
    split at h
    · exact mem_cons_of_mem _ (ih h)
    · rcases mem_cons.mp h with rfl | h
      · exact mem_cons_self
      · exact mem_cons_of_mem _ (ih h)

theorem mem_distinctTexts (h : hard ∈ l) (hseen : hard.text ∉ seen) :
    hard ∈ distinctTexts seen l := by
  induction l generalizing seen with
  | nil => cases h
  | cons first rest ih =>
    unfold distinctTexts
    split
    · rename_i hfirst
      rcases mem_cons.mp h with rfl | h
      · exact absurd hfirst hseen
      · exact ih h hseen
    · by_cases htext : hard.text = first.text
      · rw [Hard.text_inj htext]
        exact mem_cons_self
      rcases mem_cons.mp h with rfl | h
      · exact absurd rfl htext
      · refine mem_cons_of_mem _ (ih h ?_)
        simp [htext, hseen]

/-- Depth, place and number of a declaration. -/
abbrev SortKey := ℕ × TreeOrder × ℕ

def QueueItem.sortKey (item : QueueItem) : SortKey :=
  (item.depth, item.order, item.declaredAt)

def SortKey.cmp (a b : SortKey) : Ordering :=
  (compare a.1 b.1).then ((a.2.1.cmp b.2.1).then (compare a.2.2 b.2.2))

structure Conflict where
  coord : Text
  requested : Text
  selected : Text
  place : SortKey
  deriving DecidableEq

/-- The candidates nearer than a settled winner, which some constraint
rejects, with a memo of the constraints that reject one of them. -/
structure Settled where
  nearer : List Candidate
  memo : Table Text Bool

structure Selected where
  node : ℕ
  candidates : List Candidate
  winner : Option Candidate
  winnerPath : Option PathNode
  /-- Losers already scanned for shadows under this winner. -/
  scanned : Finset ℕ
  /-- Losers already walked below what the winner's path excludes. -/
  walked : Finset ℕ
  /-- Losing ranges whose preferred version was probed and did not relocate. -/
  dirtyChecked : Finset ℕ
  conflict : Option Conflict
  winners : Finset (TreeOrder × Text)
  /-- How often a winner came back. -/
  changes : ℕ
  settled : Option Settled

def Hard.accepts [Lowercase] (hard : Hard) (version : Version) : Bool :=
  hard.req.holds version

def Candidate.accepts [Lowercase] (c : Candidate) (version : Version) : Bool :=
  c.hard.all (·.accepts version)

namespace Settled

variable [Lowercase]

def rejects (state : Settled) (hard : Hard) : Bool × Settled :=
  match state.memo.lookup hard.text with
  | some known => (known, state)
  | none =>
    let rejects := state.nearer.any fun c => !hard.accepts c.coord.version
    (rejects, { state with memo := state.memo.insert hard.text rejects })

def rejecting (state : Settled) : List Candidate → List Candidate × Settled
  | [] => ([], state)
  | c :: rest =>
    match c.hard with
    | none => state.rejecting rest
    | some hard =>
      let (rejects, state) := state.rejects hard
      let (found, state) := state.rejecting rest
      (if rejects then c :: found else found, state)

end Settled

namespace Selected

def new (node : ℕ) (candidates : List Candidate) : Selected where
  node := node
  candidates := candidates
  winner := none
  winnerPath := none
  scanned := ∅
  walked := ∅
  dirtyChecked := ∅
  conflict := none
  winners := ∅
  changes := 0
  settled := none

def withCandidates (s : Selected) (candidates : List Candidate) : Selected :=
  { s with candidates }

/-- The candidates of a merged group join; the winner must be chosen again. -/
def absorb (s moved : Selected) : Selected :=
  { s with settled := none, candidates := s.candidates ++ moved.candidates }

def constraints (s : Selected) : List Hard :=
  distinctTexts [] (s.candidates.filterMap Candidate.hard)

def conflictOf (s : Selected) (culprit : Candidate) : Conflict where
  coord := Text.join [':'] [culprit.coord.groupId, culprit.coord.artifactId]
  requested :=
    match culprit.hard with
    | some hard =>
      match hard.req with
      | .exact version => version.original
      | req => req.display
    | none => culprit.coord.version.original
  selected := ((s.winner.map (·.coord.version)).getD culprit.coord.version).original
  place := culprit.item.sortKey

def instanceAt (s : Selected) (origin : ShadowOrigin) : Option Candidate :=
  s.candidates.find? fun c =>
    c.item.shadow.isNone && c.item.declaredAt == origin.instanceAt && sameText c.coord origin.coord

def instanceOf (s : Selected) (candidate : Candidate) : Option Candidate :=
  s.candidates.find? fun c =>
    c.item.shadow.isNone && candidate.item.shadow.isNone &&
      c.item.declaredAt == candidate.item.declaredAt && sameText c.coord candidate.coord

def onWinnerPath (s : Selected) (key : CoordKey) : Bool :=
  s.winnerPath.any (·.contains key)

variable [Lowercase]

def settle (s : Selected) : Selected :=
  { s with
    settled := s.winner.map fun winner =>
      { nearer := s.candidates.filter fun c => (c.rankCmp winner).isLT
        memo := ∅ } }

/-- Every hard constraint must accept the winner, which is the nearest
candidate. -/
def best (s : Selected) : Option Candidate :=
  minBy Candidate.rankCmp
    (s.candidates.filter fun c => s.constraints.all (·.accepts c.coord.version))

/-- The distinct constraints accept what the candidates' own constraints
accept. -/
theorem all_constraints (s : Selected) (version : Version) :
    s.constraints.all (·.accepts version) = s.candidates.all (·.accepts version) := by
  rw [Bool.eq_iff_iff, all_eq_true, all_eq_true]
  constructor
  · intro h c hc
    cases hhard : c.hard with
    | none => simp [Candidate.accepts, hhard]
    | some hard =>
      have hmem : hard ∈ s.candidates.filterMap Candidate.hard :=
        mem_filterMap.mpr ⟨c, hc, hhard⟩
      have haccepts := h hard (mem_distinctTexts hmem not_mem_nil)
      simpa [Candidate.accepts, hhard] using haccepts
  · intro h hard hhard
    obtain ⟨c, hc, hc'⟩ := mem_filterMap.mp (mem_of_mem_distinctTexts hhard)
    have haccepts := h c hc
    simpa [Candidate.accepts, hc'] using haccepts

/-- Whether Maven's dirty tree reads the range of `c` although its constraint
accepts `best`. -/
def isDirtyRange (s : Selected) (best c : Candidate) : Bool :=
  c.item.shadow.isNone && !c.same best && c.item.declaredAt != best.item.declaredAt &&
    (match c.hard with
      | some hard =>
        (match hard.req with
          | .ranges _ => true
          | _ => false) &&
        c.item.declaredAt ∉ s.dirtyChecked && hard.accepts best.coord.version &&
        c.resolvedProject.isNone
      | none => false)

/-- The unloaded highest candidate of each losing range whose constraint
accepts `best`. -/
def dirtyRanges (s : Selected) (best : Candidate) : List Candidate :=
  indexBest (fun c kept => sourceLt kept.source c.source) (·.item.declaredAt)
    (s.candidates.filter (s.isDirtyRange best))

/-- The unloaded lowest candidates of the ranges whose constraint rejects a
candidate nearer than `best`, or any candidate when there is no `best`. -/
def unconfirmed (s : Selected) (best : Option Candidate) : List Candidate :=
  let nearer := s.candidates.filter fun c => best.all fun best => (c.rankCmp best).isLT
  if nearer.isEmpty then []
  else
    let rejecting := (s.constraints.filter fun hard =>
      nearer.any fun c => !hard.accepts c.coord.version).map Hard.text
    let lowest := indexBest (fun c kept => sourceLt c.source kept.source)
      (fun c : Candidate => (c.item.declaredAt, c.hard.map Hard.text))
      (s.candidates.filter fun c => c.hard.any fun hard => hard.text ∈ rejecting)
    lowest.filter (·.resolvedProject.isNone)

def noteConflict (s : Selected) : Selected :=
  let rejecting := s.candidates.filter fun c =>
    c.hard.any fun hard => s.winner.all fun winner => !hard.accepts winner.coord.version
  match (maxByKey (·.item.declaredAt) rejecting).or s.candidates.head? with
  | none => s
  | some culprit => { s with conflict := some (s.conflictOf culprit) }

end Selected

end Raeva
