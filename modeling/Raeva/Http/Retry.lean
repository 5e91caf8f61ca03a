import Mathlib.Algebra.BigOperators.Group.List.Basic
import Mathlib.Algebra.GroupWithZero.Nat
import Mathlib.Data.List.Chain

/-!
# Retries

The one retry rule of the HTTP clients, `rv-http/src/retry.rs`.  Requests to one
server share a cooldown, which any of them may change between two steps of
another.  What a request meets (the outcomes of its attempts, the delays of the
backoff, the jitter and the time that passes) is the input of its steps.
Durations and instants are in nanoseconds.
-/

namespace Raeva.Http

open List

def seconds (n : ℕ) : ℕ :=
  n * 10 ^ 9

def durationMax : ℕ :=
  2 ^ 64 * 10 ^ 9 - 1

def u32Max : ℕ :=
  2 ^ 32 - 1

def maxBusyWait : ℕ :=
  seconds 60

structure RetryPolicy where
  retries : ℕ
  budget : ℕ

inductive Outcome (ε : Type) where
  | permanent (error : ε)
  | transient (error : ε)
  | unresolved (error : ε)
  | busy (error : ε) (retryAfter : Option ℕ)

def Outcome.intoError {ε : Type} : Outcome ε → ε
  | permanent error | transient error | unresolved error | busy error _ => error

structure Cooldown where
  heldUntil : Option ℕ
  unresolvable : Bool
  now : ℕ

def Cooldown.hold (this : Cooldown) (wait : ℕ) : Cooldown :=
  if this.heldUntil.all (· < this.now + wait) then
    { this with heldUntil := some (this.now + wait) }
  else this

def Cooldown.remaining (this : Cooldown) : ℕ :=
  this.heldUntil.elim 0 (· - this.now)

variable {ι α ε : Type}

def lookupFailed : Except (Outcome ε) α → Bool
  | .error (.unresolved _) => true
  | _ => false

/-- What a request does next; after an answer, whether the lookup before failed
too. -/
inductive Stage (α ε : Type) where
  | holding
  | attempting
  | answered (failedBefore : Bool) (outcome : Except (Outcome ε) α)
  | returned (result : Except ε α)

/-- A request in `run`, with the attempts it made and its waits, each with the
`Retry-After` of the busy answer it follows. -/
structure Request (α ε : Type) where
  retries : ℕ
  waited : ℕ
  unresolved : Bool
  stage : Stage α ε
  attempts : List (Except (Outcome ε) α)
  waits : List (Option (Option ℕ) × ℕ)

def Request.new : Request α ε :=
  ⟨0, 0, false, .holding, [], []⟩

structure Input (α ε : Type) where
  elapsed : ℕ
  outcome : Except (Outcome ε) α
  backoff : Option ℕ
  jitter : ℕ

/-- The wait before the next attempt, if the server lets the request make one. -/
def nextWait (retries : ℕ) (input : Input α ε) : Option (Option ℕ) → Option ℕ
  | none => some (input.backoff.getD (seconds 30))
  | some retryAfter =>
    if retryAfter.any (maxBusyWait < ·) then none
    else
      let number := min (min retries u32Max + 1) u32Max
      let step := min (seconds 5 * number) durationMax
      let jittered := min (step + input.jitter) durationMax
      some (min (max jittered (retryAfter.getD 0)) maxBusyWait)

def Request.finish (this : Request α ε) (result : Except ε α) : Request α ε :=
  { this with stage := .returned result }

def Request.wait (this : Request α ε) (busy : Option (Option ℕ)) (wait : ℕ) : Request α ε :=
  { this with waited := this.waited + wait, waits := this.waits ++ [(busy, wait)] }

/-- What follows a failure that may be retried. -/
def Request.retry (policy : RetryPolicy) (input : Input α ε) (error : ε)
    (busy : Option (Option ℕ)) (cooldown : Cooldown) (this : Request α ε) :
    Cooldown × Request α ε :=
  if policy.retries ≤ this.retries then (cooldown, this.finish (.error error))
  else
    match nextWait this.retries input busy with
    | none => (cooldown, this.finish (.error error))
    | some wait =>
      if durationMax < this.waited + wait ∨ policy.budget < this.waited + wait then
        (cooldown, this.finish (.error error))
      else
        (if busy.isSome then cooldown.hold wait else cooldown,
          { this.wait busy wait with retries := this.retries + 1, stage := .holding })

def Request.settle (policy : RetryPolicy) (input : Input α ε) (failedBefore : Bool)
    (cooldown : Cooldown) (this : Request α ε) :
    Except (Outcome ε) α → Cooldown × Request α ε
  | .ok value => (cooldown, this.finish (.ok value))
  | .error (.permanent error) => (cooldown, this.finish (.error error))
  | .error (.transient error) => this.retry policy input error none cooldown
  | .error (.unresolved error) =>
    let cooldown := { cooldown with unresolvable := failedBefore || cooldown.unresolvable }
    if cooldown.unresolvable then (cooldown, this.finish (.error error))
    else this.retry policy input error none cooldown
  | .error (.busy error retryAfter) => this.retry policy input error (some retryAfter) cooldown

def Request.step (policy : RetryPolicy) (input : Input α ε) (cooldown : Cooldown)
    (this : Request α ε) : Cooldown × Request α ε :=
  let cooldown := { cooldown with now := cooldown.now + input.elapsed }
  match this.stage with
  | .holding =>
    let held := min cooldown.remaining (policy.budget - this.waited)
    (cooldown, if held = 0 then { this with stage := .attempting } else this.wait none held)
  | .attempting =>
    ({ cooldown with unresolvable := lookupFailed input.outcome && cooldown.unresolvable },
      { this with
        stage := .answered this.unresolved input.outcome
        unresolved := lookupFailed input.outcome
        attempts := this.attempts ++ [input.outcome] })
  | .answered failedBefore outcome => this.settle policy input failedBefore cooldown outcome
  | .returned _ => (cooldown, this)

structure Server (ι α ε : Type) where
  cooldown : Cooldown
  request : ι → Request α ε

variable [DecidableEq ι]

def Server.step (policy : ι → RetryPolicy) (this : Server ι α ε) (event : ι × Input α ε) :
    Server ι α ε :=
  let (cooldown, request) := (this.request event.1).step (policy event.1) event.2 this.cooldown
  ⟨cooldown, Function.update this.request event.1 request⟩

/-- The steps of any number of requests, in the order they happen. -/
def run (policy : ι → RetryPolicy) (cooldown : Cooldown) (events : List (ι × Input α ε)) :
    Server ι α ε :=
  events.foldl (Server.step policy) ⟨cooldown, fun _ => .new⟩

/-! ## What a request keeps -/

structure Open (attempts : List (Except (Outcome ε) α)) : Prop where
  retried : ∀ outcome ∈ attempts, ∃ failure, outcome = .error failure ∧ ∀ e, failure ≠ .permanent e
  lookups : attempts.IsChain fun first next => ¬(lookupFailed first ∧ lookupFailed next)

/-- The steps that a request takes at most before it returns. -/
def Request.left (policy : RetryPolicy) (this : Request α ε) : ℕ :=
  let rounds := policy.budget - this.waited + 3 * (policy.retries - this.retries)
  match this.stage with
  | .holding => rounds + 3
  | .attempting => rounds + 2
  | .answered _ _ => rounds + 1
  | .returned _ => 0

/-- The attempts once `outcome` answered the last of them. -/
structure Request.Answered (this : Request α ε) (failedBefore : Bool)
    (outcome : Except (Outcome ε) α) (before : List (Except (Outcome ε) α)) : Prop where
  attempts : this.attempts = before ++ [outcome]
  opened : Open before
  length : before.length = this.retries
  failed : failedBefore = before.getLast?.any lookupFailed
  unresolved : this.unresolved = lookupFailed outcome

/-- What the attempts are at each stage. -/
def Request.Recorded (policy : RetryPolicy) (this : Request α ε) : Prop :=
  match this.stage with
  | .holding | .attempting => Open this.attempts ∧ this.attempts.length = this.retries ∧
      this.unresolved = this.attempts.getLast?.any lookupFailed
  | .answered failedBefore outcome => ∃ before, this.Answered failedBefore outcome before
  | .returned result => ∃ before outcome, this.attempts = before ++ [outcome] ∧ Open before ∧
      before.length ≤ policy.retries ∧ result = outcome.mapError Outcome.intoError

structure Request.Valid (policy : RetryPolicy) (steps : ℕ) (this : Request α ε) : Prop where
  waited : (this.waits.map Prod.snd).sum = this.waited
  budget : this.waited ≤ policy.budget
  retries : this.retries ≤ policy.retries
  busy : ∀ wait ∈ this.waits, ∀ retryAfter ∈ wait.1,
    retryAfter.getD 0 ≤ wait.2 ∧ wait.2 ≤ maxBusyWait
  recorded : this.Recorded policy
  left : this.left policy = 0 ∨ steps + this.left policy ≤ policy.budget + 3 * policy.retries + 3

section Step

variable {policy : RetryPolicy} {input : Input α ε} {cooldown : Cooldown} {steps : ℕ}
  {this : Request α ε} {before : List (Except (Outcome ε) α)} {outcome : Except (Outcome ε) α}
  {failedBefore : Bool}

theorem Open.concat {failure : Outcome ε} (h : Open before) (hfailure : ∀ e, failure ≠ .permanent e)
    (hlookup : before.getLast?.any lookupFailed = true → lookupFailed outcome = false)
    (houtcome : outcome = .error failure) : Open (before ++ [outcome]) := by
  constructor
  · intro other hother
    rcases mem_append.mp hother with hother | hother
    · exact h.retried other hother
    · exact ⟨failure, (mem_singleton.mp hother).trans houtcome, hfailure⟩
  · refine isChain_append.mpr ⟨h.lookups, isChain_singleton _, ?_⟩
    rintro first hfirst next hnext ⟨hfailed, hagain⟩
    obtain rfl : outcome = next := Option.some.inj hnext
    rw [hlookup (by simp [Option.mem_def.mp hfirst, hfailed])] at hagain
    cases hagain

theorem Open.dropLast (h : Open before) : Open before.dropLast :=
  ⟨fun other hother => h.retried other (dropLast_subset _ hother), h.lookups.dropLast⟩

theorem nextWait_busy {retries wait : ℕ} {retryAfter : Option ℕ}
    (h : nextWait retries input (some retryAfter) = some wait) :
    retryAfter.getD 0 ≤ wait ∧ wait ≤ maxBusyWait := by
  simp only [nextWait] at h
  split at h
  · cases h
  rename_i hafter
  cases h
  refine ⟨le_min (le_max_right _ _) ?_, min_le_right _ _⟩
  cases retryAfter with
  | none => exact Nat.zero_le _
  | some least => simpa using hafter

theorem Request.Valid.finish (h : this.Valid policy steps)
    (hlast : this.Answered failedBefore outcome before) :
    (this.finish (outcome.mapError Outcome.intoError)).Valid policy (steps + 1) :=
  ⟨h.waited, h.budget, h.retries, h.busy,
    ⟨before, outcome, hlast.attempts, hlast.opened, hlast.length.trans_le h.retries, rfl⟩, .inl rfl⟩

theorem Request.Valid.wait (h : this.Valid policy steps) (busy : Option (Option ℕ)) (wait : ℕ)
    (hbusy : ∀ retryAfter ∈ busy, retryAfter.getD 0 ≤ wait ∧ wait ≤ maxBusyWait) :
    ((this.wait busy wait).waits.map Prod.snd).sum = this.waited + wait ∧
      ∀ other ∈ (this.wait busy wait).waits, ∀ retryAfter ∈ other.1,
        retryAfter.getD 0 ≤ other.2 ∧ other.2 ≤ maxBusyWait := by
  refine ⟨by simp [Request.wait, h.waited], ?_⟩
  intro other hother
  rcases mem_append.mp hother with hother | hother
  · exact h.busy other hother
  · rw [mem_singleton.mp hother]
    exact hbusy

theorem Request.Valid.retry {error : ε} {busy : Option (Option ℕ)} (h : this.Valid policy steps)
    (hstage : this.stage = .answered failedBefore outcome)
    (hlast : this.Answered failedBefore outcome before) (hopen : Open (before ++ [outcome]))
    (herror : outcome.mapError Outcome.intoError = .error error) :
    (this.retry policy input error busy cooldown).2.Valid policy (steps + 1) := by
  have hfinish := h.finish hlast
  rw [herror] at hfinish
  unfold Request.retry
  split
  · exact hfinish
  rename_i hretries
  split
  · exact hfinish
  rename_i wait hwait
  split
  · exact hfinish
  rename_i hbudget
  rw [not_or, Nat.not_lt, Nat.not_lt] at hbudget
  obtain ⟨hwaits, hbusy⟩ := h.wait busy wait (by
    rintro retryAfter ⟨⟩
    exact nextWait_busy hwait)
  refine ⟨hwaits, hbudget.2, Nat.lt_of_not_le hretries, hbusy, ?_, .inr ?_⟩
  · refine ⟨hlast.attempts ▸ hopen, ?_, ?_⟩
    · simp [Request.wait, hlast.attempts, hlast.length]
    · simp [Request.wait, hlast.attempts, hlast.unresolved]
  · have hleft := h.left
    simp only [Request.left, hstage, Request.wait] at hleft ⊢
    omega

theorem Request.Valid.settle (h : this.Valid policy steps)
    (hstage : this.stage = .answered failedBefore outcome) :
    (this.settle policy input failedBefore cooldown outcome).2.Valid policy (steps + 1) := by
  have hrecorded := h.recorded
  rw [Request.Recorded, hstage] at hrecorded
  obtain ⟨before, hlast⟩ := hrecorded
  have hfinish := h.finish hlast
  cases outcome with
  | ok value => exact hfinish
  | error failure =>
    cases failure with
    | permanent error => exact hfinish
    | transient error | busy error retryAfter =>
      exact h.retry hstage hlast
        (hlast.opened.concat (fun e he => by cases he) (fun _ => rfl) rfl) rfl
    | unresolved error =>
      unfold Request.settle
      dsimp only
      split
      · exact hfinish
      rename_i hflag
      refine h.retry hstage hlast
        (hlast.opened.concat (fun e he => by cases he) (fun hbefore => ?_) rfl) rfl
      -- the lookup before did not fail, or the request would have returned
      rw [← hlast.failed] at hbefore
      simp [hbefore] at hflag

theorem Request.Valid.step (h : this.Valid policy steps) :
    (this.step policy input cooldown).2.Valid policy (steps + 1) := by
  unfold Request.step
  have hrecorded := h.recorded
  have hleft := h.left
  cases hstage : this.stage with
  | holding =>
    simp only [Request.Recorded, hstage] at hrecorded
    dsimp only
    split
    · refine ⟨h.waited, h.budget, h.retries, h.busy, hrecorded, .inr ?_⟩
      simp only [Request.left, hstage] at hleft ⊢
      omega
    rename_i hheld
    have hbudget := h.budget
    obtain ⟨hwaits, hbusy⟩ := h.wait none _ (by simp)
    refine ⟨hwaits, ?_, h.retries, hbusy, ?_, .inr ?_⟩
    · simp only [Request.wait]
      omega
    · simp only [Request.Recorded, Request.wait, hstage]
      exact hrecorded
    · simp only [Request.left, Request.wait, hstage] at hleft ⊢
      omega
  | attempting =>
    simp only [Request.Recorded, hstage] at hrecorded
    refine ⟨h.waited, h.budget, h.retries, h.busy, ?_, .inr ?_⟩
    · exact ⟨this.attempts, rfl, hrecorded.1, hrecorded.2.1, hrecorded.2.2, rfl⟩
    · simp only [Request.left, hstage] at hleft ⊢
      omega
  | answered failedBefore outcome => exact h.settle hstage
  | returned result =>
    refine ⟨h.waited, h.budget, h.retries, h.busy, h.recorded, .inl ?_⟩
    simp only [Request.left, hstage]

end Step

theorem run_valid (policy : ι → RetryPolicy) (cooldown : Cooldown) (events : List (ι × Input α ε))
    (i : ι) : ((run policy cooldown events).request i).Valid (policy i)
      (events.countP fun event => event.1 = i) := by
  induction events using reverseRecOn with
  | nil =>
    refine ⟨rfl, Nat.zero_le _, Nat.zero_le _, by simp [run, Request.new], ?_, .inr ?_⟩
    · exact ⟨⟨by simp [run, Request.new], .nil⟩, rfl, rfl⟩
    · simp [run, Request.left, Request.new]
  | append_singleton events event ih =>
    rw [run, foldl_concat, countP_append, countP_singleton]
    by_cases hi : event.1 = i
    · subst hi
      simpa [run, Server.step] using ih.step
    · simpa [run, Server.step, hi, Ne.symm hi] using ih

/-- Whatever the requests to a server meet and in whatever order they take their
steps, each of them makes at most `retries + 1` attempts, waits no longer than its
budget and after a busy answer as long as the server asks, tries again after no
success, permanent failure or second failed lookup in a row, and returns the
outcome of its last attempt within a bounded number of its own steps. -/
theorem run_bounded (policy : ι → RetryPolicy) (cooldown : Cooldown)
    (events : List (ι × Input α ε)) (i : ι) :
    let request := (run policy cooldown events).request i
    request.attempts.length ≤ (policy i).retries + 1 ∧
      (request.waits.map Prod.snd).sum ≤ (policy i).budget ∧
      (∀ wait ∈ request.waits, ∀ retryAfter ∈ wait.1,
        retryAfter.getD 0 ≤ wait.2 ∧ wait.2 ≤ maxBusyWait) ∧
      Open request.attempts.dropLast ∧
      (∀ result, request.stage = .returned result → ∃ outcome ∈ request.attempts.getLast?,
        result = outcome.mapError Outcome.intoError) ∧
      ((policy i).budget + 3 * (policy i).retries + 3 < events.countP (fun event => event.1 = i) →
        ∃ result, request.stage = .returned result) := by
  intro request
  have h := run_valid policy cooldown events i
  have hrecorded := h.recorded
  have hretries := h.retries
  have hleft := h.left
  change request.Recorded (policy i) at hrecorded
  change request.retries ≤ _ at hretries
  change request.left (policy i) = 0 ∨ _ + request.left (policy i) ≤ _ at hleft
  refine and_left_comm.mp ⟨h.waited.trans_le h.budget, and_left_comm.mp ⟨h.busy, ?_⟩⟩
  cases hstage : request.stage with
  | holding | attempting =>
    simp only [Request.Recorded, Request.left, hstage] at hrecorded hleft
    exact ⟨by omega, hrecorded.1.dropLast, by simp, fun hsteps => by omega⟩
  | answered failedBefore outcome =>
    simp only [Request.Recorded, Request.left, hstage] at hrecorded hleft
    obtain ⟨before, hattempts, hopen, hlength, -, -⟩ := hrecorded
    rw [hattempts, length_append, length_singleton, dropLast_concat]
    exact ⟨by omega, hopen, by simp, fun hsteps => by omega⟩
  | returned result =>
    simp only [Request.Recorded, hstage] at hrecorded
    obtain ⟨before, outcome, hattempts, hopen, hlength, rfl⟩ := hrecorded
    rw [hattempts, length_append, length_singleton, dropLast_concat, getLast?_concat]
    refine ⟨by omega, hopen, ?_, fun _ => ⟨_, rfl⟩⟩
    rintro result ⟨⟩
    exact ⟨outcome, rfl, rfl⟩

end Raeva.Http
