import Mathlib.Data.Finset.Basic
import Raeva.Library.Forest
import Raeva.Library.Threads
import Raeva.Maven.Text

/-!
# When published blobs reach the disk

`Durability` of `rv-store/src/durability.rs`: blobs are registered under a lock
and get consecutive tickets, and `make_durable` syncs in one batch, outside the
lock, everything registered so far.  Each section of code under the lock is a
function on `State`; `Act` lets any number of threads run these sections in any
order.  A batch is in flight from the section that takes the queue to the one
that records how its sync ended, and that sync may end in either way.

The history of registrations and batches is kept beside the state to say what
the tickets mean.
-/

namespace Raeva.Store

abbrev PathBuf := List Text

def maxPending : ℕ := 256

structure Pending where
  path : PathBuf
  /-- This process published the file, rather than found it in the store. -/
  created : Bool
  deriving DecidableEq

structure State where
  files : List Pending
  dirs : Finset PathBuf
  registered : ℕ
  synced : ℕ
  /-- The identity of each file, the ticket of the batch that makes it durable,
  and whether this process wrote it from bytes it hashed. -/
  stamps : Table PathBuf (Text × ℕ × Bool)
  syncing : Bool
  failed : Option Text

def State.initial : State where
  files := []
  dirs := ∅
  registered := 0
  synced := 0
  stamps := ∅
  syncing := false
  failed := none

/-! ## The sections under the lock -/

/-- The directories from the parent of a path up to the blob root; the path is
given by its names from the file up. -/
def dirsUpTo (blobRoot : PathBuf) : List Text → Finset PathBuf
  | [] => ∅
  | _ :: names =>
    insert names.reverse (if names.reverse = blobRoot then ∅ else dirsUpTo blobRoot names)

namespace State

/-- The ticket of a found file that is unchanged since it was queued. -/
def knownTicket (state : State) (blob : PathBuf) (stamp : Option Text) : Option ℕ :=
  match stamp, state.stamps.lookup blob with
  | some stamp, some (known, ticket, _) => if known = stamp then some ticket else none
  | _, _ => none

def isHashed (state : State) (blob : PathBuf) (created : Bool) (stamp : Text) : Bool :=
  created || (state.stamps.lookup blob).any fun (known, _, hashed) => hashed && known == stamp

/-- The queue is kept on Unix only; elsewhere each file is synced before it is
published. -/
def enqueue (unix : Bool) (state : State) (blobRoot blob : PathBuf) (created : Bool)
    (stamp : Option Text) : State where
  files := if unix then state.files ++ [{ path := blob, created }] else state.files
  dirs := if unix then state.dirs ∪ dirsUpTo blobRoot blob.reverse else state.dirs
  registered := state.registered + 1
  synced := state.synced
  stamps :=
    match stamp with
    | some stamp =>
      state.stamps.insert blob
        (stamp, state.registered + 1, state.isHashed blob created stamp)
    | none => state.stamps
  syncing := state.syncing
  failed := state.failed

def register (unix : Bool) (state : State) (blobRoot blob : PathBuf) (created : Bool)
    (stamp : Option Text) : (ℕ × Option Bool) × State :=
  match if created then none else state.knownTicket blob stamp with
  | some ticket => ((ticket, none), state)
  | none =>
    let state := state.enqueue unix blobRoot blob created stamp
    ((state.registered, some (maxPending ≤ state.files.length)), state)

def isDurable (state : State) (blob : PathBuf) (stamp : Text) : Bool :=
  state.failed.isNone && (state.stamps.lookup blob).any fun (checked, ticket, _) =>
      checked == stamp && ticket ≤ state.synced

/-- The identity of a file that this process wrote from hashed bytes and that a
batch covered. -/
def hashedStamp (state : State) (blob : PathBuf) : Option Text :=
  match state.stamps.lookup blob with
  | some (stamp, ticket, hashed) =>
    if state.failed.isNone && hashed && ticket ≤ state.synced then some stamp else none
  | none => none

end State

/-- What one turn of the loop in `make_durable` comes to. -/
inductive Turn where
  | done (result : Except Text Unit)
  | wait
  | sync (files : List Pending) (dirs : Finset PathBuf) (upto : ℕ)

namespace State

def makeDurable (state : State) (ticket : ℕ) : Turn × State :=
  match state.failed with
  | some error =>
    (.done (.error ("failed to make published blobs durable: " ++ error)), state)
  | none =>
    if ticket ≤ state.synced then (.done (.ok ()), state)
    else if state.syncing then (.wait, state)
    else
      (.sync state.files state.dirs state.registered,
        { state with files := [], dirs := ∅, syncing := true })

def finish (state : State) (upto : ℕ) : Except Text Unit → State
  | .ok () => { state with syncing := false, synced := upto }
  | .error error => { state with syncing := false, failed := some error }

end State

/-! ## Threads -/

structure Registration where
  path : PathBuf
  created : Bool
  stamp : Option Text
  deriving DecidableEq

def Registration.pending (registration : Registration) : Pending where
  path := registration.path
  created := registration.created

/-- A ticket and the file it was given for, which may have been queued before. -/
structure Grant where
  path : PathBuf
  stamp : Option Text
  ticket : ℕ
  deriving DecidableEq

/-- A batch, with the registrations it covers counted from `first` up to `upto`,
and how its sync ended. -/
structure Batch (ι : Type) where
  thread : ι
  files : List Pending
  dirs : Finset PathBuf
  first : ℕ
  upto : ℕ
  outcome : Option (Except Text Unit)

structure Shared (ι : Type) where
  state : State
  registrations : List Registration
  granted : List Grant
  batches : List (Batch ι)
  /-- The files unlinked after a failed sync. -/
  removed : List PathBuf

def endOf {ι : Type} (batches : List (Batch ι)) : ℕ :=
  (batches.getLast?.map Batch.upto).getD 0

inductive Call where
  | register
  | makeDurable
  deriving DecidableEq

inductive Answer where
  | registered (ticket : ℕ)
  | durable (call : Call) (ticket : ℕ) (result : Except Text Unit)
  | isDurable (blob : PathBuf) (stamp : Text) (answer : Bool)
  | hashedStamp (blob : PathBuf) (stamp : Option Text)

inductive Phase where
  | idle
  | registering (blobRoot blob : PathBuf) (created : Bool) (stamp : Option Text)
  | making (call : Call) (ticket : ℕ)
  | syncing (call : Call) (ticket number : ℕ) (files : List Pending) (upto : ℕ)
  | synced (call : Call) (ticket number upto : ℕ) (result : Except Text Unit)
  | answered (answer : Answer)

def Phase.Resting : Phase → Prop
  | idle | answered _ => True
  | registering .. | making .. | syncing .. | synced .. => False

namespace Shared

variable {ι : Type}

def initial : Shared ι where
  state := .initial
  registrations := []
  granted := []
  batches := []
  removed := []

def register (unix : Bool) (s : Shared ι) (blobRoot blob : PathBuf) (created : Bool)
    (stamp : Option Text) : Shared ι × Phase :=
  match s.state.register unix blobRoot blob created stamp with
  | ((ticket, none), state) =>
    ({ s with state, granted := s.granted ++ [{ path := blob, stamp, ticket }] },
      .answered (.registered ticket))
  | ((ticket, some full), state) =>
    ({ s with
        state
        registrations := s.registrations ++ [{ path := blob, created, stamp }]
        granted := s.granted ++ [{ path := blob, stamp, ticket }] },
      if full then .making .register ticket else .answered (.registered ticket))

def makeDurable (s : Shared ι) (thread : ι) (call : Call) (ticket : ℕ) : Shared ι × Phase :=
  match s.state.makeDurable ticket with
  | (.done result, state) => ({ s with state }, .answered (.durable call ticket result))
  | (.wait, state) => ({ s with state }, .making call ticket)
  | (.sync files dirs upto, state) =>
    let batch := { thread, files, dirs, first := endOf s.batches, upto, outcome := none }
    ({ s with state, batches := s.batches ++ [batch] },
      .syncing call ticket s.batches.length files upto)

def unlink (s : Shared ι) (files : List Pending) : Except Text Unit → Shared ι
  | .ok () => s
  | .error _ => { s with removed := s.removed ++ (files.filter Pending.created).map Pending.path }

def finish (s : Shared ι) (number upto : ℕ) (result : Except Text Unit) : Shared ι where
  state := s.state.finish upto result
  registrations := s.registrations
  granted := s.granted
  batches := s.batches.modify number fun batch => { batch with outcome := some result }
  removed := s.removed

end Shared

/-- One thread runs one section.  It reads a file's stamp before it takes the
lock to register it, and a waiting thread may take its turn again at any time.
A batch is over when its result is recorded under the lock. -/
inductive Act {ι : Type} (unix : Bool) : ι → Shared ι → Phase → Shared ι → Phase → Prop
  | callRegister {i s p} (blobRoot blob created stamp) : p.Resting →
      Act unix i s p s (.registering blobRoot blob created stamp)
  | callMakeDurable {i s p} (ticket) : p.Resting → Act unix i s p s (.making .makeDurable ticket)
  | isDurable {i s p} (blob stamp) : p.Resting →
      Act unix i s p s (.answered (.isDurable blob stamp (s.state.isDurable blob stamp)))
  | hashedStamp {i s p} (blob) : p.Resting →
      Act unix i s p s (.answered (.hashedStamp blob (s.state.hashedStamp blob)))
  | register {i s blobRoot blob created stamp} :
      Act unix i s (.registering blobRoot blob created stamp)
        (s.register unix blobRoot blob created stamp).1
        (s.register unix blobRoot blob created stamp).2
  | makeDurable {i s call ticket} :
      Act unix i s (.making call ticket) (s.makeDurable i call ticket).1
        (s.makeDurable i call ticket).2
  | syncBatch {i s call ticket number files upto} (result) :
      Act unix i s (.syncing call ticket number files upto) (s.unlink files result)
        (.synced call ticket number upto result)
  | finish {i s call ticket number upto result} :
      Act unix i s (.synced call ticket number upto result) (s.finish number upto result)
        (.making call ticket)

/-- The states of a process whose threads start with an empty queue. -/
def Reachable {ι : Type} [DecidableEq ι] (unix : Bool) (t : Threads ι (Shared ι) Phase) : Prop :=
  Threads.Reaches (Act unix) ⟨Shared.initial, fun _ => .idle⟩ t

end Raeva.Store
