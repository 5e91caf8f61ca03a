import Raeva.Store.Durability

/-!
# What a durability ticket means

The invariant of the durability queue over all schedules: the batches are
consecutive blocks of the registrations, all but the last have succeeded, and
the flags under the lock tell how the last one stands.  A ticket that
`make_durable` reports durable is in a block of a successful batch.
-/

namespace Raeva.Store

open List

variable {ι : Type}

variable {state : State} {blob : PathBuf} {unix : Bool} {upto ticket : ℕ} {s s' : Shared ι}
  {batch : Batch ι} {i : ι} {p : Phase} {t : Threads ι (Shared ι) Phase} {stamp : Text}
  {registrations : List Registration} {earlier : List (Batch ι)} {number : ℕ} {p' : Phase}
  {answer : Answer}

@[simp] theorem endOf_concat (batches : List (Batch ι)) (batch : Batch ι) :
    endOf (batches ++ [batch]) = batch.upto := by
  simp [endOf]

theorem eq_endOf {batches : List (Batch ι)} {c : ℕ}
    (h : Consecutive Batch.first Batch.upto 0 batches c) : c = endOf batches := by
  rcases eq_nil_or_concat batches with rfl | ⟨earlier, batch, rfl⟩
  · cases h
    rfl
  · rw [concat_eq_append] at h ⊢
    rw [endOf_concat, h.of_concat.2.2]

/-- How the last batch stands, by the flags under the lock. -/
inductive Standing (state : State) : List (Batch ι) → Prop
  | quiet : state.syncing = false → state.failed = none → Standing state []
  | inFlight {batch : Batch ι} : batch.outcome = none → state.syncing = true →
      state.failed = none → Standing state [batch]
  | failed {batch : Batch ι} {error : Text} : batch.outcome = some (.error error) →
      state.syncing = false → state.failed = some error → Standing state [batch]

/-- All batches have succeeded, but for the last one. -/
def Settled (s : Shared ι) : Prop :=
  ∃ succeeded last, s.batches = succeeded ++ last ∧
    (∀ batch ∈ succeeded, batch.outcome = some (.ok ())) ∧ s.state.synced = endOf succeeded ∧
    Standing s.state last

def pendings (unix : Bool) (registrations : List Registration) (first upto : ℕ) : List Pending :=
  if unix then ((registrations.take upto).drop first).map Registration.pending else []

/-- The registration that a ticket was issued to. -/
def Issued (registrations : List Registration) (ticket : ℕ) (P : Registration → Prop) : Prop :=
  ∃ k registration, ticket = k + 1 ∧ registrations[k]? = some registration ∧ P registration

structure Valid (unix : Bool) (s : Shared ι) : Prop where
  registered : s.state.registered = s.registrations.length
  consecutive : Consecutive Batch.first Batch.upto 0 s.batches (endOf s.batches)
  taken : endOf s.batches ≤ s.registrations.length
  queue : s.state.files = pendings unix s.registrations (endOf s.batches) s.registrations.length
  files : ∀ batch ∈ s.batches, batch.files = pendings unix s.registrations batch.first batch.upto
  settled : Settled s
  stamps : ∀ blob stamp ticket hashed, s.state.stamps.lookup blob = some (stamp, ticket, hashed) →
    Issued s.registrations ticket fun registration => registration.path = blob ∧
      registration.stamp = some stamp ∧ (hashed = true → registration.created = true)
  granted : ∀ grant ∈ s.granted, Issued s.registrations grant.ticket fun registration =>
    registration.path = grant.path ∧ registration.stamp = grant.stamp

def RunsLast (i : ι) (s : Shared ι) (number upto : ℕ) : Prop :=
  ∃ earlier batch, s.batches = earlier ++ [batch] ∧ number = earlier.length ∧
    batch.thread = i ∧ batch.upto = upto ∧ batch.outcome = none

/-- A thread that syncs runs the last batch. -/
def Batching (i : ι) (s : Shared ι) : Phase → Prop
  | .syncing _ _ number _ upto | .synced _ _ number upto _ => RunsLast i s number upto
  | _ => True

theorem valid_initial (unix : Bool) : Valid unix (Shared.initial : Shared ι) where
  registered := rfl
  consecutive := .nil 0
  taken := Nat.le_refl 0
  queue := by simp [pendings, Shared.initial, State.initial]
  files := by simp [Shared.initial]
  settled := ⟨[], [], rfl, by simp, rfl, .quiet rfl rfl⟩
  stamps := by simp [Shared.initial, State.initial]
  granted := by simp [Shared.initial]

/-! ## Registering -/

theorem State.lookup_of_knownTicket_eq_none (h : state.knownTicket blob (some stamp) = none) :
    (state.stamps.lookup blob).any (fun (known, _, hashed) => hashed && known == stamp) =
      false := by
  unfold knownTicket at h
  cases hlookup : state.stamps.lookup blob with
  | none => rfl
  | some entry =>
    obtain ⟨known, ticket, hashed⟩ := entry
    simp only [hlookup] at h
    split at h
    · cases h
    · rename_i hne
      simp [hne]

theorem pendings_concat {first : ℕ} (hupto : upto ≤ registrations.length)
    (registration : Registration) :
    pendings unix (registrations ++ [registration]) first upto =
      pendings unix registrations first upto := by
  rw [pendings, pendings, take_append_of_le_length hupto]

theorem Valid.knownTicket (h : Valid unix s) {stamp : Option Text}
    (hknown : s.state.knownTicket blob stamp = some ticket) :
    Issued s.registrations ticket fun registration =>
      registration.path = blob ∧ registration.stamp = stamp := by
  unfold State.knownTicket at hknown
  split at hknown
  · rename_i stamp known ticket' hashed hlookup
    split at hknown
    · rename_i hstamp
      obtain rfl : ticket' = ticket := Option.some.inj hknown
      obtain ⟨k, registration, hticket, hk, hpath, hknown, -⟩ := h.stamps _ _ _ _ hlookup
      exact ⟨k, registration, hticket, hk, hpath, hknown.trans (congrArg some hstamp)⟩
    · cases hknown
  · cases hknown

theorem Issued.concat {P : Registration → Prop} (h : Issued registrations ticket P)
    (added : Registration) : Issued (registrations ++ [added]) ticket P := by
  obtain ⟨k, registration, hticket, hk, hregistration⟩ := h
  refine ⟨k, registration, hticket, ?_, hregistration⟩
  rw [getElem?_append_left (List.getElem?_eq_some_iff.mp hk).1]
  exact hk

theorem Valid.enqueue (h : Valid unix s) (blobRoot blob : PathBuf) (created : Bool)
    (stamp : Option Text) (hunknown : created = true ∨ s.state.knownTicket blob stamp = none) :
    Valid unix { s with
      state := s.state.enqueue unix blobRoot blob created stamp
      registrations := s.registrations ++ [{ path := blob, created, stamp }]
      granted := s.granted ++ [{ path := blob, stamp, ticket := s.state.registered + 1 }] } where
  registered := by simp [State.enqueue, h.registered]
  consecutive := h.consecutive
  taken := by
    simp only [length_append]
    have htaken := h.taken
    omega
  queue := by
    have hqueue := h.queue
    have htaken := h.taken
    cases unix with
    | false => simpa [pendings, State.enqueue] using hqueue
    | true =>
      simp only [pendings, if_true, take_length] at hqueue
      simp only [pendings, if_true, take_length, State.enqueue, hqueue,
        drop_append_of_le_length htaken, map_append]
      rfl
  files batch hbatch := by
    have hupto := (h.consecutive.le_of_mem hbatch).2.trans h.taken
    rw [pendings_concat hupto]
    exact h.files batch hbatch
  settled := by
    obtain ⟨succeeded, last, hbatches, hsucceeded, hsynced, hlast⟩ := h.settled
    refine ⟨succeeded, last, hbatches, hsucceeded, hsynced, ?_⟩
    cases hlast with
    | quiet hsyncing hfailed => exact .quiet hsyncing hfailed
    | inFlight houtcome hsyncing hfailed => exact .inFlight houtcome hsyncing hfailed
    | failed houtcome hsyncing hfailed => exact .failed houtcome hsyncing hfailed
  stamps blob' stamp' ticket hashed hlookup := by
    have hold : s.state.stamps.lookup blob' = some (stamp', ticket, hashed) → _ := fun hlookup =>
      (h.stamps _ _ _ _ hlookup).concat { path := blob, created, stamp }
    cases stamp with
    | none => exact hold hlookup
    | some stamp =>
      simp only [State.enqueue, Table.lookup_insert_eq] at hlookup
      split at hlookup
      · rename_i hblob
        obtain ⟨rfl, rfl, hhashed⟩ : stamp = stamp' ∧ s.state.registered + 1 = ticket ∧
            s.state.isHashed blob created stamp = hashed := by simpa using hlookup
        refine ⟨s.state.registered, ⟨blob, created, some stamp⟩, rfl, ?_, ?_, rfl, ?_⟩
        · simp [h.registered]
        · exact hblob.symm
        intro htrue
        subst htrue
        rcases hunknown with hcreated | hknown
        · exact hcreated
        · simpa [State.isHashed, State.lookup_of_knownTicket_eq_none hknown] using hhashed
      · exact hold hlookup
  granted grant hgrant := by
    rcases mem_append.mp hgrant with hgrant | hgrant
    · exact (h.granted grant hgrant).concat { path := blob, created, stamp }
    · obtain rfl := mem_singleton.mp hgrant
      exact ⟨s.state.registered, ⟨blob, created, stamp⟩, rfl, by simp [h.registered], rfl, rfl⟩

theorem Valid.grant (h : Valid unix s) {stamp : Option Text}
    (hknown : s.state.knownTicket blob stamp = some ticket) :
    Valid unix { s with granted := s.granted ++ [{ path := blob, stamp, ticket }] } := by
  refine { h with granted := fun grant hgrant => ?_ }
  rcases mem_append.mp hgrant with hgrant | hgrant
  · exact h.granted grant hgrant
  · obtain rfl := mem_singleton.mp hgrant
    exact h.knownTicket hknown

theorem Valid.register {unix : Bool} {s : Shared ι} (h : Valid unix s) (blobRoot blob : PathBuf)
    (created : Bool) (stamp : Option Text) :
    Valid unix (s.register unix blobRoot blob created stamp).1 ∧
      (s.register unix blobRoot blob created stamp).1.batches = s.batches ∧
      ∀ i, Batching i (s.register unix blobRoot blob created stamp).1
        (s.register unix blobRoot blob created stamp).2 := by
  unfold Shared.register State.register
  cases hknown : if created then none else s.state.knownTicket blob stamp with
  | some ticket =>
    refine ⟨h.grant ?_, rfl, fun _ => trivial⟩
    cases created with
    | true => cases hknown
    | false => exact hknown
  | none =>
    refine ⟨h.enqueue blobRoot blob created stamp ?_, rfl, fun i => ?_⟩
    · cases created with
      | true => exact .inl rfl
      | false => exact .inr hknown
    · simp only
      split <;> trivial

/-! ## Syncing -/

theorem Standing.eq_nil {last : List (Batch ι)} (h : Standing state last)
    (hsyncing : state.syncing = false) (hfailed : state.failed = none) : last = [] := by
  cases h with
  | quiet => rfl
  | inFlight _ htrue _ =>
    rw [hsyncing] at htrue
    cases htrue
  | failed _ _ hsome =>
    rw [hfailed] at hsome
    cases hsome

theorem Valid.sync (h : Valid unix s) (i : ι) (hsyncing : s.state.syncing = false)
    (hfailed : s.state.failed = none) :
    Valid unix { s with
      state := { s.state with files := [], dirs := ∅, syncing := true }
      batches := s.batches ++ [{
        thread := i
        files := s.state.files
        dirs := s.state.dirs
        first := endOf s.batches
        upto := s.state.registered
        outcome := none }] } where
  registered := h.registered
  consecutive := by
    rw [endOf_concat]
    exact h.consecutive.concat rfl (h.registered ▸ h.taken)
  taken := by
    rw [endOf_concat]
    exact h.registered.le
  queue := by
    rw [endOf_concat]
    simp [pendings, h.registered]
  files batch hbatch := by
    rcases mem_append.mp hbatch with hbatch | hbatch
    · exact h.files batch hbatch
    · obtain rfl := mem_singleton.mp hbatch
      rw [h.registered]
      exact h.queue
  settled := by
    obtain ⟨succeeded, last, hbatches, hsucceeded, hsynced, hlast⟩ := h.settled
    obtain rfl := hlast.eq_nil hsyncing hfailed
    rw [append_nil] at hbatches
    exact ⟨succeeded, _, by rw [hbatches], hsucceeded, hsynced, .inFlight rfl rfl hfailed⟩
  stamps := h.stamps
  granted := h.granted

theorem Valid.makeDurable {unix : Bool} {s : Shared ι} (h : Valid unix s) (i : ι) (call : Call)
    (ticket : ℕ) :
    Valid unix (s.makeDurable i call ticket).1 ∧
      Batching i (s.makeDurable i call ticket).1 (s.makeDurable i call ticket).2 := by
  unfold Shared.makeDurable State.makeDurable
  cases hfailed : s.state.failed with
  | some error => exact ⟨h, trivial⟩
  | none =>
    by_cases hticket : ticket ≤ s.state.synced
    · simp only [if_pos hticket]
      exact ⟨h, trivial⟩
    cases hsyncing : s.state.syncing with
    | true =>
      simp only [if_neg hticket, if_true]
      exact ⟨h, trivial⟩
    | false =>
      simp only [if_neg hticket, Bool.false_eq_true, if_false]
      have hsync := h.sync i hsyncing hfailed
      simp only [hfailed] at hsync
      exact ⟨hsync, s.batches, _, rfl, rfl, rfl, rfl, rfl⟩

theorem modify_concat {α : Type} (l : List α) (a : α) (f : α → α) :
    (l ++ [a]).modify l.length f = l ++ [f a] := by
  induction l with
  | nil => rfl
  | cons b l ih => simpa using ih

theorem Settled.of_concat (h : Settled s) (hbatches : s.batches = earlier ++ [batch])
    (houtcome : batch.outcome = none) :
    (∀ batch ∈ earlier, batch.outcome = some (.ok ())) ∧ s.state.synced = endOf earlier ∧
      s.state.syncing = true ∧ s.state.failed = none := by
  obtain ⟨succeeded, last, hsplit, hsucceeded, hsynced, hlast⟩ := h
  rw [hbatches] at hsplit
  cases hlast with
  | quiet =>
    rw [append_nil] at hsplit
    have hok := hsucceeded batch (by simp [← hsplit])
    rw [houtcome] at hok
    cases hok
  | inFlight _ hsyncing hfailed =>
    obtain ⟨rfl, hlast⟩ := append_inj' hsplit rfl
    exact ⟨hsucceeded, hsynced, hsyncing, hfailed⟩
  | failed herror =>
    obtain ⟨-, hlast⟩ := append_inj' hsplit rfl
    obtain rfl := singleton_inj.mp hlast
    rw [houtcome] at herror
    cases herror

theorem Valid.unlink (h : Valid unix s) (files : List Pending) (result : Except Text Unit) :
    Valid unix (s.unlink files result) := by
  cases result <;> exact { h with }

theorem Valid.finish {unix : Bool} {s : Shared ι} (h : Valid unix s) {i : ι} {number upto : ℕ}
    (hruns : RunsLast i s number upto) (result : Except Text Unit) :
    Valid unix (s.finish number upto result) := by
  obtain ⟨earlier, batch, hbatches, rfl, -, rfl, houtcome⟩ := hruns
  obtain ⟨hearlier, hsynced, hsyncing, hfailed⟩ := h.settled.of_concat hbatches houtcome
  have hbatches' : (s.finish earlier.length batch.upto result).batches =
      earlier ++ [{ batch with outcome := some result }] := by
    simp only [Shared.finish, hbatches, modify_concat]
  have hend : endOf (s.finish earlier.length batch.upto result).batches = endOf s.batches := by
    rw [hbatches', hbatches, endOf_concat, endOf_concat]
  refine ⟨?_, ?_, ?_, ?_, ?_, ?_, ?_, h.granted⟩
  · cases result <;> exact h.registered
  · have hconsecutive := h.consecutive
    rw [hbatches] at hconsecutive
    obtain ⟨hinit, hle, hupto⟩ := hconsecutive.of_concat
    rw [hbatches', endOf_concat]
    exact hinit.concat rfl hle
  · rw [hend]
    exact h.taken
  · rw [hend]
    cases result <;> exact h.queue
  · intro other hother
    rw [hbatches'] at hother
    rcases mem_append.mp hother with hother | hother
    · exact h.files other (by simp [hbatches, hother])
    · obtain rfl := mem_singleton.mp hother
      exact h.files batch (by simp [hbatches])
  · cases result with
    | ok =>
      refine ⟨earlier ++ [{ batch with outcome := some (.ok ()) }], [], ?_, ?_, ?_, ?_⟩
      · rw [hbatches', append_nil]
      · intro other hother
        rcases mem_append.mp hother with hother | hother
        · exact hearlier other hother
        · obtain rfl := mem_singleton.mp hother
          rfl
      · rw [endOf_concat]
        rfl
      · exact .quiet rfl hfailed
    | error error => exact ⟨earlier, _, hbatches', hearlier, hsynced, .failed rfl rfl rfl⟩
  · cases result <;> exact h.stamps

/-! ## Every schedule -/

theorem batches_makeDurable (h : Settled s) (hbatches : s.batches = earlier ++ [batch])
    (houtcome : batch.outcome = none) (i : ι) (call : Call) (ticket : ℕ) :
    (s.makeDurable i call ticket).1.batches = s.batches := by
  obtain ⟨-, -, hsyncing, hfailed⟩ := h.of_concat hbatches houtcome
  unfold Shared.makeDurable State.makeDurable
  simp only [hfailed, hsyncing, if_true]
  by_cases hticket : ticket ≤ s.state.synced
  · simp only [if_pos hticket]
  · simp only [if_neg hticket]

theorem RunsLast.congr (h : RunsLast i s number upto) (hbatches : s'.batches = s.batches) :
    RunsLast i s' number upto := by
  obtain ⟨earlier, batch, hs, hrest⟩ := h
  exact ⟨earlier, batch, hbatches.trans hs, hrest⟩

theorem batches_unlink (s : Shared ι) (files : List Pending) (result : Except Text Unit) :
    (s.unlink files result).batches = s.batches := by
  cases result <;> rfl

theorem RunsLast.act {j : ι} (h : RunsLast j s number upto) (hne : i ≠ j) (hvalid : Valid unix s)
    (hruns : Batching i s p) (hact : Act unix i s p s' p') : RunsLast j s' number upto := by
  cases hact with
  | callRegister | callMakeDurable | isDurable | hashedStamp => exact h
  | register => exact h.congr (hvalid.register _ _ _ _).2.1
  | makeDurable =>
    refine h.congr ?_
    obtain ⟨earlier, batch, hbatches, -, -, -, houtcome⟩ := h
    exact batches_makeDurable hvalid.settled hbatches houtcome i _ _
  | syncBatch result => exact h.congr (batches_unlink _ _ result)
  | finish =>
    -- both threads would run the last batch
    obtain ⟨_, _, hbatches, -, hi, -⟩ := hruns
    obtain ⟨_, _, hbatches', -, hj, -⟩ := h
    rw [hbatches] at hbatches'
    obtain ⟨-, hlast⟩ := append_inj' hbatches' rfl
    obtain rfl := singleton_inj.mp hlast
    exact absurd (hi.symm.trans hj) hne

theorem kept (unix : Bool) : Threads.Kept (Act (ι := ι) unix) (Valid unix) Batching where
  own {i s p s' p'} hvalid hruns hact := by
    cases hact with
    | callRegister | callMakeDurable | isDurable | hashedStamp => exact ⟨hvalid, trivial⟩
    | register =>
      obtain ⟨hvalid, -, hruns⟩ := hvalid.register _ _ _ _
      exact ⟨hvalid, hruns i⟩
    | makeDurable => exact hvalid.makeDurable i _ _
    | syncBatch result =>
      exact ⟨hvalid.unlink _ result, RunsLast.congr hruns (batches_unlink _ _ result)⟩
    | finish => exact ⟨hvalid.finish hruns _, trivial⟩
  other {i j s p s' p' q} hne hvalid hruns hother hact := by
    cases q with
    | syncing | synced => exact RunsLast.act hother hne hvalid hruns hact
    | _ => trivial

theorem Reachable.holds [DecidableEq ι] (h : Reachable unix t) :
    Threads.Holds (Valid unix) Batching t :=
  (kept unix).reaches h ⟨valid_initial unix, fun _ => trivial⟩

theorem Act.failed (h : Act unix i s p s' p') (hsome : s.state.failed.isSome = true) :
    s'.state.failed.isSome = true := by
  cases h with
  | callRegister | callMakeDurable | isDurable | hashedStamp => exact hsome
  | @register blobRoot blob created stamp =>
    unfold Shared.register State.register
    cases if created then none else s.state.knownTicket blob stamp <;> exact hsome
  | makeDurable =>
    obtain ⟨error, herror⟩ := Option.isSome_iff_exists.mp hsome
    simp only [Shared.makeDurable, State.makeDurable, herror]
    rfl
  | syncBatch result => cases result <;> exact hsome
  | @finish _ _ _ _ result =>
    cases result with
    | ok => exact hsome
    | error => rfl

theorem failed_of_reaches [DecidableEq ι] {t' : Threads ι (Shared ι) Phase}
    (h : Threads.Reaches (Act unix) t t') :
    t.shared.state.failed.isSome = true → t'.shared.state.failed.isSome = true := by
  apply Threads.Reaches.rel (R := fun s s' : Shared ι =>
    s.state.failed.isSome = true → s'.state.failed.isSome = true) _ _ _ h
  · exact fun _ hsome => hsome
  · exact fun _ _ _ hab hbc hsome => hbc (hab hsome)
  · exact fun _ _ _ _ _ hact => hact.failed

def Covered (unix : Bool) (s : Shared ι) (k : ℕ) (registration : Registration) : Prop :=
  ∃ batch ∈ s.batches, batch.first ≤ k ∧ k < batch.upto ∧ batch.outcome = some (.ok ()) ∧
    (unix = true → batch.files[k - batch.first]? = some registration.pending)

theorem Valid.covered (h : Valid unix s) {k : ℕ} {registration : Registration}
    (hk : s.registrations[k]? = some registration) (hsynced : k < s.state.synced) :
    Covered unix s k registration := by
  obtain ⟨succeeded, last, hbatches, hsucceeded, hend, hlast⟩ := h.settled
  have hconsecutive : Consecutive Batch.first Batch.upto 0 succeeded (endOf succeeded) := by
    have hall := h.consecutive
    rw [hbatches] at hall
    obtain ⟨c, hsome⟩ := hall.of_append
    rwa [← eq_endOf hsome]
  obtain ⟨batch, hbatch, hfirst, hupto⟩ :=
    hconsecutive.exists_mem (Nat.zero_le k) (hend ▸ hsynced)
  have hmem : batch ∈ s.batches := by simp [hbatches, hbatch]
  refine ⟨batch, hmem, hfirst, hupto, hsucceeded batch hbatch, ?_⟩
  rintro rfl
  rw [h.files batch hmem]
  simp only [pendings, if_true, getElem?_map, getElem?_drop, getElem?_take]
  rw [Nat.add_sub_cancel' hfirst, if_pos hupto, hk]
  rfl

theorem Valid.not_failed (h : Valid unix s) (hfailed : s.state.failed = none) :
    ∀ batch ∈ s.batches, ∀ error, batch.outcome ≠ some (.error error) := by
  obtain ⟨succeeded, last, hbatches, hsucceeded, -, hlast⟩ := h.settled
  intro batch hbatch error herror
  rw [hbatches] at hbatch
  rcases mem_append.mp hbatch with hbatch | hbatch
  · rw [hsucceeded batch hbatch] at herror
    cases herror
  cases hlast with
  | quiet => cases hbatch
  | inFlight hnone =>
    obtain rfl := mem_singleton.mp hbatch
    rw [hnone] at herror
    cases herror
  | failed _ _ hsome =>
    rw [hfailed] at hsome
    cases hsome

theorem Valid.failed_of_batch (h : Valid unix s) (hbatch : batch ∈ s.batches) {error : Text}
    (herror : batch.outcome = some (.error error)) : s.state.failed.isSome = true := by
  cases hfailed : s.state.failed with
  | none => exact absurd herror (h.not_failed hfailed batch hbatch error)
  | some _ => rfl

theorem Valid.inFlight_unique (h : Valid unix s) {m n : ℕ} {batch' : Batch ι}
    (hm : s.batches[m]? = some batch) (hn : s.batches[n]? = some batch')
    (hbatch : batch.outcome = none) (hbatch' : batch'.outcome = none) : m = n := by
  obtain ⟨succeeded, last, hbatches, hsucceeded, -, hlast⟩ := h.settled
  have hlength : last.length ≤ 1 := by cases hlast <;> simp
  -- a batch without an outcome is not among those that succeeded
  have hplace : ∀ {n : ℕ} {batch : Batch ι}, s.batches[n]? = some batch → batch.outcome = none →
      n = succeeded.length := by
    intro n batch hn hnone
    have hlt := (List.getElem?_eq_some_iff.mp hn).1
    rw [hbatches, length_append] at hlt
    by_contra hne
    rw [hbatches, getElem?_append_left (by omega)] at hn
    have hok := hsucceeded batch (mem_of_getElem? hn)
    rw [hnone] at hok
    cases hok
  rw [hplace hm hbatch, hplace hn hbatch']

/-! ## What the calls answer -/

def Answer.ClaimsDurability : Answer → Prop
  | registered _ => False
  | durable _ _ result => result = .ok ()
  | isDurable _ _ answer => answer = true
  | hashedStamp _ stamp => stamp.isSome = true

def Answer.Sound (unix : Bool) (s : Shared ι) : Answer → Prop
  | durable _ ticket (.ok ()) =>
    (∀ grant ∈ s.granted, grant.ticket ≤ ticket → ∃ k registration, grant.ticket = k + 1 ∧
      s.registrations[k]? = some registration ∧ registration.path = grant.path ∧
      registration.stamp = grant.stamp ∧ Covered unix s k registration) ∧
    ∀ batch ∈ s.batches, ∀ error, batch.outcome ≠ some (.error error)
  | isDurable blob stamp true => ∃ k registration, s.registrations[k]? = some registration ∧
      registration.path = blob ∧ registration.stamp = some stamp ∧ Covered unix s k registration
  | hashedStamp blob (some stamp) => ∃ k registration, s.registrations[k]? = some registration ∧
      registration.path = blob ∧ registration.stamp = some stamp ∧ registration.created = true ∧
      Covered unix s k registration
  | _ => True

theorem State.makeDurable_eq_ok {state' : State}
    (h : state.makeDurable ticket = (.done (.ok ()), state')) :
    state.failed = none ∧ ticket ≤ state.synced := by
  unfold makeDurable at h
  split at h
  · cases h
  rename_i hfailed
  split at h
  · rename_i hticket
    exact ⟨hfailed, hticket⟩
  · split at h <;> cases h

theorem State.hashedStamp_eq_some (h : state.hashedStamp blob = some stamp) :
    ∃ ticket, state.stamps.lookup blob = some (stamp, ticket, true) ∧ ticket ≤ state.synced ∧
      state.failed = none := by
  unfold hashedStamp at h
  split at h
  · rename_i stamp' ticket hashed hlookup
    split at h
    · rename_i hcond
      cases h
      simp only [Bool.and_eq_true, Option.isNone_iff_eq_none, decide_eq_true_eq] at hcond
      obtain ⟨⟨hfailed, rfl⟩, hsynced⟩ := hcond
      exact ⟨ticket, hlookup, hsynced, hfailed⟩
    · cases h
  · cases h

theorem Valid.sound_durable (h : Valid unix s) (hfailed : s.state.failed = none)
    (hticket : ticket ≤ s.state.synced) (call : Call) :
    Answer.Sound unix s (.durable call ticket (.ok ())) := by
  refine ⟨fun grant hgrant hle => ?_, h.not_failed hfailed⟩
  obtain ⟨k, registration, hk, hregistration, hpath, hstamp⟩ := h.granted grant hgrant
  exact ⟨k, registration, hk, hregistration, hpath, hstamp, h.covered hregistration (by omega)⟩

theorem Valid.sound_isDurable (h : Valid unix s) (blob : PathBuf) (stamp : Text) :
    Answer.Sound unix s (.isDurable blob stamp (s.state.isDurable blob stamp)) := by
  cases hdurable : s.state.isDurable blob stamp with
  | false => trivial
  | true =>
    simp only [State.isDurable, Bool.and_eq_true] at hdurable
    obtain ⟨-, hany⟩ := hdurable
    cases hlookup : s.state.stamps.lookup blob with
    | none =>
      rw [hlookup] at hany
      cases hany
    | some entry =>
      obtain ⟨checked, ticket, hashed⟩ := entry
      simp only [hlookup, Option.any_some, Bool.and_eq_true, beq_iff_eq, decide_eq_true_eq] at hany
      obtain ⟨rfl, hsynced⟩ := hany
      obtain ⟨k, registration, hticket, hk, hpath, hregistered, -⟩ := h.stamps _ _ _ _ hlookup
      exact ⟨k, registration, hk, hpath, hregistered, h.covered hk (by omega)⟩

theorem Valid.sound_hashedStamp (h : Valid unix s) (blob : PathBuf) :
    Answer.Sound unix s (.hashedStamp blob (s.state.hashedStamp blob)) := by
  cases hstamp : s.state.hashedStamp blob with
  | none => trivial
  | some stamp =>
    obtain ⟨ticket, hlookup, hsynced, -⟩ := State.hashedStamp_eq_some hstamp
    obtain ⟨k, registration, hticket, hk, hpath, hregistered, hcreated⟩ :=
      h.stamps _ _ _ _ hlookup
    exact ⟨k, registration, hk, hpath, hregistered, hcreated rfl, h.covered hk (by omega)⟩

theorem Valid.sound (h : Valid unix s) (hact : Act unix i s p s' (.answered answer)) :
    Answer.Sound unix s answer := by
  generalize hphase : Phase.answered answer = p' at hact
  cases hact with
  | callRegister | callMakeDurable | syncBatch | finish => cases hphase
  | isDurable =>
    cases hphase
    exact h.sound_isDurable _ _
  | hashedStamp =>
    cases hphase
    exact h.sound_hashedStamp _
  | @register blobRoot blob created stamp =>
    unfold Shared.register at hphase
    split at hphase
    · cases hphase
      trivial
    · simp only at hphase
      split at hphase <;> cases hphase
      trivial
  | @makeDurable call ticket =>
    unfold Shared.makeDurable at hphase
    split at hphase
    · rename_i result state hturn
      cases hphase
      cases result with
      | error => trivial
      | ok =>
        obtain ⟨hfailed, hticket⟩ := State.makeDurable_eq_ok hturn
        exact h.sound_durable hfailed hticket call
    · cases hphase
    · cases hphase

theorem not_claimsDurability (hfailed : s.state.failed.isSome = true)
    (hact : Act unix i s p s' (.answered answer)) : ¬answer.ClaimsDurability := by
  obtain ⟨error, herror⟩ := Option.isSome_iff_exists.mp hfailed
  generalize hphase : Phase.answered answer = p' at hact
  cases hact with
  | callRegister | callMakeDurable | syncBatch | finish => cases hphase
  | isDurable =>
    cases hphase
    simp [Answer.ClaimsDurability, State.isDurable, herror]
  | hashedStamp blob =>
    cases hphase
    intro hclaims
    obtain ⟨stamp, hstamp⟩ := Option.isSome_iff_exists.mp hclaims
    obtain ⟨-, -, -, hnone⟩ := State.hashedStamp_eq_some hstamp
    rw [herror] at hnone
    cases hnone
  | register =>
    unfold Shared.register at hphase
    split at hphase
    · cases hphase
      exact id
    · simp only at hphase
      split at hphase <;> cases hphase
      exact id
  | makeDurable =>
    simp only [Shared.makeDurable, State.makeDurable, herror] at hphase
    cases hphase
    rintro ⟨⟩

/-- Over every schedule of any number of threads: what a call reports as durable
was synced, each registration is in one batch and one batch is in flight at a time,
and after a failed batch nothing is reported as durable again. -/
theorem Reachable.tickets [DecidableEq ι] {unix : Bool} {t : Threads ι (Shared ι) Phase}
    (h : Reachable unix t) :
    (∀ i s answer, Act unix i t.shared (t.phase i) s (.answered answer) →
        answer.Sound unix t.shared) ∧
      (∀ (k m n : ℕ) (batch batch' : Batch ι), t.shared.batches[m]? = some batch →
        t.shared.batches[n]? = some batch' → batch.first ≤ k ∧ k < batch.upto →
        batch'.first ≤ k ∧ k < batch'.upto → m = n) ∧
      (∀ (m n : ℕ) (batch batch' : Batch ι), t.shared.batches[m]? = some batch →
        t.shared.batches[n]? = some batch' → batch.outcome = none → batch'.outcome = none →
        m = n) ∧
      ∀ batch ∈ t.shared.batches, ∀ error, batch.outcome = some (.error error) →
        ∀ t', Threads.Reaches (Act unix) t t' → ∀ i s answer,
          Act unix i t'.shared (t'.phase i) s (.answered answer) → ¬answer.ClaimsDurability := by
  obtain ⟨hvalid, -⟩ := h.holds
  refine ⟨fun i s answer hact => hvalid.sound hact, ?_, ?_, ?_⟩
  · intro k m n batch batch' hm hn hk hk'
    exact hvalid.consecutive.index_unique hm hn hk hk'
  · intro m n batch batch' hm hn hnone hnone'
    exact hvalid.inFlight_unique hm hn hnone hnone'
  · intro batch hbatch error herror t' hreach i s answer hact
    exact not_claimsDurability
      (failed_of_reaches hreach (hvalid.failed_of_batch hbatch herror)) hact

theorem Reachable.step [DecidableEq ι] (h : Reachable unix t)
    (hact : Act unix i t.shared (t.phase i) s p) :
    Reachable unix ⟨s, Function.update t.phase i p⟩ :=
  Relation.ReflTransGen.tail h ⟨i, s, p, hact, rfl⟩

/-- While one thread syncs the blob that it wrote, another registers a blob, which the next batch
makes durable. -/
theorem Reachable.tickets_concurrent :
    ∃ t : Threads Bool (Shared Bool) Phase, Reachable true t ∧
      t.shared.granted = [⟨["blobs", "ab"], some "1", 1⟩, ⟨["blobs", "cd"], some "2", 2⟩] ∧
      t.shared.batches.map (fun batch => (batch.thread, batch.first, batch.upto)) =
        [(false, 0, 1), (true, 1, 2)] ∧
      ∃ s, Act true true t.shared (t.phase true) s (.answered (.durable .makeDurable 2 (.ok ()))) ∧
        Answer.Sound true t.shared (.durable .makeDurable 2 (.ok ())) := by
  have h₀ : Reachable true ⟨(Shared.initial : Shared Bool), fun _ => .idle⟩ := .refl
  have h₁ := h₀.step (i := false)
    (.callRegister ["blobs"] ["blobs", "ab"] true (some "1") trivial)
  have h₂ := h₁.step (i := false) .register
  have h₃ := h₂.step (i := false) (.callMakeDurable 1 trivial)
  have h₄ := h₃.step (i := false) .makeDurable
  -- the sync is under way
  have h₅ := h₄.step (i := true)
    (.callRegister ["blobs"] ["blobs", "cd"] true (some "2") trivial)
  have h₆ := h₅.step (i := true) .register
  have h₇ := h₆.step (i := true) (.callMakeDurable 2 trivial)
  have h₈ := h₇.step (i := true) .makeDurable
  have h₉ := h₈.step (i := false) (.syncBatch (.ok ()))
  have h₁₀ := h₉.step (i := false) .finish
  have h₁₁ := h₁₀.step (i := true) .makeDurable
  have h₁₂ := h₁₁.step (i := true) (.syncBatch (.ok ()))
  have h₁₃ := h₁₂.step (i := true) .finish
  exact ⟨_, h₁₃, rfl, rfl, _, .makeDurable, h₁₃.tickets.1 true _ _ .makeDurable⟩

end Raeva.Store
