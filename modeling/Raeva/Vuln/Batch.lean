import Raeva.Library.Forest
import Raeva.Vuln.Pages

/-!
# Batches of package URLs

The package URLs are queried in chunks, every record that some page names is
fetched once, and each record or the failure to fetch it is given back to the
package URLs it was named for.  Nothing named is lost on the way, whatever the
service answers and in whatever order the records arrive.
-/

namespace Raeva.Vuln

open List

variable {β : Type}

def batchChunkSize : ℕ := 100

/-- What the service answers to one call: the pages of each chunk and the record of each id, and
the order in which the records arrive. -/
structure Service (β : Type) where
  batch : ℕ → Answers β
  record : Text → Except VulnError (Vulnerability β)
  arrival : List Text → List Text
  arrival_perm : ∀ ids, (arrival ids).Perm ids

structure VulnResult (β : Type) where
  purl : Text
  vulnerabilities : List (Vulnerability β)
  deriving DecidableEq

structure FailedFetch where
  id : Text
  purls : List Text
  error : VulnError
  deriving DecidableEq

def fetchVulnerability (service : Service β) (id : Text) : Except VulnError (Vulnerability β) := do
  let record ← service.record id
  if record.id ≠ id then
    .error (.invalidResponse ("OSV returned a different vulnerability for requested id '" ++
      id ++ "'"))
  else .ok record

def gather (fetch : Text → Except VulnError (Vulnerability β)) (ids : List Text) :
    Table Text (Vulnerability β) × Table Text VulnError :=
  ids.foldl (fun gathered id =>
    match fetch id with
    | .ok vulnerability => (gathered.1.insert id vulnerability, gathered.2)
    | .error e => (gathered.1, gathered.2.insert id e)) (∅, ∅)

def notePurl (purl id : Text) : List FailedFetch → List FailedFetch
  | [] => []
  | failed :: rest =>
    if failed.id = id then { failed with purls := failed.purls ++ [purl] } :: rest
    else failed :: notePurl purl id rest

/-- The records for one package URL, which is noted with the fetches that failed. -/
def shareOut (records : Table Text (Vulnerability β)) (purl : Text) :
    List Text → List FailedFetch → List (Vulnerability β) × List FailedFetch
  | [], failed => ([], failed)
  | id :: ids, failed =>
    match records.lookup id with
    | some vulnerability =>
      let (vulnerabilities, failed) := shareOut records purl ids failed
      (vulnerability :: vulnerabilities, failed)
    | none => shareOut records purl ids (notePurl purl id failed)

def shareOutAll (records : Table Text (Vulnerability β)) :
    List (Text × List Text) → List FailedFetch → List (VulnResult β) × List FailedFetch
  | [], failed => ([], failed)
  | (purl, ids) :: rest, failed =>
    let (vulnerabilities, failed) := shareOut records purl ids failed
    let (results, failed) := shareOutAll records rest failed
    (⟨purl, vulnerabilities⟩ :: results, failed)

/-- Fetch every record named once, and share the records and the failures out. -/
def fetchAll (service : Service β) (purls : List Text) (perPurlIds : List (List Text)) :
    List (VulnResult β) × List FailedFetch :=
  let allIds := perPurlIds.flatten.foldl (fun ids name => Keyed.insertNew id name ids) []
  let (records, errors) := gather (fetchVulnerability service) (service.arrival allIds)
  let failedFetches := allIds.filterMap fun id => (errors.lookup id).map fun e => ⟨id, [], e⟩
  shareOutAll records (purls.zip perPurlIds) failedFetches

def chunk (purls : List Text) (k : ℕ) : List Text :=
  (purls.drop (k * batchChunkSize)).take batchChunkSize

def queryBatch (service : Service β) (purls : List Text) :
    Except VulnError (List (VulnResult β) × List FailedFetch) := do
  let chunks ← (List.range ((purls.length + batchChunkSize - 1) / batchChunkSize)).mapM
    fun k => (collectBatchPages (chunk purls k) (service.batch k)).1
  -- slot `i` of all package URLs is slot `i % 100` of chunk `i / 100`
  .ok (fetchAll service purls ((List.range purls.length).map fun i =>
    (chunks.getD (i / batchChunkSize) .empty).ids (i % batchChunkSize)))

section Gather

variable {service : Service β} {fetch : Text → Except VulnError (Vulnerability β)}

theorem id_of_fetchVulnerability {id : Text} {vulnerability : Vulnerability β}
    (h : fetchVulnerability service id = .ok vulnerability) : vulnerability.id = id := by
  obtain ⟨record, -, h⟩ := bind_eq_ok h
  split at h
  · cases h
  next hid =>
  cases h
  exact of_not_not hid

theorem gather_concat (ids : List Text) (name : Text) :
    gather fetch (ids ++ [name]) = match fetch name with
      | .ok vulnerability => ((gather fetch ids).1.insert name vulnerability, (gather fetch ids).2)
      | .error e => ((gather fetch ids).1, (gather fetch ids).2.insert name e) := by
  rw [gather, foldl_append, foldl_cons, foldl_nil, gather]

theorem lookup_gather (ids : List Text) (name : Text) :
    (∀ vulnerability, (gather fetch ids).1.lookup name = some vulnerability ↔
      name ∈ ids ∧ fetch name = .ok vulnerability) ∧
    ∀ e, (gather fetch ids).2.lookup name = some e ↔ name ∈ ids ∧ fetch name = .error e := by
  induction ids using List.reverseRecOn with
  | nil => simp [gather]
  | append_singleton ids last ih =>
    rw [gather_concat]
    by_cases hname : name = last
    · subst hname
      cases hfetch : fetch name with
      | ok vulnerability =>
        simp only [hfetch] at ih
        simp [ih.2]
      | error e =>
        simp only [hfetch] at ih
        simp [ih.1]
    · cases hfetch : fetch last with
      | ok vulnerability | error e => simp [hname, ih]

end Gather

/-! ## Sharing out -/

section ShareOut

variable {records : Table Text (Vulnerability β)} {purl name : Text} {failed : List FailedFetch}

def Noted (failed : List FailedFetch) (purl name : Text) : Prop :=
  ∃ fetch ∈ failed, fetch.id = name ∧ purl ∈ fetch.purls

theorem map_id_notePurl (purl name : Text) (failed : List FailedFetch) :
    (notePurl purl name failed).map (·.id) = failed.map (·.id) := by
  induction failed with
  | nil => rfl
  | cons fetch failed ih =>
    rw [notePurl]
    split
    · rfl
    · rw [map_cons, ih, map_cons]

theorem Noted.notePurl {purl' name' : Text} (h : Noted failed purl name) :
    Noted (notePurl purl' name' failed) purl name := by
  obtain ⟨fetch, hfetch, rfl, hpurl⟩ := h
  induction failed with
  | nil => cases hfetch
  | cons first failed ih =>
    rw [Vuln.notePurl]
    split
    · rcases mem_cons.mp hfetch with rfl | hfetch
      · exact ⟨_, mem_cons_self, rfl, mem_append_left _ hpurl⟩
      · exact ⟨fetch, mem_cons_of_mem _ hfetch, rfl, hpurl⟩
    · rcases mem_cons.mp hfetch with rfl | hfetch
      · exact ⟨fetch, mem_cons_self, rfl, hpurl⟩
      · obtain ⟨noted, hnoted, hid, hmem⟩ := ih hfetch
        exact ⟨noted, mem_cons_of_mem _ hnoted, hid, hmem⟩

theorem noted_notePurl (h : name ∈ failed.map (·.id)) :
    Noted (notePurl purl name failed) purl name := by
  induction failed with
  | nil => cases h
  | cons first failed ih =>
    rw [notePurl]
    split
    next hid => exact ⟨_, mem_cons_self, hid, mem_append_right _ (mem_singleton_self _)⟩
    next hid =>
      rcases mem_cons.mp h with h | h
      · exact absurd h.symm hid
      · obtain ⟨noted, hnoted, hmem⟩ := ih h
        exact ⟨noted, mem_cons_of_mem _ hnoted, hmem⟩

theorem fst_shareOut (ids : List Text) (failed : List FailedFetch) :
    (shareOut records purl ids failed).1 = ids.filterMap records.lookup := by
  induction ids generalizing failed with
  | nil => rfl
  | cons name ids ih =>
    rw [shareOut]
    cases hlookup : records.lookup name with
    | none =>
      simp only [filterMap_cons, hlookup]
      exact ih _
    | some vulnerability =>
      simp only [filterMap_cons, hlookup]
      exact congrArg (vulnerability :: ·) (ih _)

theorem snd_shareOut (records : Table Text (Vulnerability β)) (purl : Text) (ids : List Text)
    (failed : List FailedFetch) :
    (shareOut records purl ids failed).2.map (·.id) = failed.map (·.id) ∧
      (∀ purl' name', Noted failed purl' name' →
        Noted (shareOut records purl ids failed).2 purl' name') ∧
      ∀ name ∈ ids, records.lookup name = none → name ∈ failed.map (·.id) →
        Noted (shareOut records purl ids failed).2 purl name := by
  induction ids generalizing failed with
  | nil => exact ⟨rfl, fun _ _ h => h, fun _ h => by cases h⟩
  | cons first ids ih =>
    rw [shareOut]
    cases hlookup : records.lookup first with
    | some vulnerability =>
      obtain ⟨hids, hkeep, hnew⟩ := ih failed
      refine ⟨hids, hkeep, fun name hname hnone hfailed => ?_⟩
      rcases mem_cons.mp hname with rfl | hname
      · rw [hlookup] at hnone
        cases hnone
      · exact hnew name hname hnone hfailed
    | none =>
      obtain ⟨hids, hkeep, hnew⟩ := ih (notePurl purl first failed)
      rw [map_id_notePurl] at hids hnew
      refine ⟨hids, fun _ _ h => hkeep _ _ h.notePurl, fun name hname hnone hfailed => ?_⟩
      rcases mem_cons.mp hname with rfl | hname
      · exact hkeep _ _ (noted_notePurl hfailed)
      · exact hnew name hname hnone hfailed

theorem fst_shareOutAll (rows : List (Text × List Text)) (failed : List FailedFetch) :
    (shareOutAll records rows failed).1 =
      rows.map fun row => ⟨row.1, row.2.filterMap records.lookup⟩ := by
  induction rows generalizing failed with
  | nil => rfl
  | cons row rows ih =>
    rw [shareOutAll, map_cons, ← fst_shareOut, ← ih]

theorem snd_shareOutAll (rows : List (Text × List Text)) (failed : List FailedFetch) :
    (∀ purl name, Noted failed purl name → Noted (shareOutAll records rows failed).2 purl name) ∧
      ∀ row ∈ rows, ∀ name ∈ row.2, records.lookup name = none → name ∈ failed.map (·.id) →
        Noted (shareOutAll records rows failed).2 row.1 name := by
  induction rows generalizing failed with
  | nil => exact ⟨fun _ _ h => h, fun _ h => by cases h⟩
  | cons first rows ih =>
    obtain ⟨hids, hkeep, hnew⟩ := snd_shareOut records first.1 first.2 failed
    obtain ⟨hkeep', hnew'⟩ := ih (shareOut records first.1 first.2 failed).2
    rw [shareOutAll]
    refine ⟨fun _ _ h => hkeep' _ _ (hkeep _ _ h), fun row hrow name hname hnone hfailed => ?_⟩
    rcases mem_cons.mp hrow with rfl | hrow
    · exact hkeep' _ _ (hnew name hname hnone hfailed)
    · exact hnew' row hrow name hname hnone (hids ▸ hfailed)

/-- Every id of a row has its record in the result of the row, or the row is noted with its
failed fetch. -/
theorem fetchAll_eq (service : Service β) (purls : List Text) (perPurlIds : List (List Text)) :
    ∃ lookup : Text → Option (Vulnerability β),
      (∀ name vulnerability, lookup name = some vulnerability → vulnerability.id = name) ∧
      (fetchAll service purls perPurlIds).1 =
        (purls.zip perPurlIds).map (fun row => ⟨row.1, row.2.filterMap lookup⟩) ∧
      ∀ row ∈ purls.zip perPurlIds, ∀ name ∈ row.2,
        (lookup name).isSome = true ∨ Noted (fetchAll service purls perPurlIds).2 row.1 name := by
  rw [fetchAll]
  generalize hall : perPurlIds.flatten.foldl (fun ids name => Keyed.insertNew id name ids) [] =
    allIds
  have hgather := @lookup_gather β (fetchVulnerability service) (service.arrival allIds)
  generalize gather (fetchVulnerability service) (service.arrival allIds) = gathered at hgather ⊢
  refine ⟨gathered.1.lookup, fun name vulnerability hlookup => ?_, fst_shareOutAll _ _, ?_⟩
  · exact id_of_fetchVulnerability ((hgather name).1 vulnerability |>.mp hlookup).2
  intro row hrow name hname
  have hmem : name ∈ allIds := by
    have hids : name ∈ allIds.map id ↔ name ∈ [].map id ∨ name ∈ perPurlIds.flatten.map id := by
      rw [← hall]
      exact Keyed.mem_map_foldl_insertNew id
    simp only [map_id] at hids
    exact hids.mpr (.inr (mem_flatten.mpr ⟨row.2, (of_mem_zip hrow).2, hname⟩))
  have harrived : name ∈ service.arrival allIds := (service.arrival_perm allIds).mem_iff.mpr hmem
  cases hfetch : fetchVulnerability service name with
  | ok vulnerability =>
    have hlookup := ((hgather name).1 vulnerability).mpr ⟨harrived, hfetch⟩
    exact .inl (Option.isSome_iff_exists.mpr ⟨vulnerability, hlookup⟩)
  | error e =>
    have herror := ((hgather name).2 e).mpr ⟨harrived, hfetch⟩
    have hnone : gathered.1.lookup name = none := by
      rw [Option.eq_none_iff_forall_ne_some]
      intro vulnerability hlookup
      rw [((hgather name).1 vulnerability).mp hlookup |>.2] at hfetch
      cases hfetch
    refine .inr ((snd_shareOutAll _ _).2 row hrow name hname hnone ?_)
    refine mem_map.mpr ⟨⟨name, [], e⟩, mem_filterMap.mpr ⟨name, hmem, ?_⟩, rfl⟩
    rw [herror, Option.map_some]

end ShareOut

/-! ## The call -/

section Call

variable (service : Service β) (purls : List Text)

/-- The pages of the query for a package URL in the first rounds, one per token that it was given
before. -/
def pagesOf (rounds i : ℕ) : List (Page β) :=
  ((allPages (chunk purls (i / batchChunkSize)) (service.batch (i / batchChunkSize)) rounds).filter
    (·.1 = i % batchChunkSize)).map Prod.snd

def requestsOf (i : ℕ) : List QueryRequest :=
  askedOf (collectBatchPages (chunk purls (i / batchChunkSize))
    (service.batch (i / batchChunkSize))).2 (i % batchChunkSize)

variable {service purls} {i rounds : ℕ} {collected : Collected}

theorem mem_pagesOf {page : Page β} : page ∈ pagesOf service purls rounds i ↔
    (i % batchChunkSize, page) ∈ allPages (chunk purls (i / batchChunkSize))
      (service.batch (i / batchChunkSize)) rounds := by
  simp only [pagesOf, mem_map, mem_filter, Prod.exists, decide_eq_true_eq]
  constructor
  · rintro ⟨_, _, ⟨hmem, rfl⟩, rfl⟩
    exact hmem
  · intro hmem
    exact ⟨_, page, ⟨hmem, rfl⟩, rfl⟩

theorem mem_ids_iff {name : Text} (h : (collectBatchPages (chunk purls (i / batchChunkSize))
    (service.batch (i / batchChunkSize))).1 = .ok collected) :
    name ∈ collected.ids (i % batchChunkSize) ↔
      ∃ rounds, ∃ page ∈ pagesOf service purls rounds i, name ∈ page.ids := by
  obtain ⟨last, htook, hall⟩ := took_of_collectBatchPages h
  have hempty : name ∉ Collected.empty.ids (i % batchChunkSize) := not_mem_nil
  rw [htook.mem_ids, or_iff_right hempty]
  simp only [mem_pagesOf]
  constructor
  · intro hnamed
    exact ⟨last, hnamed⟩
  · rintro ⟨rounds, page, hpage, hname⟩
    exact ⟨page, (hall rounds).subset hpage, hname⟩

theorem nodup_tokens (h : (collectBatchPages (chunk purls (i / batchChunkSize))
    (service.batch (i / batchChunkSize))).1 = .ok collected) (rounds : ℕ) :
    ((pagesOf service purls rounds i).filterMap Page.token).Nodup := by
  obtain ⟨last, htook, hall⟩ := took_of_collectBatchPages h
  have hnodup := htook.nodup (i % batchChunkSize) nodup_nil
  rw [htook.seen] at hnodup
  rw [pagesOf, filterMap_map]
  exact hnodup.sublist (((hall rounds).filter _).filterMap _)

theorem queryBatch_eq_ok {out : List (VulnResult β) × List FailedFetch}
    (h : queryBatch service purls = .ok out) :
    ∃ perPurlIds : List (List Text), perPurlIds.length = purls.length ∧
      fetchAll service purls perPurlIds = out ∧
      ∀ i < purls.length, ∃ collected,
        (collectBatchPages (chunk purls (i / batchChunkSize))
          (service.batch (i / batchChunkSize))).1 = .ok collected ∧
          perPurlIds[i]? = some (collected.ids (i % batchChunkSize)) := by
  obtain ⟨chunks, hchunks, h⟩ := bind_eq_ok h
  refine ⟨_, by simp, Except.ok.inj h, fun i hi => ?_⟩
  have hk : i / batchChunkSize < (purls.length + batchChunkSize - 1) / batchChunkSize := by
    rw [batchChunkSize]
    omega
  obtain ⟨collected, hcollected, hrun⟩ :=
    getElem?_of_mapM_eq_ok hchunks (getElem?_range hk)
  refine ⟨collected, hrun, ?_⟩
  rw [getElem?_map, getElem?_range hi, Option.map_some, getD_eq_getElem?_getD,
    hcollected, Option.getD_some]

theorem getD_chunk (purls : List Text) (i : ℕ) :
    (chunk purls (i / batchChunkSize)).getD (i % batchChunkSize) [] = purls.getD i [] := by
  have hlt : i % batchChunkSize < batchChunkSize := Nat.mod_lt _ (by decide)
  rw [chunk, getD_eq_getElem?_getD, getElem?_take_of_lt hlt, getElem?_drop,
    Nat.div_add_mod', getD_eq_getElem?_getD]

/-- Whatever the service answers, a call that succeeds gives every package URL its own result,
which holds each id named on a page of its query or notes it as failed, and no other id.  No query
is asked more pages than the limit, and one that is given a token twice fails the call. -/
theorem queryBatch_complete (service : Service β) (purls : List Text) :
    (∀ results failed, queryBatch service purls = .ok (results, failed) →
      results.map (·.purl) = purls ∧
      ∀ i result, results[i]? = some result →
        (∀ rounds, ∀ page ∈ pagesOf service purls rounds i, ∀ name ∈ page.ids,
          (∃ vulnerability ∈ result.vulnerabilities, vulnerability.id = name) ∨
            Noted failed result.purl name) ∧
        ∀ vulnerability ∈ result.vulnerabilities,
          ∃ rounds, ∃ page ∈ pagesOf service purls rounds i, vulnerability.id ∈ page.ids) ∧
    (∀ i, (requestsOf service purls i).length ≤ maxOsvPages ∧
      ∀ request ∈ requestsOf service purls i, request.purl = purls.getD i []) ∧
    ∀ i < purls.length, ∀ rounds, ¬((pagesOf service purls rounds i).filterMap Page.token).Nodup →
      ∃ e, queryBatch service purls = .error e := by
  refine ⟨fun results failed h => ?_, fun i => ⟨length_askedOf_le _ _ _, fun request hasked => ?_⟩,
    fun i hi rounds hrepeated => ?_⟩
  · obtain ⟨perPurlIds, hlength, hout, hids⟩ := queryBatch_eq_ok h
    obtain ⟨lookup, hlookup, hresults, hnoted⟩ := fetchAll_eq service purls perPurlIds
    simp only [hout] at hresults hnoted
    constructor
    · rw [hresults, map_map]
      exact map_fst_zip hlength.ge
    · intro i result hresult
      rw [hresults, getElem?_map, Option.map_eq_some_iff] at hresult
      obtain ⟨row, hrow, rfl⟩ := hresult
      obtain ⟨hpurl, hrowIds⟩ := getElem?_zip_eq_some.mp hrow
      obtain ⟨collected, hcollected, hget⟩ := hids i (List.getElem?_eq_some_iff.mp hpurl).1
      have hmem : ∀ name, name ∈ row.2 ↔
          ∃ rounds, ∃ page ∈ pagesOf service purls rounds i, name ∈ page.ids := by
        intro name
        rw [hrowIds, Option.some.injEq] at hget
        rw [hget]
        exact mem_ids_iff hcollected
      constructor
      · intro rounds page hpage name hname
        have hnamed := (hmem name).mpr ⟨rounds, page, hpage, hname⟩
        rcases hnoted row (mem_of_getElem? hrow) name hnamed with hsome | hnoted
        · obtain ⟨vulnerability, hfound⟩ := Option.isSome_iff_exists.mp hsome
          exact .inl ⟨vulnerability, mem_filterMap.mpr ⟨name, hnamed, hfound⟩,
            hlookup name vulnerability hfound⟩
        · exact .inr hnoted
      · intro vulnerability hvulnerability
        obtain ⟨name, hname, hfound⟩ := mem_filterMap.mp hvulnerability
        rw [hlookup name vulnerability hfound]
        exact (hmem name).mp hname
  · rw [purl_of_askedOf hasked, getD_chunk]
  · cases hcall : queryBatch service purls with
    | error e => exact ⟨e, rfl⟩
    | ok out =>
      obtain ⟨_, _, _, hids⟩ := queryBatch_eq_ok hcall
      obtain ⟨collected, hcollected, -⟩ := hids i hi
      exact absurd (nodup_tokens hcollected rounds) hrepeated

end Call

section Example

/-- A service that names one record on each of two pages and can deliver the first only. -/
def pagedService : Service Unit where
  batch _ _ queries := .ok (queries.map fun query =>
    if query.pageToken = none then ⟨some [⟨"CVE-1", ()⟩], some "more"⟩
    else ⟨some [⟨"CVE-2", ()⟩], none⟩)
  record id := if id = "CVE-1" then .ok ⟨id, ()⟩ else .error (.request "gone")
  arrival := id
  arrival_perm _ := .refl _

/-- The record of the second page is not lost: its fetch is noted as failed. -/
theorem queryBatch_complete_paged :
    (pagesOf pagedService ["pkg:maven/a"] 2 0).map Page.ids =
        [["CVE-1".toList], ["CVE-2".toList]] ∧
      ∃ failed, queryBatch pagedService ["pkg:maven/a"] =
          .ok ([⟨"pkg:maven/a", [⟨"CVE-1", ()⟩]⟩], failed) ∧
        Noted failed "pkg:maven/a" "CVE-2" := by
  have hcall : queryBatch pagedService ["pkg:maven/a"] = .ok
      ([⟨"pkg:maven/a", [⟨"CVE-1", ()⟩]⟩],
        [⟨"CVE-2", ["pkg:maven/a"], .request "gone"⟩]) := by decide +kernel
  refine ⟨by decide +kernel, _, hcall, ?_⟩
  obtain ⟨-, hresults⟩ := (queryBatch_complete pagedService ["pkg:maven/a"]).1 _ _ hcall
  have hpage : ⟨some [⟨"CVE-2", ()⟩], none⟩ ∈
      pagesOf pagedService ["pkg:maven/a"] 2 0 := by decide +kernel
  rcases (hresults 0 _ rfl).1 2 _ hpage _ mem_cons_self with ⟨v, hv, hid⟩ | hnoted
  · cases mem_singleton.mp hv
    cases hid
  · exact hnoted

end Example

end Raeva.Vuln
