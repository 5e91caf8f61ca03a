import Raeva.Library.Attempt
import Raeva.Library.Keyed
import Raeva.Maven.Text

/-!
# Pages of vulnerability ids

A query of the vulnerability service is answered in pages, and a batch asks the
next page of every query that has one, until none has.  The loop keeps the ids
named for each query and the page tokens it was given: a token given twice and a
query of too many pages end it with an error.
-/

namespace Raeva.Vuln

open List

variable {β : Type}

def maxOsvPages : ℕ := 100

inductive VulnError where
  /-- The request failed, or its answer could not be read. -/
  | request (cause : Text)
  | invalidResponse (message : Text)
  deriving DecidableEq

/-- A record by its id; no function here reads the rest of it. -/
structure Vulnerability (β : Type) where
  id : Text
  rest : β
  deriving DecidableEq

structure Page (β : Type) where
  vulns : Option (List (Vulnerability β))
  nextPageToken : Option Text
  deriving DecidableEq

def Page.ids (page : Page β) : List Text :=
  (page.vulns.getD []).map (·.id)

def Page.token (page : Page β) : Option Text :=
  page.nextPageToken.filter (!·.isEmpty)

structure QueryRequest where
  purl : Text
  pageToken : Option Text
  deriving DecidableEq

def isPlausibleVulnerabilityId (id : Text) : Bool :=
  decide (Text.byteLen id ≤ 128) && id.head?.any Char.isAlphanum &&
    id.all fun c => c.isAlphanum || c ∈ ['-', '_', '.', ':', '+']

/-- What the service answers to the queries of a chunk, round by round. -/
abbrev Answers (β : Type) : Type :=
  ℕ → List QueryRequest → Except VulnError (List (Page β))

structure Collected where
  seenTokens : ℕ → List Text
  ids : ℕ → List Text

def Collected.empty : Collected :=
  ⟨fun _ => [], fun _ => []⟩

def takeIds (idx : ℕ) : List Text → List Text → Except VulnError (List Text)
  | [], ids => .ok ids
  | name :: names, ids =>
    if isPlausibleVulnerabilityId name then takeIds idx names (Keyed.insertNew id name ids)
    else .error (.invalidResponse
      ("OSV batch query returned a vulnerability id that is not a valid OSV id for query " ++
        Text.ofNat idx ++ " (" ++ Text.ofNat (Text.byteLen name) ++ " bytes)"))

def takePage (idx : ℕ) (page : Page β) (collected : Collected) :
    Except VulnError (Collected × Option Text) := do
  let ids ← takeIds idx page.ids (collected.ids idx)
  let collected := { collected with ids := Function.update collected.ids idx ids }
  match page.token with
  | none => .ok (collected, none)
  | some token =>
    let seen := collected.seenTokens idx
    if seen.contains token then
      .error (.invalidResponse
        ("OSV batch query returned a repeated page token for query " ++ Text.ofNat idx))
    else
      .ok ({ collected with
        seenTokens := Function.update collected.seenTokens idx (seen ++ [token]) }, some token)

def takePages : List (ℕ × Page β) → Collected →
    Except VulnError (Collected × List (ℕ × Option Text))
  | [], collected => .ok (collected, [])
  | (idx, page) :: rest, collected => do
      let (collected, token) ← takePage idx page collected
      let (collected, pending) ← takePages rest collected
      .ok (collected, (token.map fun token => (idx, some token)).toList ++ pending)

def takeAnswer (pending : List (ℕ × Option Text)) (answer : Except VulnError (List (Page β)))
    (collected : Collected) : Except VulnError (Collected × List (ℕ × Option Text)) := do
  let results ← answer
  if results.length ≠ pending.length then
    .error (.invalidResponse ("expected " ++ Text.ofNat pending.length ++
      " results, got " ++ Text.ofNat results.length ++
      " (partial response, not caching)"))
  else takePages ((pending.map Prod.fst).zip results) collected

def request (purls : List Text) (query : ℕ × Option Text) : QueryRequest :=
  ⟨purls.getD query.1 [], query.2⟩

def asked (purls : List Text) (pending : List (ℕ × Option Text)) : List (ℕ × QueryRequest) :=
  pending.map fun query => (query.1, request purls query)

/-- The rounds of a chunk from one on, with the queries asked in each. -/
def collectRounds (purls : List Text) (answers : Answers β) :
    ℕ → ℕ → List (ℕ × Option Text) → Collected →
      Option (Except VulnError Collected × List (List (ℕ × QueryRequest)))
  | 0, _, _, _ => none
  | fuel + 1, round, pending, collected =>
    if pending.isEmpty then some (.ok collected, [])
    else
      match pending.find? fun query =>
          decide (maxOsvPages ≤ (collected.seenTokens query.1).length) with
      | some (idx, _) =>
        some (.error (.invalidResponse ("OSV batch query exceeded the " ++
          Text.ofNat maxOsvPages ++ "-page limit for query " ++ Text.ofNat idx)), [])
      | none =>
        match takeAnswer pending (answers round (pending.map (request purls))) collected with
        | .error e => some (.error e, [asked purls pending])
        | .ok (collected, next) =>
          (collectRounds purls answers fuel (round + 1) next collected).map
            fun (result, log) => (result, asked purls pending :: log)

/-! ## What pages add -/

/-- The queries with a next page, by the token that asks for it. -/
def continued (pages : List (ℕ × Page β)) : List (ℕ × Option Text) :=
  pages.filterMap fun page => page.2.token.map fun token => (page.1, some token)

def tokensOf (pages : List (ℕ × Page β)) (i : ℕ) : List Text :=
  (pages.filter (·.1 = i)).filterMap (·.2.token)

/-- `collected'` is `collected` with what `pages` name, and no token was given twice. -/
structure Took (pages : List (ℕ × Page β)) (collected collected' : Collected) : Prop where
  mem_ids : ∀ i name, name ∈ collected'.ids i ↔
    name ∈ collected.ids i ∨ ∃ page, (i, page) ∈ pages ∧ name ∈ page.ids
  seen : ∀ i, collected'.seenTokens i = collected.seenTokens i ++ tokensOf pages i
  nodup : ∀ i, (collected.seenTokens i).Nodup → (collected'.seenTokens i).Nodup

section Took

variable {pages pages' : List (ℕ × Page β)} {collected collected' collected'' : Collected}

theorem tokensOf_append (pages pages' : List (ℕ × Page β)) (i : ℕ) :
    tokensOf (pages ++ pages') i = tokensOf pages i ++ tokensOf pages' i := by
  rw [tokensOf, filter_append, filterMap_append, tokensOf, tokensOf]

theorem mem_tokensOf {i : ℕ} {token : Text} :
    token ∈ tokensOf pages i ↔ ∃ page, (i, page) ∈ pages ∧ page.token = some token := by
  simp only [tokensOf, mem_filterMap, mem_filter, Prod.exists, decide_eq_true_eq]
  constructor
  · rintro ⟨_, page, ⟨hmem, rfl⟩, htoken⟩
    exact ⟨page, hmem, htoken⟩
  · rintro ⟨page, hmem, htoken⟩
    exact ⟨i, page, ⟨hmem, rfl⟩, htoken⟩

theorem Took.nil : Took ([] : List (ℕ × Page β)) collected collected where
  mem_ids := by simp
  seen := by simp [tokensOf]
  nodup _ h := h

theorem Took.append (h : Took pages collected collected')
    (h' : Took pages' collected' collected'') : Took (pages ++ pages') collected collected'' where
  mem_ids i name := by
    rw [h'.mem_ids, h.mem_ids, or_assoc]
    simp only [mem_append, or_and_right, exists_or]
  seen i := by rw [h'.seen, h.seen, tokensOf_append, append_assoc]
  nodup i hnodup := h'.nodup i (h.nodup i hnodup)

theorem Took.length_lt (h : Took pages collected collected') {i : ℕ} {page : Page β} {token : Text}
    (hpage : (i, page) ∈ pages) (htoken : page.token = some token) :
    (collected.seenTokens i).length < (collected'.seenTokens i).length := by
  have hmem : token ∈ tokensOf pages i := mem_tokensOf.mpr ⟨page, hpage, htoken⟩
  rw [h.seen, length_append]
  have := length_pos_of_mem hmem
  omega

end Took

/-! ## One answer -/

section Answer

variable {idx : ℕ} {page : Page β} {pages : List (ℕ × Page β)} {collected collected' : Collected}
  {token : Option Text} {pending next : List (ℕ × Option Text)}
  {answer : Except VulnError (List (Page β))}

theorem mem_of_takeIds {names ids ids' : List Text} (h : takeIds idx names ids = .ok ids')
    {name : Text} : name ∈ ids' ↔ name ∈ ids ∨ name ∈ names := by
  have heq : ids' = names.foldl (fun ids name => Keyed.insertNew id name ids) ids := by
    induction names generalizing ids with
    | nil =>
      cases h
      rfl
    | cons name names ih =>
      rw [takeIds] at h
      split at h
      · exact ih h
      · cases h
  have hmem : name ∈ ids'.map id ↔ name ∈ ids.map id ∨ name ∈ names.map id := by
    rw [heq]
    exact Keyed.mem_map_foldl_insertNew id
  simpa only [map_id] using hmem

theorem took_of_takePage (h : takePage idx page collected = .ok (collected', token)) :
    token = page.token ∧ Took [(idx, page)] collected collected' := by
  obtain ⟨ids, hids, h⟩ := bind_eq_ok h
  have hmem : ∀ i name, name ∈ Function.update collected.ids idx ids i ↔
      name ∈ collected.ids i ∨ ∃ p, (i, p) ∈ [(idx, page)] ∧ name ∈ p.ids := by
    intro i name
    by_cases hi : i = idx
    · subst hi
      simp [mem_of_takeIds hids]
    · simp [hi]
  have htokens : ∀ i, tokensOf [(idx, page)] i = if idx = i then page.token.toList else [] := by
    intro i
    by_cases hi : idx = i
    · cases htoken : page.token <;> simp [tokensOf, hi, htoken]
    · simp [tokensOf, hi]
  cases htoken : page.token with
  | none =>
    simp only [htoken] at h
    cases h
    refine ⟨rfl, hmem, fun i => ?_, fun _ hnodup => hnodup⟩
    simp [htokens, htoken]
  | some t =>
    simp only [htoken] at h
    split at h
    · cases h
    next hseen =>
    cases h
    have hnew : t ∉ collected.seenTokens idx := fun hmem => hseen (contains_iff_mem.mpr hmem)
    have hupdate : ∀ i, Function.update collected.seenTokens idx
        (collected.seenTokens idx ++ [t]) i =
          collected.seenTokens i ++ tokensOf [(idx, page)] i := by
      intro i
      rw [htokens, htoken]
      by_cases hi : i = idx
      · subst hi
        simp
      · simp [hi, Ne.symm hi]
    refine ⟨rfl, hmem, hupdate, fun i hnodup => ?_⟩
    by_cases hi : i = idx
    · subst hi
      simpa using nodup_append.mpr ⟨hnodup, nodup_singleton t, by
        rintro a ha b hb rfl
        exact hnew (mem_singleton.mp hb ▸ ha)⟩
    · simpa [hi] using hnodup

theorem took_of_takePages (h : takePages pages collected = .ok (collected', next)) :
    Took pages collected collected' ∧ next = continued pages := by
  induction pages generalizing collected next with
  | nil =>
    cases h
    exact ⟨.nil, rfl⟩
  | cons page pages ih =>
    obtain ⟨idx, page⟩ := page
    obtain ⟨⟨between, token⟩, hpage, h⟩ := bind_eq_ok h
    obtain ⟨⟨last, rest⟩, hpages, h⟩ := bind_eq_ok h
    cases h
    obtain ⟨rfl, htook⟩ := took_of_takePage hpage
    obtain ⟨htook', rfl⟩ := ih hpages
    refine ⟨htook.append htook', ?_⟩
    cases htoken : page.token <;> simp [continued, htoken]

theorem map_fst_continued (pages : List (ℕ × Page β)) :
    (continued pages).map Prod.fst = (pages.filter (·.2.token.isSome)).map Prod.fst := by
  induction pages with
  | nil => rfl
  | cons page pages ih =>
    rw [continued] at ih ⊢
    cases htoken : page.2.token <;> simp [htoken, ih]

theorem took_of_takeAnswer (h : takeAnswer pending answer collected = .ok (collected', next)) :
    ∃ results, answer = .ok results ∧ results.length = pending.length ∧
      Took ((pending.map Prod.fst).zip results) collected collected' ∧
      next = continued ((pending.map Prod.fst).zip results) := by
  obtain ⟨results, hresults, h⟩ := bind_eq_ok h
  split at h
  · cases h
  next hlength => exact ⟨results, hresults, of_not_not hlength, took_of_takePages h⟩

end Answer

/-! ## All rounds -/

section Rounds

variable (purls : List Text) (answers : Answers β)

/-- The pages that the service gives to the queries of a round. -/
def givenPages (round : ℕ) (queries : List (ℕ × Option Text)) : List (ℕ × Page β) :=
  (queries.map Prod.fst).zip ((answers round (queries.map (request purls))).toOption.getD [])

/-- The queries of a round: at first all, then those whose last page came with a token. -/
def openQueries : ℕ → List (ℕ × Option Text)
  | 0 => (List.range purls.length).map fun i => (i, none)
  | round + 1 => continued (givenPages purls answers round (openQueries round))

/-- The pages of the rounds up to one, each with its query. -/
def allPages (rounds : ℕ) : List (ℕ × Page β) :=
  (List.range rounds).flatMap fun round =>
    givenPages purls answers round (openQueries purls answers round)

variable {purls answers} {fuel round : ℕ} {pending next : List (ℕ × Option Text)}
  {collected collected' : Collected} {result : Except VulnError Collected}
  {log : List (List (ℕ × QueryRequest))} {answer : Except VulnError (List (Page β))}

theorem nodup_openQueries (purls : List Text) (answers : Answers β) (round : ℕ) :
    ((openQueries purls answers round).map Prod.fst).Nodup := by
  induction round with
  | zero =>
    rw [openQueries, map_map]
    exact nodup_range.map fun _ _ h => h
  | succ round ih =>
    rw [openQueries, map_fst_continued]
    refine (filter_sublist.map Prod.fst).nodup ?_
    rw [givenPages, zip_eq_zip_take_min, map_fst_zip (by simp)]
    exact (take_sublist _ _).nodup ih

theorem openQueries_of_nil (h : openQueries purls answers round = []) (n : ℕ) :
    openQueries purls answers (round + n) = [] := by
  induction n with
  | zero => exact h
  | succ n ih =>
    rw [← Nat.add_assoc, openQueries, ih]
    rfl

theorem allPages_succ (rounds : ℕ) : allPages purls answers (rounds + 1) =
    allPages purls answers rounds ++
      givenPages purls answers rounds (openQueries purls answers rounds) := by
  rw [allPages, range_succ, flatMap_append, flatMap_singleton, allPages]

theorem allPages_sublist_add (purls : List Text) (answers : Answers β) (rounds n : ℕ) :
    allPages purls answers rounds <+ allPages purls answers (rounds + n) := by
  induction n with
  | zero => exact .refl _
  | succ n ih =>
    rw [← Nat.add_assoc, allPages_succ]
    exact ih.trans (sublist_append_left _ _)

theorem allPages_of_nil (h : openQueries purls answers round = []) (n : ℕ) :
    allPages purls answers (round + n) = allPages purls answers round := by
  induction n with
  | zero => rfl
  | succ n ih =>
    rw [← Nat.add_assoc, allPages_succ, openQueries_of_nil h, ih]
    exact append_nil _

theorem took_givenPages
    (h : takeAnswer pending (answers round (pending.map (request purls))) collected =
      .ok (collected', next)) :
    Took (givenPages purls answers round pending) collected collected' ∧
      next = continued (givenPages purls answers round pending) := by
  obtain ⟨results, hanswer, -, htook⟩ := took_of_takeAnswer h
  have hgiven : givenPages purls answers round pending = (pending.map Prod.fst).zip results := by
    rw [givenPages, hanswer]
    rfl
  rwa [hgiven]

theorem Took.length_seenTokens (h : Took (givenPages purls answers round pending) collected
    collected') {query : ℕ × Option Text}
    (hquery : query ∈ continued (givenPages purls answers round pending)) :
    query.1 ∈ pending.map Prod.fst ∧
      (collected.seenTokens query.1).length < (collected'.seenTokens query.1).length := by
  obtain ⟨⟨idx, page⟩, hpage, hmap⟩ := mem_filterMap.mp hquery
  obtain ⟨token, htoken, rfl⟩ := Option.map_eq_some_iff.mp hmap
  exact ⟨(of_mem_zip hpage).1, h.length_lt hpage htoken⟩

theorem collectRounds_isSome (hfuel : 0 < fuel)
    (h : ∀ query ∈ pending, maxOsvPages < (collected.seenTokens query.1).length + fuel) :
    (collectRounds purls answers fuel round pending collected).isSome = true := by
  induction fuel generalizing round pending collected with
  | zero => omega
  | succ fuel ih =>
    rw [collectRounds]
    split
    · rfl
    next hpending =>
    split
    · rfl
    next hlimit =>
    split
    · rfl
    next between next htaken =>
    rw [Option.isSome_map]
    apply ih
    · obtain ⟨query, hquery⟩ := exists_mem_of_ne_nil pending (by simpa using hpending)
      have hseen := find?_eq_none.mp hlimit query hquery
      have := h query hquery
      simp only [decide_eq_true_eq, not_le] at hseen
      omega
    · intro query hquery
      obtain ⟨htook, rfl⟩ := took_givenPages htaken
      obtain ⟨hmem, hlt⟩ := htook.length_seenTokens hquery
      obtain ⟨before, hbefore, heq⟩ := mem_map.mp hmem
      have := h before hbefore
      rw [heq] at this
      omega

/-- How the rounds from a state on end: at once, with an answer that is not taken, or after the
rounds that follow one. -/
theorem collectRounds_cases
    (h : collectRounds purls answers (fuel + 1) round pending collected = some (result, log)) :
    (log = [] ∧ (result = .ok collected ∧ pending = [] ∨ ∃ e, result = .error e)) ∨
      (pending ≠ [] ∧ ∀ query ∈ pending, (collected.seenTokens query.1).length < maxOsvPages) ∧
        ∃ rest, log = asked purls pending :: rest ∧
          ((rest = [] ∧ ∃ e, result = .error e) ∨
            ∃ collected', Took (givenPages purls answers round pending) collected collected' ∧
              collectRounds purls answers fuel (round + 1)
                (continued (givenPages purls answers round pending)) collected' =
                  some (result, rest)) := by
  rw [collectRounds] at h
  split at h
  next hpending =>
    cases h
    exact .inl ⟨rfl, .inl ⟨rfl, isEmpty_iff.mp hpending⟩⟩
  next hpending =>
  split at h
  · cases h
    exact .inl ⟨rfl, .inr ⟨_, rfl⟩⟩
  next hlimit =>
  refine .inr ⟨⟨fun hnil => hpending (isEmpty_iff.mpr hnil), fun query hquery => ?_⟩, ?_⟩
  · have := find?_eq_none.mp hlimit query hquery
    simpa using this
  split at h
  · cases h
    exact ⟨[], rfl, .inl ⟨rfl, _, rfl⟩⟩
  next between next htaken =>
    obtain ⟨⟨result', rest⟩, hrest, heq⟩ := Option.map_eq_some_iff.mp h
    cases heq
    obtain ⟨htook, rfl⟩ := took_givenPages htaken
    exact ⟨rest, rfl, .inr ⟨between, htook, hrest⟩⟩

/-- Rounds that end well have taken the pages of every query to its last one. -/
theorem took_of_collectRounds
    (h : collectRounds purls answers fuel round (openQueries purls answers round) collected =
      some (.ok collected', log)) (htook : Took (allPages purls answers round) .empty collected) :
    ∃ last, openQueries purls answers last = [] ∧
      Took (allPages purls answers last) .empty collected' := by
  induction fuel generalizing round collected log with
  | zero => cases h
  | succ fuel ih =>
    rcases collectRounds_cases h with ⟨-, ⟨hresult, hnil⟩ | ⟨e, he⟩⟩ | ⟨-, rest, -, hrest⟩
    · cases hresult
      exact ⟨round, hnil, htook⟩
    · cases he
    rcases hrest with ⟨-, e, he⟩ | ⟨between, htaken, hrest⟩
    · cases he
    · refine ih hrest ?_
      rw [allPages_succ]
      exact htook.append htaken

/-- The queries asked are those of the first rounds, and the rounds no more than the limit. -/
theorem log_of_collectRounds
    (h : collectRounds purls answers fuel round (openQueries purls answers round) collected =
      some (result, log))
    (hseen : ∀ query ∈ openQueries purls answers round,
      round ≤ (collected.seenTokens query.1).length) :
    (log = [] ∨ round + log.length ≤ maxOsvPages) ∧
      ∀ queries ∈ log, ∃ r, queries = asked purls (openQueries purls answers r) := by
  induction fuel generalizing round collected log with
  | zero => cases h
  | succ fuel ih =>
    rcases collectRounds_cases h with ⟨rfl, -⟩ | ⟨⟨hne, hlimit⟩, rest, rfl, hrest⟩
    · exact ⟨.inl rfl, fun _ h => absurd h not_mem_nil⟩
    have hround : round < maxOsvPages := by
      obtain ⟨query, hquery⟩ := exists_mem_of_ne_nil _ hne
      exact (hseen query hquery).trans_lt (hlimit query hquery)
    have hlater : (rest = [] ∨ round + 1 + rest.length ≤ maxOsvPages) ∧
        ∀ queries ∈ rest, ∃ r, queries = asked purls (openQueries purls answers r) := by
      rcases hrest with ⟨rfl, -⟩ | ⟨between, htook, hrest⟩
      · exact ⟨.inl rfl, fun _ h => absurd h not_mem_nil⟩
      refine ih hrest fun query hquery => ?_
      obtain ⟨hmem, hlt⟩ := htook.length_seenTokens hquery
      obtain ⟨before, hbefore, heq⟩ := mem_map.mp hmem
      have hle := hseen before hbefore
      rw [heq] at hle
      omega
    obtain ⟨hlength, hasked⟩ := hlater
    refine ⟨.inr ?_, forall_mem_cons.mpr ⟨⟨round, rfl⟩, hasked⟩⟩
    rw [length_cons]
    rcases hlength with rfl | hlength
    · exact hround
    · omega

end Rounds

def collectBatchPages (purls : List Text) (answers : Answers β) :
    Except VulnError Collected × List (List (ℕ × QueryRequest)) :=
  (collectRounds purls answers (maxOsvPages + 1) 0
    ((List.range purls.length).map fun i => (i, none)) .empty).get (by
      apply collectRounds_isSome (Nat.succ_pos _)
      intro query _
      exact Nat.lt_add_left _ (Nat.lt_succ_self _))

section Chunk

variable {purls : List Text} {answers : Answers β} {collected : Collected} {i : ℕ}

theorem collectRounds_eq_collectBatchPages (purls : List Text) (answers : Answers β) :
    collectRounds purls answers (maxOsvPages + 1) 0 (openQueries purls answers 0) .empty =
      some ((collectBatchPages purls answers).1, (collectBatchPages purls answers).2) :=
  (Option.some_get _).symm

/-- A chunk that succeeds has taken all pages, in however many rounds they are looked for. -/
theorem took_of_collectBatchPages (h : (collectBatchPages purls answers).1 = .ok collected) :
    ∃ last, Took (allPages purls answers last) .empty collected ∧
      ∀ rounds, allPages purls answers rounds <+ allPages purls answers last := by
  have hrun := collectRounds_eq_collectBatchPages purls answers
  rw [h] at hrun
  obtain ⟨last, hnil, htook⟩ := took_of_collectRounds hrun .nil
  refine ⟨last, htook, fun rounds => ?_⟩
  have hsublist := allPages_sublist_add purls answers rounds last
  rwa [Nat.add_comm, allPages_of_nil hnil] at hsublist

def askedOf (log : List (List (ℕ × QueryRequest))) (i : ℕ) : List QueryRequest :=
  (log.flatten.filter (·.1 = i)).map Prod.snd

theorem length_askedOf_le (purls : List Text) (answers : Answers β) (i : ℕ) :
    (askedOf (collectBatchPages purls answers).2 i).length ≤ maxOsvPages := by
  have hlog := log_of_collectRounds (collectRounds_eq_collectBatchPages purls answers)
    fun _ _ => Nat.zero_le _
  generalize (collectBatchPages purls answers).2 = log at hlog
  obtain ⟨hlength, hlog⟩ := hlog
  have honce : (askedOf log i).length ≤ log.length := by
    clear hlength
    induction log with
    | nil => exact Nat.le_refl 0
    | cons queries log ih =>
      obtain ⟨⟨r, rfl⟩, hrest⟩ := forall_mem_cons.mp hlog
      have hcount := nodup_iff_count_le_one.mp (nodup_openQueries purls answers r) i
      rw [List.count, countP_map, countP_eq_length_filter] at hcount
      have hrest := ih hrest
      rw [askedOf, length_map] at hrest ⊢
      rw [flatten_cons, filter_append, length_append, length_cons, asked, filter_map, length_map]
      refine (Nat.add_le_add hcount hrest).trans (Nat.add_comm 1 _).le
  rcases hlength with rfl | hlength
  · exact Nat.zero_le _
  · exact honce.trans (by simpa using hlength)

theorem purl_of_askedOf {request : QueryRequest}
    (h : request ∈ askedOf (collectBatchPages purls answers).2 i) :
    request.purl = purls.getD i [] := by
  obtain ⟨⟨i, request⟩, hmem, rfl⟩ := mem_map.mp h
  obtain ⟨hmem, hi⟩ := mem_filter.mp hmem
  obtain ⟨queries, hqueries, hmem⟩ := mem_flatten.mp hmem
  obtain ⟨r, rfl⟩ := (log_of_collectRounds (collectRounds_eq_collectBatchPages purls answers)
    fun _ _ => Nat.zero_le _).2 queries hqueries
  obtain ⟨query, -, heq⟩ := mem_map.mp hmem
  cases heq
  exact congrArg (purls.getD · []) (of_decide_eq_true hi)

end Chunk

end Raeva.Vuln
