import Raeva.Library.Checks
import Raeva.Repo.Url

/-!
# Security settings

The `[security]` table of `rv-config/src/config.rs` and its merge.  A project's
`raeva.toml` arrives with a cloned repository, so what it sets can only narrow
what the user's `config.toml` allows.
-/

namespace Raeva.Config

open List

structure SecurityConfig where
  allowEnvSubstitution : List Text
  allowTransitiveRepositories : Bool
  transitiveRepositoryAllowlist : List Text
  deriving DecidableEq

/-- The table as it is written, where a key may be left out. -/
structure SecurityConfigToml where
  allowEnvSubstitution : Option (List Text)
  allowTransitiveRepositories : Option Bool
  transitiveRepositoryAllowlist : Option (List Text)
  deriving DecidableEq

inductive ConfigOrigin where
  | project
  | user
  deriving DecidableEq

structure InvalidSecurity where
  origin : ConfigOrigin
  message : Text
  deriving DecidableEq

/-- ASCII letters, digits and `_`, not starting with a digit, at most 255 bytes. -/
def isEnvVarName (name : Text) : Bool :=
  Text.byteLen name ≤ 255 && match name with
    | [] => false
    | first :: rest => (first.isAlpha || first == '_') && rest.all fun c => c.isAlphanum || c == '_'

section Parser

variable [UrlParser]

def urlOriginMatches (allowed candidate : Url) : Bool :=
  UrlParser.sameOrigin allowed candidate && (candidate.path == allowed.path ||
      (Text.startsWith candidate.path allowed.path && (Text.endsWith allowed.path ['/'] ||
          Text.startsWith (candidate.path.drop allowed.path.length) ['/'])))

theorem urlOriginMatches_iff {allowed candidate : Url} :
    urlOriginMatches allowed candidate = true ↔ UrlParser.sameOrigin allowed candidate = true ∧
      ∃ rest, candidate.path = allowed.path ++ rest ∧
        (rest = [] ∨ Text.endsWith allowed.path ['/'] = true ∨
          Text.startsWith rest ['/'] = true) := by
  simp only [urlOriginMatches, Bool.and_eq_true, Bool.or_eq_true, beq_iff_eq]
  refine and_congr_right fun _ => ⟨?_, ?_⟩
  · rintro (hpath | ⟨hstart, hslash⟩)
    · exact ⟨[], by simp [hpath], .inl rfl⟩
    · obtain ⟨rest, hrest⟩ := isPrefixOf_iff_prefix.mp hstart
      rw [← hrest, drop_left] at hslash
      exact ⟨rest, hrest.symm, .inr hslash⟩
  · rintro ⟨rest, hpath, hrest⟩
    rcases hrest with rfl | hslash
    · exact .inl (by simpa using hpath)
    refine .inr ⟨?_, ?_⟩
    · rw [hpath]
      exact isPrefixOf_iff_prefix.mpr ⟨rest, rfl⟩
    · rw [hpath, drop_left]
      exact hslash

theorem urlOriginMatches_trans {a b c : Url} (hab : urlOriginMatches a b = true)
    (hbc : urlOriginMatches b c = true) : urlOriginMatches a c = true := by
  rw [urlOriginMatches_iff] at hab hbc ⊢
  obtain ⟨horigin, rest, hb, hrest⟩ := hab
  obtain ⟨horigin', rest', hc, hrest'⟩ := hbc
  refine ⟨UrlParser.sameOrigin_trans horigin horigin', rest ++ rest', ?_, ?_⟩
  · rw [hc, hb, append_assoc]
  rcases hrest with rfl | hslash | hslash
  · rw [append_nil] at hb
    rw [nil_append, ← hb]
    exact hrest'
  · exact .inr (.inl hslash)
  · obtain ⟨after, hafter⟩ := isPrefixOf_iff_prefix.mp hslash
    refine .inr (.inr ?_)
    rw [← hafter, append_assoc]
    exact isPrefixOf_iff_prefix.mpr ⟨after ++ rest', rfl⟩

def parseUrlOrigin (raw : Text) : Option Url :=
  (UrlParser.parse raw).filter fun url => url.isHttp && url.hostStr.isSome

namespace SecurityConfig

def allowsTransitiveRepoUrl (security : SecurityConfig) (url : Text) : Bool :=
  match parseUrlOrigin url with
  | none => false
  | some candidate =>
    security.allowTransitiveRepositories ||
      (security.transitiveRepositoryAllowlist.filterMap parseUrlOrigin).any
        (urlOriginMatches · candidate)

def validateAllowlist (security : SecurityConfig) : Except Text Unit := do
  security.allowEnvSubstitution.zipIdx.forM fun (name, index) =>
    refuseIf (!isEnvVarName name)
      ("allow_env_substitution entry " ++ Text.ofNat (index + 1) ++
        (" must be an environment variable name made of ASCII letters, digits and '_', not " ++
          "starting with a digit").toList)
  security.transitiveRepositoryAllowlist.zipIdx.forM fun (entry, index) =>
    refuseIf (parseUrlOrigin entry).isNone
      ("transitive_repository_allowlist entry " ++ Text.ofNat (index + 1) ++
        " must be an HTTP(S) URL: " ++ UrlParser.redactUrl entry)

def ofToml (table : Option SecurityConfigToml) : SecurityConfig where
  allowEnvSubstitution := (table.bind (·.allowEnvSubstitution)).getD []
  allowTransitiveRepositories := (table.bind (·.allowTransitiveRepositories)).getD false
  transitiveRepositoryAllowlist := (table.bind (·.transitiveRepositoryAllowlist)).getD []

/-- What the project's list of names leaves of the user's, with the keys that
asked for more. -/
def mergeNames (user merged : SecurityConfig) (names : Option (List Text)) :
    SecurityConfig × List Text :=
  match names with
  | none => (merged, [])
  | some names =>
    let (kept, dropped) := names.partition (user.allowEnvSubstitution.elem ·)
    ({ merged with allowEnvSubstitution := kept },
      if dropped.isEmpty then [] else ["allow_env_substitution"])

def mergeFlag (user merged : SecurityConfig) (allow : Option Bool) : SecurityConfig × List Text :=
  match allow with
  | none => (merged, [])
  | some allow =>
    ({ merged with allowTransitiveRepositories := allow && user.allowTransitiveRepositories },
      if allow && !user.allowTransitiveRepositories then ["allow_transitive_repositories"]
      else [])

def mergeEntries (user merged : SecurityConfig) (entries : Option (List Text)) :
    Except InvalidSecurity (SecurityConfig × List Text) :=
  match entries with
  | none => .ok (merged, [])
  | some entries => do
      (validateAllowlist {
        allowEnvSubstitution := []
        allowTransitiveRepositories := false
        transitiveRepositoryAllowlist := entries }).mapError fun message => ⟨.project, message⟩
      let (kept, dropped) := entries.partition user.allowsTransitiveRepoUrl
      .ok ({ merged with transitiveRepositoryAllowlist := kept },
        if dropped.isEmpty then [] else ["transitive_repository_allowlist"])

end SecurityConfig

/-- The merged policy and the project's keys that asked for more than the user
allows. -/
def mergeSecurity (project user : Option SecurityConfigToml) :
    Except InvalidSecurity (SecurityConfig × List Text) := do
  let user := SecurityConfig.ofToml user
  user.validateAllowlist.mapError fun message => ⟨.user, message⟩
  match project with
  | none => .ok (user, [])
  | some project => do
      let (merged, names) := user.mergeNames user project.allowEnvSubstitution
      let (merged, flag) := user.mergeFlag merged project.allowTransitiveRepositories
      let (merged, entries) ← user.mergeEntries merged project.transitiveRepositoryAllowlist
      .ok (merged, names ++ flag ++ entries)

/-! ## Narrowing -/

namespace SecurityConfig

def Narrows (merged user : SecurityConfig) : Prop :=
  ∀ url, merged.allowsTransitiveRepoUrl url = true → user.allowsTransitiveRepoUrl url = true

theorem allowsTransitiveRepoUrl_iff {security : SecurityConfig} {url : Text} :
    security.allowsTransitiveRepoUrl url = true ↔ ∃ candidate, parseUrlOrigin url = some candidate ∧
      (security.allowTransitiveRepositories = true ∨
        ∃ entry ∈ security.transitiveRepositoryAllowlist, ∃ allowed,
          parseUrlOrigin entry = some allowed ∧ urlOriginMatches allowed candidate = true) := by
  unfold allowsTransitiveRepoUrl
  cases parseUrlOrigin url with
  | none => simp
  | some candidate =>
    simp only [Bool.or_eq_true, any_eq_true, mem_filterMap, Option.some.injEq, exists_eq_left']
    refine or_congr_right ⟨?_, ?_⟩
    · rintro ⟨allowed, ⟨entry, hentry, hparse⟩, hmatches⟩
      exact ⟨entry, hentry, allowed, hparse, hmatches⟩
    · rintro ⟨entry, hentry, allowed, hparse, hmatches⟩
      exact ⟨allowed, ⟨entry, hentry, hparse⟩, hmatches⟩

variable {merged user : SecurityConfig}

/-- A policy narrows another when its flag does and the other allows each of its
entries. -/
theorem narrows_of_entries
    (hflag : merged.allowTransitiveRepositories = true → user.allowTransitiveRepositories = true)
    (hentries : ∀ entry ∈ merged.transitiveRepositoryAllowlist,
      entry ∈ user.transitiveRepositoryAllowlist ∨ user.allowsTransitiveRepoUrl entry = true) :
    merged.Narrows user := by
  intro url hurl
  rw [allowsTransitiveRepoUrl_iff] at hurl ⊢
  obtain ⟨candidate, hcandidate, hallowed⟩ := hurl
  refine ⟨candidate, hcandidate, ?_⟩
  rcases hallowed with htrue | ⟨entry, hentry, allowed, hparse, hmatches⟩
  · exact .inl (hflag htrue)
  rcases hentries entry hentry with hlisted | hlisted
  · exact .inr ⟨entry, hlisted, allowed, hparse, hmatches⟩
  -- the entry falls under one of the user's, and the URL under the entry
  obtain ⟨allowed', hparse', huser⟩ := allowsTransitiveRepoUrl_iff.mp hlisted
  obtain rfl : allowed = allowed' := by
    rw [hparse] at hparse'
    exact Option.some.inj hparse'
  rcases huser with htrue | ⟨entry', hentry', wider, hwider, hunder⟩
  · exact .inl htrue
  · exact .inr ⟨entry', hentry', wider, hwider, urlOriginMatches_trans hunder hmatches⟩

omit [UrlParser] in
theorem mergeNames_fst (user : SecurityConfig) (names : Option (List Text))
    (h : ∀ name ∈ merged.allowEnvSubstitution, name ∈ user.allowEnvSubstitution) :
    let result := (user.mergeNames merged names).1
    (∀ name ∈ result.allowEnvSubstitution, name ∈ user.allowEnvSubstitution) ∧
      result.allowTransitiveRepositories = merged.allowTransitiveRepositories ∧
      result.transitiveRepositoryAllowlist = merged.transitiveRepositoryAllowlist := by
  cases names with
  | none => exact ⟨h, rfl, rfl⟩
  | some names =>
    refine ⟨fun name hname => ?_, rfl, rfl⟩
    simp only [mergeNames, partition_eq_filter_filter, mem_filter] at hname
    simpa using hname.2

omit [UrlParser] in
theorem mergeFlag_fst (user : SecurityConfig) (allow : Option Bool)
    (h : merged.allowTransitiveRepositories = true → user.allowTransitiveRepositories = true) :
    let result := (user.mergeFlag merged allow).1
    result.allowEnvSubstitution = merged.allowEnvSubstitution ∧
      (result.allowTransitiveRepositories = true → user.allowTransitiveRepositories = true) ∧
      result.transitiveRepositoryAllowlist = merged.transitiveRepositoryAllowlist := by
  cases allow with
  | none => exact ⟨rfl, h, rfl⟩
  | some allow =>
    refine ⟨rfl, fun htrue => ?_, rfl⟩
    exact (Bool.and_eq_true_iff.mp htrue).2

theorem mergeEntries_eq_ok {result : SecurityConfig} {widened : List Text}
    {entries : Option (List Text)} (h : user.mergeEntries merged entries = .ok (result, widened))
    (hmerged : ∀ entry ∈ merged.transitiveRepositoryAllowlist,
      entry ∈ user.transitiveRepositoryAllowlist) :
    result.allowEnvSubstitution = merged.allowEnvSubstitution ∧
      result.allowTransitiveRepositories = merged.allowTransitiveRepositories ∧
      ∀ entry ∈ result.transitiveRepositoryAllowlist,
        entry ∈ user.transitiveRepositoryAllowlist ∨ user.allowsTransitiveRepoUrl entry = true := by
  cases entries with
  | none =>
    cases h
    exact ⟨rfl, rfl, fun entry hentry => .inl (hmerged entry hentry)⟩
  | some entries =>
    obtain ⟨-, -, h⟩ := bind_eq_ok h
    simp only [partition_eq_filter_filter] at h
    cases h
    exact ⟨rfl, rfl, fun entry hentry => .inr (mem_filter.mp hentry).2⟩

end SecurityConfig

open SecurityConfig in
/-- A project's table leaves no name and no URL allowed that the user's does not
allow. -/
theorem mergeSecurity_narrows {project user : Option SecurityConfigToml} {merged : SecurityConfig}
    {widened : List Text} (h : mergeSecurity project user = .ok (merged, widened)) :
    (∀ name ∈ merged.allowEnvSubstitution, name ∈ (ofToml user).allowEnvSubstitution) ∧
      ∀ url, merged.allowsTransitiveRepoUrl url = true →
        (ofToml user).allowsTransitiveRepoUrl url = true := by
  simp only [mergeSecurity] at h
  obtain ⟨-, -, h⟩ := bind_eq_ok h
  cases project with
  | none =>
    cases h
    exact ⟨fun _ hname => hname, fun _ hurl => hurl⟩
  | some project =>
    simp only at h
    obtain ⟨⟨result, entries⟩, hentries, h⟩ := bind_eq_ok h
    cases h
    obtain ⟨hnames, hflag, hlist⟩ :=
      mergeNames_fst (ofToml user) project.allowEnvSubstitution fun _ hname => hname
    obtain ⟨hnames', hflag', hlist'⟩ := mergeFlag_fst (ofToml user)
      project.allowTransitiveRepositories fun htrue => hflag ▸ htrue
    obtain ⟨hnames'', hflag'', hlist''⟩ := mergeEntries_eq_ok hentries fun entry hentry => by
      rw [hlist', hlist] at hentry
      exact hentry
    refine ⟨fun name hname => ?_, narrows_of_entries (fun htrue => ?_) hlist''⟩
    · rw [hnames'', hnames'] at hname
      exact hnames name hname
    · rw [hflag''] at htrue
      exact hflag' htrue

end Parser

section Witness

local instance hostParser : UrlParser := httpsParser

/-- The project asks for a team's directory and for another host. -/
theorem mergeSecurity_narrows_team : let project : SecurityConfigToml :=
      ⟨some ["HOME"], none, some ["https://corp/maven/team/", "https://evil/"]⟩
    let user : SecurityConfigToml := ⟨none, some false, some ["https://corp/maven"]⟩
    let merged : SecurityConfig := ⟨[], false, ["https://corp/maven/team/"]⟩
    mergeSecurity (some project) (some user) =
        .ok (merged, ["allow_env_substitution", "transitive_repository_allowlist"]) ∧
      merged.allowsTransitiveRepoUrl "https://corp/maven/team/a/" = true ∧
      (SecurityConfig.ofToml (some user)).allowsTransitiveRepoUrl
        "https://corp/maven/team/a/" = true := by
  intro project user merged
  have h : mergeSecurity (some project) (some user) =
      .ok (merged, ["allow_env_substitution", "transitive_repository_allowlist"]) := by
    decide +kernel
  have hurl : merged.allowsTransitiveRepoUrl "https://corp/maven/team/a/" = true := by
    decide +kernel
  exact ⟨h, hurl, (mergeSecurity_narrows h).2 _ hurl⟩

end Witness

end Raeva.Config
