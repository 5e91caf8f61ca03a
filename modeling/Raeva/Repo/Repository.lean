import Raeva.Config.Security

/-!
# Repositories and mirrors

`Repository` of `rv-repo`, where it was declared and how the checksum policies of
two declarations merge, and the mirror that serves a repository, as
`rv-repo/src/mirror.rs` selects it.
-/

namespace Raeva.Repo

inductive Provenance where
  | caller
  | configured
  | localPom
  | fetchedPom
  deriving DecidableEq

inductive UpdatePolicy where
  | always
  | daily
  | interval (minutes : ℕ)
  | never
  deriving DecidableEq

inductive ChecksumPolicy where
  | warn
  | fail
  | ignore
  | unsupported
  deriving DecidableEq

structure Repository where
  id : Option Text
  url : Text
  releasesEnabled : Bool
  snapshotsEnabled : Bool
  snapshotsUpdatePolicy : UpdatePolicy
  releasesUpdatePolicy : UpdatePolicy
  releasesChecksumPolicy : ChecksumPolicy
  snapshotsChecksumPolicy : ChecksumPolicy
  provenance : Provenance
  deriving DecidableEq

structure RepoConfig where
  id : Option Text
  url : Text
  releases : Option Bool
  snapshots : Option Bool
  snapshotsUpdatePolicy : Option UpdatePolicy
  releasesUpdatePolicy : Option UpdatePolicy
  releasesChecksumPolicy : Option ChecksumPolicy
  snapshotsChecksumPolicy : Option ChecksumPolicy
  deriving DecidableEq

def Repository.new [UrlParser] (id : Option Text) (url : Text)
    (releasesEnabled snapshotsEnabled : Bool) : Repository where
  id
  url := normalizeRepoUrl url
  releasesEnabled
  snapshotsEnabled
  snapshotsUpdatePolicy := .interval 60
  releasesUpdatePolicy := .daily
  releasesChecksumPolicy := .warn
  snapshotsChecksumPolicy := .warn
  provenance := .caller

/-! ## Checksum policies -/

def ChecksumPolicy.strictness : ChecksumPolicy → ℕ
  | .warn | .ignore => 0
  | .fail => 1
  | .unsupported => 2

/-- The stricter policy.  One that is not supported counts as `fail` unless it is
to be kept. -/
def ChecksumPolicy.stricter (keepUnsupported : Bool) (mine theirs : ChecksumPolicy) :
    ChecksumPolicy :=
  let theirs := if theirs = .unsupported && !keepUnsupported then .fail else theirs
  if mine.strictness < theirs.strictness then theirs else mine

namespace Repository

def mergePolicies (repo other : Repository) (keepUnsupported : Bool) : Repository :=
  { repo with
    releasesChecksumPolicy :=
      repo.releasesChecksumPolicy.stricter keepUnsupported other.releasesChecksumPolicy
    snapshotsChecksumPolicy :=
      repo.snapshotsChecksumPolicy.stricter keepUnsupported other.snapshotsChecksumPolicy }

def mergeChecksumPolicies (repo other : Repository) : Repository :=
  repo.mergePolicies other (repo.id = other.id)

def mergeFetchedChecksumPolicies (repo other : Repository) : Repository :=
  repo.mergePolicies other false

def hasStrictChecksumPolicy (repo : Repository) : Bool :=
  repo.releasesChecksumPolicy.strictness > 0 || repo.snapshotsChecksumPolicy.strictness > 0

/-- A repository that differs at most in stricter checksum policies. -/
structure Stricter (repo stricter : Repository) : Prop where
  eq : stricter = { repo with
    releasesChecksumPolicy := stricter.releasesChecksumPolicy
    snapshotsChecksumPolicy := stricter.snapshotsChecksumPolicy }
  releases : stricter.releasesChecksumPolicy = repo.releasesChecksumPolicy ∨
    repo.releasesChecksumPolicy.strictness < stricter.releasesChecksumPolicy.strictness
  snapshots : stricter.snapshotsChecksumPolicy = repo.snapshotsChecksumPolicy ∨
    repo.snapshotsChecksumPolicy.strictness < stricter.snapshotsChecksumPolicy.strictness

theorem Stricter.refl (repo : Repository) : repo.Stricter repo :=
  ⟨rfl, .inl rfl, .inl rfl⟩

theorem Stricter.trans {a b c : Repository} (hab : a.Stricter b) (hbc : b.Stricter c) :
    a.Stricter c := by
  refine ⟨?_, ?_, ?_⟩
  · rw [hbc.eq, hab.eq]
  · have hab := hab.releases
    rcases hbc.releases with heq | hlt
    · rwa [heq]
    · exact .inr (hab.elim (fun heq => heq ▸ hlt) fun hlt' => hlt'.trans hlt)
  · have hab := hab.snapshots
    rcases hbc.snapshots with heq | hlt
    · rwa [heq]
    · exact .inr (hab.elim (fun heq => heq ▸ hlt) fun hlt' => hlt'.trans hlt)

theorem stricter_mergePolicies (repo other : Repository) (keepUnsupported : Bool) :
    repo.Stricter (repo.mergePolicies other keepUnsupported) := by
  have hpolicy : ∀ mine theirs : ChecksumPolicy, mine.stricter keepUnsupported theirs = mine ∨
        mine.strictness < (mine.stricter keepUnsupported theirs).strictness := by
    intro mine theirs
    unfold ChecksumPolicy.stricter
    extract_lets counted
    split
    · exact .inr (by assumption)
    · exact .inl rfl
  exact ⟨rfl, hpolicy _ _, hpolicy _ _⟩

end Repository

/-! ## Mirrors -/

structure MirrorConfig where
  id : Option Text
  url : Text
  mirrorOf : List Text
  mirrorOfLayouts : Option Text
  blocked : Bool
  deriving DecidableEq

/-- The entries of a list that excludes with `!`: the first that names decides,
and a wildcard matches unless a later entry excludes. -/
def matchEntries (isName isWild : Text → Bool) : Bool → List Text → Bool
  | matched, [] => matched
  | matched, entry :: entries =>
    match (Text.stripPrefix entry ['!']).filter (!List.isEmpty ·) with
    | some excluded => if isName excluded then false else matchEntries isName isWild matched entries
    | none =>
      if isName entry then true
      else matchEntries isName isWild (matched || isWild entry) entries

def listEntries (text : Text) : List Text :=
  Text.split (text.rdropWhile (· == ',')) ','

def servesLayout (mirror : MirrorConfig) : Bool :=
  let layouts := mirror.mirrorOfLayouts.getD "default,legacy"
  layouts.isEmpty || layouts = "*" || layouts = "default" ||
    matchEntries (· = "default") (· = "*") false (listEntries layouts)

section Mirrors

variable [UrlParser]

def originsDiffer (original resolved : Text) : Bool :=
  let origin (url : Text) : Option (Text × Text × ℕ) := do
    let parsed ← UrlParser.parse url
    let host ← parsed.hostStr
    let port ← parsed.portOrKnownDefault
    some (parsed.scheme, Text.toAsciiLowercase host, port)
  match origin original, origin resolved with
  | some a, some b => a ≠ b
  | _, _ => true

def isLocalHost (url : Url) : Bool :=
  url.hostStr = some "localhost".toList || url.hostStr = some "127.0.0.1".toList

def isExternalRepo (url : Text) : Bool :=
  (UrlParser.parse url).elim true fun url => !(isLocalHost url || url.scheme = "file")

def isExternalHttpRepo (url : Text) : Bool :=
  (UrlParser.parse url).elim true fun url => url.scheme = "http" && !isLocalHost url

def matchPattern (repo : Repository) (pattern : Text) : Bool :=
  pattern = "*" || some pattern = repo.id || matchEntries (fun entry => some entry = repo.id)
      (fun entry => (entry = "external:*" && isExternalRepo repo.url) ||
        (entry = "external:http:*" && isExternalHttpRepo repo.url) || entry = "*")
      false (listEntries pattern)

/-- The mirror for a repository: one whose whole pattern is its id, or else the
first whose pattern matches. -/
def matchingMirror (mirrors : List MirrorConfig) (repo : Repository) : Option MirrorConfig :=
  let pattern (mirror : MirrorConfig) := Text.join [','] mirror.mirrorOf
  (mirrors.find? fun mirror => decide (repo.id = some (pattern mirror)) && servesLayout mirror).or
    (mirrors.find? fun mirror => matchPattern repo (pattern mirror) && servesLayout mirror)

/-- The repository that serves `repo`, its mirror, and whether the mirror is on
another origin.  A mirror without an id takes the repository's only on the same
origin. -/
def resolveMirror (mirrors : List MirrorConfig) (repo : Repository) :
    Repository × Option MirrorConfig × Bool :=
  match matchingMirror mirrors repo with
  | none => (repo, none, false)
  | some mirror =>
    let hostChanged := originsDiffer repo.url mirror.url
    let id :=
      match mirror.id with
      | none => if hostChanged then none else repo.id
      | some id => some id
    ({ repo with id, url := normalizeRepoUrl mirror.url }, some mirror, hostChanged)

theorem provenance_resolveMirror (mirrors : List MirrorConfig) (repo : Repository) :
    (resolveMirror mirrors repo).1.provenance = repo.provenance := by
  unfold resolveMirror
  cases matchingMirror mirrors repo <;> rfl

theorem id_resolveMirror {mirrors : List MirrorConfig} {repo : Repository} {mirror : MirrorConfig}
    (hmirror : (resolveMirror mirrors repo).2.1 = some mirror)
    (hdiffer : originsDiffer repo.url mirror.url = true) :
    (resolveMirror mirrors repo).1.id = mirror.id ∧ (resolveMirror mirrors repo).2.2 = true := by
  unfold resolveMirror at hmirror ⊢
  cases hmatching : matchingMirror mirrors repo with
  | none =>
    rw [hmatching] at hmirror
    cases hmirror
  | some matching =>
    rw [hmatching] at hmirror
    obtain rfl : matching = mirror := by simpa using hmirror
    simp only [hdiffer, if_true]
    cases matching.id <;> simp

end Mirrors

end Raeva.Repo
