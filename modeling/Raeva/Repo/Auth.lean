import Raeva.Repo.Repository

/-!
# Credentials

`AuthStore` of `rv-repo/src/auth.rs`: the credentials of the configuration, the
origins it and the project's own POMs name, and the lookup that decides which
credential a repository gets.
-/

namespace Raeva.Repo

open List

structure AuthConfig where
  id : Option Text
  username : Option Text
  password : Option Text
  token : Option Text
  deriving DecidableEq

inductive CredentialFile where
  | project
  | user
  | settings
  deriving DecidableEq

def CredentialFile.label : CredentialFile → Text
  | .project => "project raeva.toml"
  | .user => "user config"
  | .settings => "settings.xml"

inductive Scheme where
  | basic (username password : Text)
  | bearer (token : Text)
  deriving DecidableEq

/-- Where a credential came from: its id, absent for a default one, its file, and
the variables it refers to that are not set. -/
structure SentCredential where
  id : Option Text
  file : CredentialFile
  unsetVariables : List Text
  deriving DecidableEq

structure Auth where
  scheme : Scheme
  sent : SentCredential
  deriving DecidableEq

inductive RepoError where
  | authSetup (source : Text) (id : Option Text) (details : Text)
  | blockedMirror (name : Text)
  deriving DecidableEq

structure AuthConfigLayers where
  project : List AuthConfig
  user : List AuthConfig
  settings : List AuthConfig
  deriving DecidableEq

namespace AuthConfigLayers

def byFile (layers : AuthConfigLayers) : List (CredentialFile × List AuthConfig) :=
  [(.project, layers.project), (.user, layers.user), (.settings, layers.settings)]

/-- The entry for an id.  One that has none of the fields says nothing and is
passed over. -/
def entryFor (layers : AuthConfigLayers) (id : Text) : Option (CredentialFile × AuthConfig) :=
  layers.byFile.findSome? fun (file, configs) =>
    ((configs.find? (·.id = some id)).filter fun entry =>
      entry.token.isSome || entry.username.isSome || entry.password.isSome).map fun entry =>
        (file, entry)

def defaultEntry (layers : AuthConfigLayers) : Option (CredentialFile × AuthConfig) :=
  layers.byFile.findSome? fun (file, configs) =>
    (configs.find? (·.id = none)).map fun entry => (file, entry)

def Holds (layers : AuthConfigLayers) (file : CredentialFile) (entry : AuthConfig) : Prop :=
  ∃ configs, (file, configs) ∈ layers.byFile ∧ entry ∈ configs

variable {layers : AuthConfigLayers} {file : CredentialFile} {entry : AuthConfig}

theorem entryFor_eq_some {id : Text} (h : layers.entryFor id = some (file, entry)) :
    entry.id = some id ∧ layers.Holds file entry := by
  obtain ⟨⟨file', configs⟩, hlayer, h⟩ := exists_of_findSome?_eq_some h
  obtain ⟨entry', hfound, hentry⟩ := Option.map_eq_some_iff.mp h
  cases hentry
  have hfind := (Option.filter_eq_some_iff.mp hfound).1
  refine ⟨by simpa using find?_some hfind, configs, hlayer, mem_of_find?_eq_some hfind⟩

theorem defaultEntry_eq_some (h : layers.defaultEntry = some (file, entry)) :
    entry.id = none ∧ layers.Holds file entry := by
  obtain ⟨⟨file', configs⟩, hlayer, h⟩ := exists_of_findSome?_eq_some h
  obtain ⟨entry', hfind, hentry⟩ := Option.map_eq_some_iff.mp h
  cases hentry
  refine ⟨by simpa using find?_some hfind, configs, hlayer, mem_of_find?_eq_some hfind⟩

end AuthConfigLayers

def completeScheme (config : AuthConfig) (source : Text) : Except RepoError Scheme :=
  match config.token with
  | some token =>
    if token.isEmpty then
      .error (.authSetup source config.id "bearer auth requires a non-empty token")
    else .ok (.bearer token)
  | none =>
    match config.username, config.password with
    | some username, some password =>
      if !username.isEmpty && !password.isEmpty then .ok (.basic username password)
      else .error (incomplete source)
    | _, _ => .error (incomplete source)
where
  incomplete (source : Text) : RepoError :=
    .authSetup source config.id
      ("basic auth requires a non-empty username and password, or bearer auth requires a " ++
        "non-empty token").toList

/-- The variables that a text refers to and that are not set. -/
class EnvReferences where
  unsetEnvReferences : Text → List Text

def buildCompleteAuth [EnvReferences] (config : AuthConfig) (file : CredentialFile)
    (source : Text) : Except RepoError Auth := do
  let scheme ← completeScheme config source
  let texts :=
    match scheme with
    | .basic username password => [username, password]
    | .bearer token => [token]
  let unsetVariables :=
    if file = .settings then
      (texts.flatMap EnvReferences.unsetEnvReferences).foldl
        (fun names name => if name ∈ names then names else names ++ [name]) []
    else []
  .ok { scheme, sent := { id := config.id, file, unsetVariables } }

def Auth.From (auth : Auth) (layers : AuthConfigLayers) : Prop :=
  ∃ entry source, layers.Holds auth.sent.file entry ∧ entry.id = auth.sent.id ∧
    completeScheme entry source = .ok auth.scheme

theorem buildCompleteAuth_from [EnvReferences] {layers : AuthConfigLayers} {config : AuthConfig}
    {file : CredentialFile} {source : Text} {auth : Auth} (hholds : layers.Holds file config)
    (h : (buildCompleteAuth config file source).map some = .ok (some auth)) :
    auth.From layers ∧ auth.sent.id = config.id := by
  obtain ⟨built, hbuilt, hsome⟩ := map_eq_ok_iff.mp h
  cases hsome
  obtain ⟨scheme, hscheme, hbuilt⟩ := bind_eq_ok hbuilt
  cases hbuilt
  exact ⟨⟨config, source, hholds, rfl, hscheme⟩, rfl⟩

/-! ## Origins -/

/-- The origins that the configuration and the project's own POMs name, and how
often one was added. -/
structure NamedOrigins where
  origins : List Text
  generation : ℕ
  deriving DecidableEq

def SameHttpOrigin [UrlParser] (a b : Text) : Prop :=
  ∃ origin, httpOrigin a = some origin ∧ httpOrigin b = some origin

namespace NamedOrigins

variable [UrlParser]

def add (named : NamedOrigins) (url : Text) : NamedOrigins :=
  match httpOrigin url with
  | none => named
  | some origin =>
    if origin ∈ named.origins then named else ⟨origin :: named.origins, named.generation + 1⟩

def addAll (named : NamedOrigins) (urls : List Text) : NamedOrigins :=
  urls.foldl add named

theorem mem_add {named : NamedOrigins} {url origin : Text}
    (h : origin ∈ (named.add url).origins) :
    origin ∈ named.origins ∨ httpOrigin url = some origin := by
  unfold add at h
  cases hurl : httpOrigin url with
  | none =>
    rw [hurl] at h
    exact .inl h
  | some added =>
    simp only [hurl] at h
    split at h
    · exact .inl h
    · rcases mem_cons.mp h with rfl | hmem
      · exact .inr rfl
      · exact .inl hmem

theorem mem_addAll {urls : List Text} {named : NamedOrigins} {origin : Text}
    (h : origin ∈ (named.addAll urls).origins) :
    origin ∈ named.origins ∨ ∃ url ∈ urls, httpOrigin url = some origin := by
  refine foldlRecOn urls _ (motive := fun named : NamedOrigins => origin ∈ named.origins → _) .inl
    (fun named ih url hurl h => ?_) h
  rcases mem_add h with hmem | horigin
  · exact ih hmem
  · exact .inr ⟨url, hurl, horigin⟩

end NamedOrigins

/-! ## The store -/

structure Config where
  repositories : List RepoConfig
  mirrors : List MirrorConfig
  /-- The repositories and mirrors that the user's own files name. -/
  userEndpointUrls : List Text
  authLayers : AuthConfigLayers
  security : Raeva.Config.SecurityConfig
  /-- The inputs whose names look like a secret's, with their values. -/
  secretNamedInputs : List (Text × Text)
  deriving DecidableEq

def Config.namedUrls (config : Config) : List Text :=
  config.repositories.map (·.url) ++ config.mirrors.map (·.url) ++ config.userEndpointUrls ++
    config.security.transitiveRepositoryAllowlist

structure AuthStore where
  layers : AuthConfigLayers
  userOrigins : List Text
  deriving DecidableEq

namespace AuthStore

variable [UrlParser]

def fromConfig (config : Config) : AuthStore where
  layers := config.authLayers
  userOrigins := config.userEndpointUrls.filterMap httpOrigin

def namedOrigins (config : Config) : NamedOrigins :=
  NamedOrigins.addAll ⟨[], 0⟩ config.namedUrls

def withholdsIdCredential (named : NamedOrigins) (repo : Repository) : Bool :=
  repo.provenance = .fetchedPom && !(httpOrigin repo.url).any (· ∈ named.origins)

/-- A repository on an origin that the user's own files do not name. -/
def withholdsDefaultCredential (store : AuthStore) (repo : Repository) : Bool :=
  !(httpOrigin repo.url).any (· ∈ store.userOrigins)

variable [EnvReferences]

def lookupAuth (store : AuthStore) (named : NamedOrigins) (repo : Repository)
    (hostChanged : Bool) : Except RepoError (Option Auth) :=
  match repo.id.bind store.layers.entryFor with
  | some (file, config) =>
    if withholdsIdCredential named repo then .ok none
    else (buildCompleteAuth config file file.label).map some
  | none =>
    if hostChanged then .ok none
    else if store.withholdsDefaultCredential repo then .ok none
    else
      match store.layers.defaultEntry with
      | none => .ok none
      | some (file, config) =>
        (buildCompleteAuth config file (file.label ++ " default")).map some

/-- A credential is that of an entry: the one for the repository's id, unless it
is withheld, or else the default one on the user's origins. -/
theorem lookupAuth_eq_some {store : AuthStore} {named : NamedOrigins} {repo : Repository}
    {hostChanged : Bool} {auth : Auth}
    (h : store.lookupAuth named repo hostChanged = .ok (some auth)) :
    auth.From store.layers ∧ ((auth.sent.id ≠ none ∧ auth.sent.id = repo.id ∧
          withholdsIdCredential named repo = false) ∨
        (auth.sent.id = none ∧ hostChanged = false ∧
          store.withholdsDefaultCredential repo = false)) := by
  unfold lookupAuth at h
  cases hentry : repo.id.bind store.layers.entryFor with
  | some found =>
    obtain ⟨file, config⟩ := found
    obtain ⟨id, hid, hfor⟩ := Option.bind_eq_some_iff.mp hentry
    obtain ⟨hconfig, hholds⟩ := AuthConfigLayers.entryFor_eq_some hfor
    simp only [hentry] at h
    split at h
    · cases h
    rename_i hkept
    obtain ⟨hfrom, hsent⟩ := buildCompleteAuth_from hholds h
    refine ⟨hfrom, .inl ⟨?_, ?_, ?_⟩⟩
    · simp [hsent, hconfig]
    · rw [hsent, hconfig, hid]
    · simpa using hkept
  | none =>
    simp only [hentry] at h
    split at h
    · cases h
    rename_i hchanged
    split at h
    · cases h
    rename_i hkept
    split at h
    · cases h
    rename_i file config hdefault
    obtain ⟨hconfig, hholds⟩ := AuthConfigLayers.defaultEntry_eq_some hdefault
    obtain ⟨hfrom, hsent⟩ := buildCompleteAuth_from hholds h
    refine ⟨hfrom, .inr ⟨?_, ?_, ?_⟩⟩
    · rw [hsent, hconfig]
    · simpa using hchanged
    · simpa using hkept

end AuthStore

end Raeva.Repo
