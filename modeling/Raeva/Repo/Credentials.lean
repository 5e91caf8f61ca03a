import Raeva.Library.Edits
import Raeva.Repo.Auth
import Raeva.Repo.Guard

/-!
# Where credentials go

The admission of the repositories that POMs declare (`rv-repo/src/policy.rs`),
the route of a request (`rv-repo/src/routing.rs`) and the sessions of a client,
in which admissions, routes and lookups of credentials follow one another in any
order.  The named origins only grow by what local POMs declare, and every
credential that a route keeps was confined when it was looked up.
-/

namespace Raeva.Repo

open List

/-! ## Admission -/

/-- The POM that declares a repository: of the project, of a fetched parent, or
of a dependency. -/
inductive Declaration where
  | localPom
  | remoteParent
  | transitive
  deriving DecidableEq

def Declaration.provenance : Declaration → Provenance
  | .localPom => .localPom
  | .remoteParent | .transitive => .fetchedPom

structure Admission where
  admitted : List Repository
  dropped : List Repository
  secretUrls : List Repository
  blockedHttp : List Repository
  deriving DecidableEq

def secretUrlRefusal [UrlParser] (url : Text) (secrets : List (Text × Text)) : Option Text :=
  match UrlParser.secretUrlPart url with
  | some part =>
    some ("has " ++ part ++
      (", which raeva.lock would record; put credentials in an [[auth]] entry in config.toml " ++
        "or a <server> in settings.xml with the repository's id, not in the URL").toList)
  | none =>
    (UrlParser.secretInputInPath url secrets).map fun input =>
      "has the value of " ++ input ++
        (" as one or more whole path segments, which raeva.lock would record, and that name " ++
          "looks like a secret's; if the value is a token, give the URL with it to a " ++
          "settings.xml <mirror> of the repository, whose URL raeva.lock does not record, or " ++
          "put the credential in a <server> with the repository's id; if it is not a secret, " ++
          "rename ").toList ++ input

section Policy

variable [UrlParser]

/-- External HTTP that a POM declares, without the user's URL or mirror for it. -/
def httpRepositoryBlocked (config : Config) (repo : Repository) : Bool :=
  (UrlParser.parse repo.url).any (·.scheme = "http".toList) && isExternalHttpRepo repo.url &&
    !(config.repositories.any fun configured =>
        normalizeRepoUrl configured.url = normalizeRepoUrl repo.url) &&
    (resolveMirror config.mirrors repo).2.1.isNone

/-- What the transport learns from an admission: the origins and hosts that may
be off the public internet, and the origins that may redirect elsewhere. -/
structure Grants where
  trustedOrigins : List Text
  trustedHosts : List Text
  rootRedirects : List Text
  deriving DecidableEq

namespace Grants

def parsedOrigin (repo : Repository) : Option (Url × Text) :=
  ((UrlParser.parse repo.url).filter Url.isHttp).map fun url => (url, url.asciiOrigin)

def exempt (grants : Grants) (repo : Repository) : Grants :=
  match parsedOrigin repo with
  | none => grants
  | some (url, origin) =>
    { grants with
      trustedHosts := (url.hostStr.map normalizedHost).toList ++ grants.trustedHosts
      trustedOrigins := origin :: grants.trustedOrigins }

def authorizeIssuer (grants : Grants) (repo : Repository) : Grants :=
  match parsedOrigin repo with
  | none => grants
  | some (_, origin) => { grants with rootRedirects := origin :: grants.rootRedirects }

end Grants

inductive Verdict where
  | admitted
  | dropped
  | secretUrl
  | blockedHttp
  deriving DecidableEq

def verdict (config : Config) (source : Declaration) (repo : Repository) : Verdict :=
  if (secretUrlRefusal repo.url config.secretNamedInputs).isSome then .secretUrl
  else if httpRepositoryBlocked config repo then .blockedHttp
  else
    match source with
    | .localPom => .admitted
    -- a fetched POM never points at the local file system
    | .remoteParent =>
      if (UrlParser.parse repo.url).any Url.isHttp then .admitted else .dropped
    | .transitive =>
      if config.security.allowsTransitiveRepoUrl repo.url then .admitted else .dropped

def screen (config : Config) (repos : List Repository) (source : Declaration) : Admission :=
  let declared := repos.map fun repo => { repo with provenance := source.provenance }
  { admitted := declared.filter fun repo => verdict config source repo = .admitted
    dropped := declared.filter fun repo => verdict config source repo = .dropped
    secretUrls := declared.filter fun repo => verdict config source repo = .secretUrl
    blockedHttp := declared.filter fun repo => verdict config source repo = .blockedHttp }

theorem provenance_of_mem_screen {config : Config} {repos : List Repository}
    {source : Declaration} {repo : Repository} (h : repo ∈ (screen config repos source).admitted) :
    repo.provenance = source.provenance := by
  obtain ⟨declared, -, rfl⟩ := mem_map.mp (mem_filter.mp h).1
  rfl

def grant (config : Config) (named : NamedOrigins) (grants : Grants) (repo : Repository) :
    NamedOrigins × Grants :=
  let fetched := repo.provenance = .fetchedPom
  let grants :=
    if ¬ fetched ∨ config.security.allowsTransitiveRepoUrl repo.url = true then grants.exempt repo
    else grants
  if fetched then (named, grants) else (named.add repo.url, grants.authorizeIssuer repo)

end Policy

/-! ## Routes -/

/-- Where one request goes, with the credential once it is looked up and the
generation it was looked up under. -/
structure Route where
  origin : Text
  endpoint : Repository
  mirror : Option MirrorConfig
  crossOrigin : Bool
  scope : Text
  credential : Option (Option Auth × ℕ)
  deriving DecidableEq

structure Router where
  mirrors : List MirrorConfig
  /-- The mirrors on the origin of no configured repository. -/
  foreignMirrors : List Text
  auth : AuthStore
  deriving DecidableEq

def cacheScopeKey (originUrl : Text) (endpoint : Repository) : Text :=
  originUrl ++ '\x1f' :: endpoint.url ++ '\x1f' :: "id=" ++ endpoint.id.getD []

section Routes

variable [UrlParser]

def foreignMirrorUrls (config : Config) : List Text :=
  (config.mirrors.filter fun mirror =>
    config.repositories.all fun repo => originsDiffer repo.url mirror.url).map fun mirror =>
      normalizeRepoUrl mirror.url

def Router.fromConfig (config : Config) : Router where
  mirrors := config.mirrors
  foreignMirrors := foreignMirrorUrls config
  auth := AuthStore.fromConfig config

def Router.route (router : Router) (repo : Repository) : Route :=
  let (endpoint, mirror, hostChanged) := resolveMirror router.mirrors repo
  { origin := repo.url
    endpoint
    mirror
    crossOrigin := hostChanged || normalizeRepoUrl endpoint.url ∈ router.foreignMirrors
    scope := cacheScopeKey repo.url endpoint
    credential := none }

variable [EnvReferences]

/-- The credential of a route, looked up at its first use.  A blocked mirror
refuses every request. -/
def Route.auth (store : AuthStore) (named : NamedOrigins) (route : Route) :
    Except RepoError (Option Auth) × Route :=
  match route.mirror.filter (·.blocked) with
  | some mirror =>
    (.error (.blockedMirror (mirror.id.getD (UrlParser.redactUrl mirror.url))), route)
  | none =>
    match route.credential with
    | some (auth, _) => (.ok auth, route)
    | none =>
      match store.lookupAuth named route.endpoint route.crossOrigin with
      | .error e => (.error e, route)
      | .ok auth => (.ok auth, { route with credential := some (auth, named.generation) })

end Routes

/-! ## Sessions -/

inductive Event where
  | admission (repos : List Repository) (source : Declaration)
  | route (repo : Repository)
  /-- A lookup on the route that was made as the one with this number. -/
  | auth (index : ℕ)
  deriving DecidableEq

structure Session where
  named : NamedOrigins
  grants : Grants
  routes : List Route
  deriving DecidableEq

namespace Session

variable [UrlParser]

def start (config : Config) (grants : Grants) : Session where
  named := AuthStore.namedOrigins config
  grants
  routes := []

def admitRepos (config : Config) (session : Session) (repos : List Repository)
    (source : Declaration) : Session :=
  let (named, grants) := (screen config repos source).admitted.foldl
    (fun (named, grants) repo => grant config named grants repo) (session.named, session.grants)
  { session with named, grants }

variable [EnvReferences]

def lookup (config : Config) (session : Session) (route : Route) :
    Except RepoError (Option Auth) × Route :=
  route.auth (Router.fromConfig config).auth session.named

def answer (config : Config) (session : Session) (index : ℕ) :
    Option (Except RepoError (Option Auth)) :=
  session.routes[index]?.map fun route => (session.lookup config route).1

def step (config : Config) (session : Session) : Event → Session
  | .admission repos source => session.admitRepos config repos source
  | .route repo =>
    { session with routes := session.routes ++ [(Router.fromConfig config).route repo] }
  | .auth index =>
    { session with
      routes := session.routes.modify index fun route => (session.lookup config route).2 }

def run (config : Config) (grants : Grants) (events : List Event) : Session :=
  events.foldl (step config) (start config grants)

end Session

def routed (events : List Event) : List Repository :=
  events.filterMap fun
    | .route repo => some repo
    | _ => none

section Confinement

variable [UrlParser]

abbrev Config.route (config : Config) (repo : Repository) : Route :=
  (Router.fromConfig config).route repo

def Admits (config : Config) (events : List Event) (source : Declaration) (repo : Repository) :
    Prop :=
  ∃ repos, Event.admission repos source ∈ events ∧ repo ∈ (screen config repos source).admitted

def Fetched (config : Config) (events : List Event) (repo : Repository) : Prop :=
  repo.provenance = .fetchedPom ∨ ∃ source ≠ .localPom, Admits config events source repo

/-- What holds of a credential that requests for a repository carry. -/
structure Confined (config : Config) (events : List Event) (repo : Repository) (auth : Auth) :
    Prop where
  source : auth.From config.authLayers
  /-- A fetched POM does not choose the origin that the entry for an id goes to. -/
  fetched : auth.sent.id ≠ none → Fetched config events repo → (∃ url ∈ config.namedUrls,
      SameHttpOrigin (config.route repo).endpoint.url url) ∨
    ∃ admitted, Admits config events .localPom admitted ∧
      SameHttpOrigin (config.route repo).endpoint.url admitted.url
  /-- The default entry goes to the user's endpoints and across no mirror. -/
  user : auth.sent.id = none → (∃ url ∈ config.userEndpointUrls,
      SameHttpOrigin (config.route repo).endpoint.url url) ∧
    (config.route repo).crossOrigin = false ∧
    ∀ mirror, (config.route repo).mirror = some mirror →
      originsDiffer repo.url mirror.url = false
  /-- A mirror on another origin gets only the entry for its own id. -/
  mirrored : ∀ mirror, (config.route repo).mirror = some mirror →
    originsDiffer repo.url mirror.url = true → auth.sent.id ≠ none ∧ auth.sent.id = mirror.id

variable {config : Config} {events events' : List Event} {repo : Repository} {named : NamedOrigins}
  {origin : Text} {source : Declaration} {grants : Grants} {repos : List Repository} {route : Route}

theorem Fetched.provenance (h : Fetched config events repo) : repo.provenance = .fetchedPom := by
  rcases h with h | ⟨source, hsource, repos, -, hmem⟩
  · exact h
  rw [provenance_of_mem_screen hmem]
  cases source with
  | localPom => exact absurd rfl hsource
  | remoteParent => rfl
  | transitive => rfl

theorem Admits.mono (hsub : events ⊆ events') (h : Admits config events source repo) :
    Admits config events' source repo := by
  obtain ⟨repos, hevent, hmem⟩ := h
  exact ⟨repos, hsub hevent, hmem⟩

theorem Confined.mono {auth : Auth} (hsub : events ⊆ events')
    (h : Confined config events repo auth) : Confined config events' repo auth where
  source := h.source
  fetched := by
    intro hid hfetched
    rcases h.fetched hid (.inl hfetched.provenance) with hnamed | ⟨admitted, hadmits, horigin⟩
    · exact .inl hnamed
    · exact .inr ⟨admitted, hadmits.mono hsub, horigin⟩
  user := h.user
  mirrored := h.mirrored

theorem mem_grant (h : origin ∈ (grant config named grants repo).1.origins) :
    origin ∈ named.origins ∨ repo.provenance ≠ .fetchedPom ∧ httpOrigin repo.url = some origin := by
  by_cases hfetched : repo.provenance = .fetchedPom
  · simp only [grant, if_pos hfetched] at h
    exact .inl h
  · simp only [grant, if_neg hfetched] at h
    exact (NamedOrigins.mem_add h).imp_right fun horigin => ⟨hfetched, horigin⟩

theorem mem_foldl_grant
    (h : origin ∈ (repos.foldl (fun (named, grants) repo => grant config named grants repo)
      (named, grants)).1.origins) :
    origin ∈ named.origins ∨
      ∃ repo ∈ repos, repo.provenance ≠ .fetchedPom ∧ httpOrigin repo.url = some origin := by
  refine foldlRecOn repos _ (motive := fun state : NamedOrigins × Grants =>
    origin ∈ state.1.origins → _) .inl (fun state ih repo hrepo h => ?_) h
  rcases mem_grant h with hnamed | hlocal
  · exact ih hnamed
  · exact .inr ⟨repo, hrepo, hlocal⟩

theorem mem_admitRepos {session : Session}
    (h : origin ∈ (session.admitRepos config repos source).named.origins) :
    origin ∈ session.named.origins ∨ source = .localPom ∧
      ∃ repo ∈ (screen config repos source).admitted, httpOrigin repo.url = some origin := by
  rcases mem_foldl_grant h with hnamed | ⟨repo, hmem, hlocal, horigin⟩
  · exact .inl hnamed
  refine .inr ⟨?_, repo, hmem, horigin⟩
  rw [provenance_of_mem_screen hmem] at hlocal
  cases source with
  | localPom => rfl
  | remoteParent | transitive => exact absurd rfl hlocal

def OriginsNamed (config : Config) (events : List Event) (named : NamedOrigins) : Prop :=
  ∀ origin ∈ named.origins, (∃ url ∈ config.namedUrls, httpOrigin url = some origin) ∨
    ∃ admitted, Admits config events .localPom admitted ∧ httpOrigin admitted.url = some origin

theorem exists_httpOrigin_of_any {url : Text} {origins : List Text}
    (h : (httpOrigin url).any (· ∈ origins) = true) :
    ∃ origin ∈ origins, httpOrigin url = some origin := by
  cases hurl : httpOrigin url with
  | none =>
    rw [hurl] at h
    cases h
  | some origin =>
    rw [hurl] at h
    exact ⟨origin, by simpa using h, rfl⟩

variable [EnvReferences]

theorem confined_of_lookupAuth {auth : Auth} (hnamed : OriginsNamed config events named)
    (h : (Router.fromConfig config).auth.lookupAuth named
      (config.route repo).endpoint
      (config.route repo).crossOrigin = .ok (some auth)) :
    Confined config events repo auth := by
  obtain ⟨hfrom, hcase⟩ := AuthStore.lookupAuth_eq_some h
  have hmirror : ∀ mirror, (config.route repo).mirror = some mirror →
      originsDiffer repo.url mirror.url = true →
      (config.route repo).endpoint.id = mirror.id ∧
        (config.route repo).crossOrigin = true := by
    intro mirror hmirror hdiffer
    obtain ⟨hid, hchanged⟩ := id_resolveMirror hmirror hdiffer
    refine ⟨hid, ?_⟩
    simp only [Router.route, Bool.or_eq_true]
    exact .inl hchanged
  rcases hcase with ⟨hsome, hid, hkept⟩ | ⟨hnone, hcross, hkept⟩
  · -- the entry for the endpoint's id
    refine ⟨hfrom, fun _ hfetched => ?_, fun hnone => absurd hnone hsome, ?_⟩
    · have hprovenance :
          (config.route repo).endpoint.provenance = .fetchedPom :=
        (provenance_resolveMirror _ repo).trans hfetched.provenance
      simp only [AuthStore.withholdsIdCredential, hprovenance, decide_true, Bool.true_and,
        Bool.not_eq_false'] at hkept
      obtain ⟨origin, hmem, horigin⟩ := exists_httpOrigin_of_any hkept
      rcases hnamed origin hmem with ⟨url, hurl, hsame⟩ | ⟨admitted, hadmits, hsame⟩
      · exact .inl ⟨url, hurl, origin, horigin, hsame⟩
      · exact .inr ⟨admitted, hadmits, origin, horigin, hsame⟩
    · intro mirror hm hdiffer
      exact ⟨hsome, hid.trans (hmirror mirror hm hdiffer).1⟩
  · -- the default entry
    refine ⟨hfrom, fun hsome => absurd hnone hsome, fun _ => ⟨?_, hcross, ?_⟩, ?_⟩
    · simp only [AuthStore.withholdsDefaultCredential, Bool.not_eq_false'] at hkept
      obtain ⟨origin, hmem, horigin⟩ := exists_httpOrigin_of_any hkept
      obtain ⟨url, hurl, hsame⟩ := mem_filterMap.mp hmem
      exact ⟨url, hurl, origin, horigin, hsame⟩
    · intro mirror hm
      by_contra hdiffer
      have hchanged := (hmirror mirror hm (by simpa using hdiffer)).2
      rw [hcross] at hchanged
      cases hchanged
    · intro mirror hm hdiffer
      have hchanged := (hmirror mirror hm hdiffer).2
      rw [hcross] at hchanged
      cases hchanged

def RouteOf (config : Config) (events : List Event) (repo : Repository) (route : Route) : Prop :=
  ∃ credential, route = { config.route repo with credential } ∧
    ∀ auth generation, credential = some (some auth, generation) → Confined config events repo auth

omit [EnvReferences] in
theorem RouteOf.mono (hsub : events ⊆ events') (h : RouteOf config events repo route) :
    RouteOf config events' repo route := by
  obtain ⟨credential, hroute, hconfined⟩ := h
  exact ⟨credential, hroute, fun auth generation hc => (hconfined auth generation hc).mono hsub⟩

theorem RouteOf.auth (hnamed : OriginsNamed config events named)
    (h : RouteOf config events repo route) :
    RouteOf config events repo (route.auth (Router.fromConfig config).auth named).2 ∧
      ∀ auth, (route.auth (Router.fromConfig config).auth named).1 = .ok (some auth) →
        Confined config events repo auth := by
  obtain ⟨credential, rfl, hconfined⟩ := h
  unfold Route.auth
  split
  · exact ⟨⟨credential, rfl, hconfined⟩, fun _ h => by cases h⟩
  cases credential with
  | some kept =>
    obtain ⟨answer, generation⟩ := kept
    refine ⟨⟨_, rfl, hconfined⟩, fun auth h => ?_⟩
    cases h
    exact hconfined auth generation rfl
  | none =>
    simp only
    split
    · exact ⟨⟨none, rfl, hconfined⟩, fun _ h => by cases h⟩
    rename_i answer hlookup
    refine ⟨⟨_, rfl, fun auth generation hc => ?_⟩, fun auth h => ?_⟩
    · cases hc
      exact confined_of_lookupAuth hnamed hlookup
    · cases h
      exact confined_of_lookupAuth hnamed hlookup

structure Session.Valid (config : Config) (events : List Event) (session : Session) : Prop where
  named : OriginsNamed config events session.named
  routes : List.Forall₂ (RouteOf config events) (routed events) session.routes

namespace Session

theorem Valid.step {session : Session} (h : session.Valid config events) (event : Event) :
    (session.step config event).Valid config (events ++ [event]) := by
  have hsub : events ⊆ events ++ [event] := subset_append_left _ _
  have hnamed : OriginsNamed config (events ++ [event]) session.named := by
    intro origin hmem
    refine (h.named origin hmem).imp_right fun ⟨admitted, hadmits, horigin⟩ => ?_
    exact ⟨admitted, hadmits.mono hsub, horigin⟩
  have hroutes : List.Forall₂ (RouteOf config (events ++ [event])) (routed events)
      session.routes := h.routes.imp fun _ _ hroute => hroute.mono hsub
  cases event with
  | admission repos source =>
    refine ⟨fun origin hmem => ?_, ?_⟩
    · rcases mem_admitRepos hmem with hold | ⟨rfl, admitted, hadmitted, horigin⟩
      · exact hnamed origin hold
      · exact .inr ⟨admitted, ⟨repos, by simp, hadmitted⟩, horigin⟩
    · have hrouted : routed (events ++ [.admission repos source]) = routed events := by
        simp [routed]
      rw [hrouted]
      exact hroutes
  | route repo =>
    refine ⟨hnamed, ?_⟩
    simp only [routed, filterMap_append, filterMap_cons, filterMap_nil]
    refine rel_append hroutes (.cons ⟨none, rfl, ?_⟩ .nil)
    intro auth generation hc
    cases hc
  | auth index =>
    refine ⟨hnamed, ?_⟩
    have hrouted : routed (events ++ [.auth index]) = routed events := by simp [routed]
    rw [hrouted]
    exact forall₂_modify hroutes index fun _ _ hroute => (hroute.auth hnamed).1

theorem valid_run (config : Config) (grants : Grants) (events : List Event) :
    (run config grants events).Valid config events := by
  induction events using List.reverseRecOn with
  | nil =>
    refine ⟨fun origin hmem => ?_, .nil⟩
    rcases NamedOrigins.mem_addAll hmem with hempty | hurl
    · cases hempty
    · exact .inl hurl
  | append_singleton events event ih =>
    rw [run, foldl_concat]
    exact ih.step event

/-- However admissions, routes and lookups follow one another, a lookup answers
only with a confined credential. -/
theorem run_confined {config : Config} {grants : Grants} {events : List Event} {index : ℕ}
    {repo : Repository} {auth : Auth} (hrepo : (routed events)[index]? = some repo)
    (hanswer : (run config grants events).answer config index = some (.ok (some auth))) :
    Confined config events repo auth := by
  have hvalid := valid_run config grants events
  obtain ⟨route, hroute, hlookup⟩ := Option.map_eq_some_iff.mp hanswer
  obtain ⟨hindex, hrepo⟩ := List.getElem?_eq_some_iff.mp hrepo
  obtain ⟨hindex', hroute⟩ := List.getElem?_eq_some_iff.mp hroute
  have hof := hvalid.routes.get hindex hindex'
  simp only [get_eq_getElem, hrepo, hroute] at hof
  exact (hof.auth hvalid.named).2 auth hlookup

end Session

end Confinement

section Witness

local instance routeParser : UrlParser := httpsParser

local instance routeReferences : EnvReferences := ⟨fun _ => []⟩

/-- The project's own POM names the origin between two lookups for a repository
that a fetched POM declares there. -/
theorem Session.run_confined_named :
    let config : Config := {
      repositories := []
      mirrors := []
      userEndpointUrls := []
      authLayers := ⟨[], [⟨some "corp".toList, none, none, some "t".toList⟩], []⟩
      security := ⟨[], true, []⟩
      secretNamedInputs := [] }
    let declared : Repository :=
      { Repository.new (some "corp".toList) "https://nexus/releases".toList true false with
        provenance := .fetchedPom }
    let owned := Repository.new none "https://nexus/own".toList true false
    let events : List Event :=
      [.admission [declared] .transitive, .route declared, .auth 0, .admission [owned] .localPom,
        .route declared]
    let auth : Auth := ⟨.bearer "t".toList, ⟨some "corp".toList, .user, []⟩⟩
    (Session.run config ⟨[], [], []⟩ events).answer config 0 = some (.ok none) ∧
      (Session.run config ⟨[], [], []⟩ events).answer config 1 = some (.ok (some auth)) ∧
      Confined config events declared auth := by
  intro config declared owned events auth
  have hwithheld : (Session.run config ⟨[], [], []⟩ events).answer config 0 = some (.ok none) := by
    decide +kernel
  have hanswer :
      (Session.run config ⟨[], [], []⟩ events).answer config 1 = some (.ok (some auth)) := by
    decide +kernel
  exact ⟨hwithheld, hanswer, run_confined (by decide +kernel) hanswer⟩

end Witness

end Raeva.Repo
