import Mathlib.Data.Finset.Basic
import Raeva.Repo.Address

/-!
# Redirects

`RedirectGuard` of `rv-repo/src/transport/guard.rs`, which decides each redirect
from the URLs requested before it, and the resolver that screens the names a
redirect may lead to.  Over a whole chain of redirects there is at most one
change of origin, which a trusted repository makes and which does not lead off
the public internet unless the configuration names the target.
-/

namespace Raeva.Repo

open List

def normalizedHost (host : Text) : Text :=
  Text.toAsciiLowercase (((Text.trim host).dropWhile (· == '[')).rdropWhile (· == ']'))

structure ConfiguredHosts where
  hosts : Finset Text
  deriving DecidableEq

def ConfiguredHosts.new (hosts : List Text) : ConfiguredHosts where
  hosts := (hosts.map normalizedHost).toFinset

def ConfiguredHosts.contains (configured : ConfiguredHosts) (host : Text) : Bool :=
  normalizedHost host ∈ configured.hosts

/-! ## Proxies -/

inductive Protocol where
  | http
  | https
  | all
  deriving DecidableEq

/-- A proxy: the URLs its protocol selects, those that its lists of exceptions
leave alone, and whether a variable of the environment names it. -/
structure ProxyRoute where
  protocol : Protocol
  bypasses : Url → Bool
  environment : Bool

def ProxyRoute.carries (route : ProxyRoute) (scheme : Text) (url : Url) : Bool :=
  (match route.protocol with
    | .http => decide (scheme = "http")
    | .https => decide (scheme = "https")
    | .all => true) && !route.bypasses url

def selectProxy (routes : List ProxyRoute) (url : Url) : Option ℕ :=
  if url.scheme = "http" then routes.findIdx? (·.carries "http" url)
  else if url.scheme = "https" then
    (routes.findIdx? (·.carries "https" url)).or
      (routes.findIdx? fun route => !route.environment && route.carries "http" url)
  else none

/-! ## The guard -/

inductive RedirectRejection where
  | chainLimit (target : Text)
  | noIssuer (target : Text)
  | secondCrossOriginHop (issuer target : Text)
  | originNotConfigured (issuer : Text)
  | insecureOrigin (issuer target : Text)
  | httpsDowngrade (issuer target : Text)
  | noHost (target : Text)
  | nonGlobalTarget (target : Text) (addr : IpAddr)
  | proxiedTargetNotConfigured (target issuer : Text)
  | exemptHostOriginMismatch (domain target : Text)
  | nonGlobalAnswer (host : Text) (addr : IpAddr)
  deriving DecidableEq

structure RedirectGuard where
  /-- The origins of the configured repositories and mirrors. -/
  origins : Finset Text
  /-- An additional issuer, which is no target. -/
  rootIssuer : Option Text
  exemptHosts : ConfiguredHosts
  proxies : List ProxyRoute

def maxRedirectHops : ℕ := 5

def ipLiteral (url : Url) : Option IpAddr :=
  match url.host with
  | some (.ipv4 addr) => some (.v4 addr)
  | some (.ipv6 addr) => some (.v6 addr)
  | some (.domain _) | none => none

def hops (chain : List Url) : List (Url × Url) :=
  chain.zip chain.tail

section Guard

variable [UrlParser]

def changes (chain : List Url) : List (Url × Url) :=
  (hops chain).filter fun (issuer, target) => !UrlParser.sameOrigin issuer target

def nonGlobalLiteralTarget (target : Url) (trustedOrigins : Finset Text) :
    Option RedirectRejection :=
  match ipLiteral target with
  | none => none
  | some addr =>
    if addr.isGloballyRoutable || target.asciiOrigin ∈ trustedOrigins then none
    else some (.nonGlobalTarget (UrlParser.redactUrl target.text) addr)

namespace RedirectGuard

/-- Screen the address that a target on another origin names, or who resolves
it. -/
def screenTarget (guard : RedirectGuard) (target : Url) (issuerOrigin : Text) :
    Except RedirectRejection Unit :=
  match target.host with
  | none => .error (.noHost (UrlParser.redactUrl target.text))
  | some (.ipv4 _) | some (.ipv6 _) =>
    match nonGlobalLiteralTarget target guard.origins with
    | some rejection => .error rejection
    | none => .ok ()
  | some (.domain domain) =>
    if target.asciiOrigin ∈ guard.origins then .ok ()
    else if (selectProxy guard.proxies target).isSome then
      .error (.proxiedTargetNotConfigured (UrlParser.redactUrl target.text) issuerOrigin)
    else if guard.exemptHosts.contains domain then
      .error (.exemptHostOriginMismatch domain (UrlParser.redactUrl target.text))
    else .ok ()

def evaluate (guard : RedirectGuard) (previous : List Url) (target : Url) :
    Except RedirectRejection Unit :=
  let shown := UrlParser.redactUrl target.text
  if maxRedirectHops ≤ previous.length then .error (.chainLimit shown)
  else
    match previous.getLast? with
    | none => .error (.noIssuer shown)
    | some issuer =>
      let issuerOrigin := issuer.asciiOrigin
      if UrlParser.sameOrigin issuer target then .ok ()
      else if (hops previous).any fun (a, b) => !UrlParser.sameOrigin a b then
        .error (.secondCrossOriginHop issuerOrigin shown)
      else if issuerOrigin ∉ guard.origins ∧ guard.rootIssuer ≠ some issuerOrigin then
        .error (.originNotConfigured issuerOrigin)
      else if issuer.scheme ≠ "https" then .error (.insecureOrigin issuerOrigin shown)
      else if target.scheme ≠ "https" then .error (.httpsDowngrade issuerOrigin shown)
      else guard.screenTarget target issuerOrigin

/-- The chains of URLs that the guard lets a request follow. -/
inductive Follows (guard : RedirectGuard) : List Url → Prop
  | start (url : Url) : guard.Follows [url]
  | hop {previous : List Url} {target : Url} : guard.Follows previous →
      guard.evaluate previous target = .ok () → guard.Follows (previous ++ [target])

end RedirectGuard

/-- Refuse the whole answer when an address in it is not public. -/
def screenResolvedAddrs (host : Text) (exempt : Bool) (addrs : List IpAddr) :
    Except RedirectRejection (List IpAddr) :=
  match addrs.find? fun addr => !exempt && !addr.isGloballyRoutable with
  | some blocked => .error (.nonGlobalAnswer host blocked)
  | none => .ok addrs

/-- The addresses that a client with these exemptions connects to, from the
answer of the DNS. -/
def resolve (exemptHosts : ConfiguredHosts) (name : Text) (answer : Text → List IpAddr) :
    Except RedirectRejection (List IpAddr) :=
  let host := Text.toAsciiLowercase name
  screenResolvedAddrs host (exemptHosts.contains host) (answer host)

omit [UrlParser] in
theorem screenResolvedAddrs_eq_ok {host : Text} {addrs addrs' : List IpAddr}
    (h : screenResolvedAddrs host false addrs = .ok addrs') :
    ∀ addr ∈ addrs', addr.isGloballyRoutable = true := by
  unfold screenResolvedAddrs at h
  split at h
  · cases h
  rename_i hfind
  cases h
  intro addr haddr
  have hnone := find?_eq_none.mp hfind addr haddr
  simpa using hnone

end Guard

/-! ## Names that the resolver screens -/

theorem toLower_beq_bracket {bracket : Char} (h : bracket = '[' ∨ bracket = ']') (c : Char) :
    (c.toLower == bracket) = (c == bracket) := by
  rcases Text.toLower_cases c with hsame | ⟨hlow, hhigh, hlower⟩
  · rw [hsame]
  have hcode : bracket.toNat = 91 ∨ bracket.toNat = 93 := by
    rcases h with rfl | rfl
    · exact .inl rfl
    · exact .inr rfl
  have hne : c.toLower ≠ bracket := by
    rintro rfl
    omega
  have hne' : c ≠ bracket := by
    rintro rfl
    omega
  rw [beq_eq_false_iff_ne.mpr hne, beq_eq_false_iff_ne.mpr hne']

theorem normalizedHost_toAsciiLowercase (host : Text) :
    normalizedHost (Text.toAsciiLowercase host) = normalizedHost host := by
  have hopen : (· == '[') ∘ Char.toLower = (· == '[') := funext (toLower_beq_bracket (.inl rfl))
  have hclose : (· == ']') ∘ Char.toLower = (· == ']') := funext (toLower_beq_bracket (.inr rfl))
  have hcut : ((Text.toAsciiLowercase (Text.trim host)).dropWhile (· == '[')).rdropWhile
      (· == ']') =
      Text.toAsciiLowercase (((Text.trim host).dropWhile (· == '[')).rdropWhile (· == ']')) := by
    rw [Text.toAsciiLowercase, dropWhile_map, hopen, Text.rdropWhile_map, hclose]
    rfl
  rw [normalizedHost, normalizedHost, Text.trim_toAsciiLowercase, hcut, Text.toAsciiLowercase_idem]

section Chains

variable [UrlParser]

/-- The resolver of a client with these exemptions hands out public addresses of
a name only, whatever the DNS answers. -/
def Screened (exemptHosts : ConfiguredHosts) (name : Text) : Prop :=
  ∀ answer addrs, resolve exemptHosts name answer = .ok addrs →
    ∀ addr ∈ addrs, addr.isGloballyRoutable = true

omit [UrlParser] in
theorem screened_of_not_contains {exemptHosts : ConfiguredHosts} {name : Text}
    (h : exemptHosts.contains name = false) : Screened exemptHosts name := by
  intro answer addrs hresolve
  have hlower : exemptHosts.contains (Text.toAsciiLowercase name) = false := by
    rw [ConfiguredHosts.contains, normalizedHost_toAsciiLowercase]
    exact h
  simp only [resolve, hlower] at hresolve
  exact screenResolvedAddrs_eq_ok hresolve

namespace RedirectGuard

/-- A target that the configuration names, a public address, or a name that no
proxy resolves and the resolver screens. -/
def Lands (guard : RedirectGuard) (target : Url) : Prop :=
  target.asciiOrigin ∈ guard.origins ∨
    (∃ addr, ipLiteral target = some addr ∧ addr.isGloballyRoutable = true) ∨
    ∃ name, target.host = some (.domain name) ∧ selectProxy guard.proxies target = none ∧
      Screened guard.exemptHosts name

/-- A change of origin that a trusted repository makes over HTTPS. -/
structure Trusts (guard : RedirectGuard) (issuer target : Url) : Prop where
  trusted : issuer.asciiOrigin ∈ guard.origins ∨ guard.rootIssuer = some issuer.asciiOrigin
  secure : issuer.scheme = "https" ∧ target.scheme = "https"
  lands : guard.Lands target

variable {guard : RedirectGuard} {target : Url}

theorem lands_of_screenTarget {issuerOrigin : Text}
    (h : guard.screenTarget target issuerOrigin = .ok ()) : guard.Lands target := by
  have hliteral : ∀ addr, ipLiteral target = some addr →
      nonGlobalLiteralTarget target guard.origins = none → guard.Lands target := by
    intro addr haddr hnone
    simp only [nonGlobalLiteralTarget, haddr] at hnone
    split at hnone
    · rename_i hallowed
      simp only [Bool.or_eq_true, decide_eq_true_eq] at hallowed
      rcases hallowed with hglobal | horigin
      · exact .inr (.inl ⟨addr, haddr, hglobal⟩)
      · exact .inl horigin
    · cases hnone
  unfold screenTarget at h
  cases hhost : target.host with
  | none => simp [hhost] at h
  | some host =>
    cases host with
    | ipv4 addr | ipv6 addr =>
      refine hliteral _ (by rw [ipLiteral, hhost]) ?_
      cases hnone : nonGlobalLiteralTarget target guard.origins with
      | none => rfl
      | some rejection => simp [hhost, hnone] at h
    | domain name =>
      simp only [hhost] at h
      split at h
      · rename_i horigin
        exact .inl horigin
      split at h
      · cases h
      rename_i hproxy
      split at h
      · cases h
      rename_i hexempt
      refine .inr (.inr ⟨name, hhost, ?_, ?_⟩)
      · simpa using hproxy
      · exact screened_of_not_contains (by simpa using hexempt)

theorem evaluate_eq_ok {previous : List Url} (h : guard.evaluate previous target = .ok ()) :
    previous.length < maxRedirectHops ∧ ∃ issuer, previous.getLast? = some issuer ∧
      (UrlParser.sameOrigin issuer target = true ∨ changes previous = [] ∧
        guard.Trusts issuer target) := by
  unfold evaluate at h
  simp only at h
  split at h
  · cases h
  rename_i hlength
  refine ⟨Nat.lt_of_not_le hlength, ?_⟩
  split at h
  · cases h
  rename_i issuer hissuer
  refine ⟨issuer, hissuer, ?_⟩
  split at h
  · rename_i hsame
    exact .inl hsame
  split at h
  · cases h
  rename_i hcrossed
  split at h
  · cases h
  rename_i hconfigured
  split at h
  · cases h
  rename_i hissuerScheme
  split at h
  · cases h
  rename_i htargetScheme
  refine .inr ⟨?_, ⟨?_, ⟨?_, ?_⟩, lands_of_screenTarget h⟩⟩
  · rw [changes, filter_eq_nil_iff]
    rw [any_eq_true, not_exists] at hcrossed
    exact fun pair hpair hne => hcrossed pair ⟨hpair, hne⟩
  · by_contra hnone
    simp only [not_or] at hnone
    exact hconfigured hnone
  · exact not_not.mp hissuerScheme
  · exact not_not.mp htargetScheme

end RedirectGuard

variable {previous : List Url} {issuer : Url}

omit [UrlParser] in
theorem hops_concat (h : previous.getLast? = some issuer) (target : Url) :
    hops (previous ++ [target]) = hops previous ++ [(issuer, target)] := by
  induction previous with
  | nil => cases h
  | cons url previous ih =>
    cases previous with
    | nil =>
      obtain rfl : url = issuer := by simpa using h
      rfl
    | cons next previous =>
      have htail := ih (by simpa using h)
      simp only [hops, cons_append, tail_cons, zip_cons_cons] at htail ⊢
      rw [htail]

theorem changes_concat (h : previous.getLast? = some issuer) (target : Url) :
    changes (previous ++ [target]) =
      changes previous ++
        if UrlParser.sameOrigin issuer target then [] else [(issuer, target)] := by
  rw [changes, hops_concat h, filter_append]
  cases hsame : UrlParser.sameOrigin issuer target <;> simp [changes, hsame]

/-- Whatever chain of redirects the guard lets a request follow is short and
changes its origin once at most, as a trusted repository says and to a target
that is configured or public. -/
theorem RedirectGuard.Follows.safe {guard : RedirectGuard} {chain : List Url}
    (h : guard.Follows chain) :
    (hops chain).length ≤ maxRedirectHops ∧ (changes chain).length ≤ 1 ∧
      ∀ issuer target, (issuer, target) ∈ changes chain → guard.Trusts issuer target := by
  have hlength : (hops chain).length = chain.length - 1 := by
    simp [hops]
  rw [hlength]
  clear hlength
  induction h with
  | start url => exact ⟨Nat.zero_le _, Nat.zero_le _, by simp [changes, hops]⟩
  | @hop previous target hprevious hevaluate ih =>
    obtain ⟨-, hcount, htrusts⟩ := ih
    obtain ⟨hshort, issuer, hissuer, hcases⟩ := evaluate_eq_ok hevaluate
    rw [changes_concat hissuer]
    refine ⟨?_, ?_⟩
    · rw [length_append, length_singleton]
      omega
    rcases hcases with hsame | ⟨hnone, htrust⟩
    · rw [if_pos hsame, append_nil]
      exact ⟨hcount, htrusts⟩
    · rw [hnone, nil_append]
      split
      · exact ⟨Nat.zero_le _, by simp⟩
      · refine ⟨Nat.le_refl _, fun issuer' target' hmem => ?_⟩
        obtain ⟨rfl, rfl⟩ : issuer' = issuer ∧ target' = target := by simpa using hmem
        exact htrust

end Chains

section Witness

local instance plainParser : UrlParser := httpsParser

/-- A configured repository sends a request on to a CDN. -/
theorem RedirectGuard.Follows.safe_cdn : let guard : RedirectGuard :=
      ⟨{"https://repo.example".toList}, none, .new ["repo.example".toList], []⟩
    let repo := httpsUrl "repo.example" "/a"
    let cdn := httpsUrl "cdn.example" "/a"
    guard.Follows [repo, cdn] ∧ guard.Trusts repo cdn := by
  intro guard repo cdn
  have hfollows : guard.Follows [repo, cdn] :=
    RedirectGuard.Follows.hop (.start repo) (by decide +kernel)
  have hmem : (repo, cdn) ∈ changes [repo, cdn] := by decide +kernel
  exact ⟨hfollows, hfollows.safe.2.2 repo cdn hmem⟩

end Witness

end Raeva.Repo
