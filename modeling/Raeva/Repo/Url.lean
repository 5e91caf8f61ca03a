import Raeva.Maven.Text

/-!
# URLs

What raeva reads of a URL that the `url` crate parsed, and the parser itself as
a parameter.  Nothing relates the parts of a URL to each other or to the text it
was parsed from, so what is proved holds for every parser.
-/

namespace Raeva

structure Ipv4Addr where
  first : UInt8
  second : UInt8
  third : UInt8
  fourth : UInt8
  deriving DecidableEq

structure Ipv6Addr where
  first : UInt16
  second : UInt16
  third : UInt16
  fourth : UInt16
  fifth : UInt16
  sixth : UInt16
  seventh : UInt16
  eighth : UInt16
  deriving DecidableEq

inductive IpAddr where
  | v4 (addr : Ipv4Addr)
  | v6 (addr : Ipv6Addr)
  deriving DecidableEq

inductive Host where
  | domain (name : Text)
  | ipv4 (addr : Ipv4Addr)
  | ipv6 (addr : Ipv6Addr)
  deriving DecidableEq

structure Url where
  /-- The URL as it is written after parsing. -/
  text : Text
  scheme : Text
  host : Option Host
  hostStr : Option Text
  portOrKnownDefault : Option ℕ
  path : Text
  /-- The origin as it is written. -/
  asciiOrigin : Text
  deriving DecidableEq

/-- The URL parser, what it says of origins and of the secrets of a URL. -/
class UrlParser where
  parse : Text → Option Url
  /-- A URL with another path, as it is written. -/
  withPath : Url → Text → Text
  /-- A URL as it is shown, without its secrets. -/
  redactUrl : Text → Text
  /-- The part of a URL that may carry a secret. -/
  secretUrlPart : Text → Option Text
  /-- The name of an input whose value is in the path of a URL. -/
  secretInputInPath : Text → List (Text × Text) → Option Text
  sameOrigin : Url → Url → Bool
  sameOrigin_trans {a b c : Url} : sameOrigin a b = true → sameOrigin b c = true →
    sameOrigin a c = true

def httpsUrl (host path : Text) : Url where
  text := "https://" ++ host ++ path
  scheme := "https"
  host := some (.domain host)
  hostStr := some host
  portOrKnownDefault := some 443
  path := path
  asciiOrigin := "https://" ++ host

/-- A parser of `https://host/path`, with no secrets. -/
@[reducible] def httpsParser : UrlParser where
  parse text := do
    let rest ← Text.stripPrefix text "https://"
    let (host, path) ← Text.splitOnce rest '/'
    return httpsUrl host ('/' :: path)
  withPath url path := url.text ++ path
  redactUrl := id
  secretUrlPart _ := none
  secretInputInPath _ _ := none
  sameOrigin a b := a.asciiOrigin == b.asciiOrigin
  sameOrigin_trans hab hbc := by
    rw [beq_iff_eq] at hab hbc ⊢
    exact hab.trans hbc

def Url.isHttp (url : Url) : Bool :=
  url.scheme = "http" || url.scheme = "https"

section Parser

variable [UrlParser]

def normalizeRepoUrl (url : Text) : Text :=
  let trimmed := Text.trim url
  match (UrlParser.parse trimmed).filter (·.scheme = "file".toList) with
  | some file =>
    if Text.endsWith file.path ['/'] then file.text
    else UrlParser.withPath file (file.path ++ ['/'])
  | none => if Text.endsWith trimmed ['/'] then trimmed else trimmed ++ ['/']

def httpOrigin (url : Text) : Option Text :=
  ((UrlParser.parse (Text.trim url)).filter Url.isHttp).map Url.asciiOrigin

end Parser

end Raeva
