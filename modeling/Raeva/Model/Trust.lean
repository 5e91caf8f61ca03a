import Mathlib.Data.Finset.SDiff
import Raeva.Model.Congruence
import Raeva.Model.Inheritance
import Raeva.Model.ProjectInfo

/-!
# The values that fetched POMs chose

A repository that the project declares keeps the project's trust only if no
POM fetched from a repository chose a value that its URL takes.
`FetchedValues` records, while a parent chain is merged, who set what, and
`chose` follows the names of a text through it.
-/

namespace Raeva.Model

/-- Which values of an effective model a fetched POM chose. -/
structure FetchedValues where
  any : Bool
  /-- The properties whose last definition is a fetched POM's. -/
  keys : Finset Text
  groupId : Option (Bool × Text)
  version : Option (Bool × Text)
  /-- The fields of the last POM that are not inherited, as written. -/
  own : List (Text × Text)
  build : Table Text (Bool × Text)

def Pom.isFetched (pom : Pom) (input : Bool) : Bool :=
  match pom.provenance with
  | some provenance => !provenance.isLocal
  | none => !input

def Pom.parentFields (pom : Pom) : List (Text × Text) :=
  match pom.parent with
  | none => []
  | some parent =>
    [("parent.groupId", parent.groupId), ("parent.artifactId", parent.artifactId),
      ("parent.version", parent.version)]

def Pom.ownFields (pom : Pom) : List (Text × Text) :=
  (pom.artifactId.map fun artifactId => ("artifactId".toList, artifactId)).toList ++
    ("packaging".toList, pom.packaging.getD "jar".toList) :: pom.parentFields

namespace FetchedValues

def start : FetchedValues := ⟨false, ∅, none, none, [], ∅⟩

def record (values : FetchedValues) (pom : Pom) (input : Bool) : FetchedValues :=
  let fetched := pom.isFetched input
  { any := values.any || fetched
    keys := if fetched then values.keys ∪ pom.properties.keys.toFinset
      else values.keys \ pom.properties.keys.toFinset
    groupId := (pom.groupId.map fun groupId => (fetched, groupId)).or values.groupId
    version := (pom.version.map fun version => (fetched, version)).or values.version
    own := pom.ownFields
    build := (Build.names.zip pom.build.fields).foldl (fun build field =>
      match field.2 with
      | some value => build.insert field.1 (fetched, value)
      | none => build) values.build }

def ofChain : Pom → List Pom → Bool → FetchedValues
  | pom, [], input => start.record pom input
  | pom, parent :: ancestors, input => (ofChain parent ancestors false).record pom input

def buildField (values : FetchedValues) (field : Text) : Option (Bool × Text) :=
  match values.build.lookup field with
  | some value => some value
  | none => (superPomBuild field).map fun value => (false, value)

/-- What a name leads to: a value that a fetched POM chose, no value of the
model, or a text to follow. -/
inductive Traced where
  | chosen
  | nothing
  | text (raw : Text)
  deriving DecidableEq

def Traced.ofValue : Option (Bool × Text) → Traced
  | some (true, _) => .chosen
  | some (false, raw) => .text raw
  | none => .nothing

def buildName (field : Text) : Option Text :=
  (Text.stripPrefix field "build.").filter (Build.names.elem ·)

/-- The model fields that the input POM's directory decides. -/
def localFields : List Text :=
  ["basedir", "baseUri"]

section Trace

variable (values : FetchedValues) (properties : Table Text Text) (ctx : ActivationContext)

/-- A name read as a property: a user or settings property, a fetched POM's, one
of the project's, or else what `absent` says. -/
def traceProperty (name : Text) (absent : Traced) : Traced :=
  match (ctx.properties.lookup name).or (ctx.settingsProperties.lookup name) with
  | some value => .text value
  | none =>
    if name ∈ values.keys then .chosen
    else
      match properties.lookup name with
      | some value => .text value
      | none => absent

def traceUnprefixed (aliased : Bool) (name : Text) : Traced :=
  if name = "groupId" then .ofValue values.groupId
  else if name = "version" then .ofValue values.version
  else
    match values.own.lookup name with
    | some raw => .text raw
    | none =>
      match if aliased then none else buildName name with
      | some field => .ofValue (values.buildField field)
      | none => .nothing

def traceModel (name : Text) (value : Option (Bool × Text)) : Traced :=
  if value.isSome then .ofValue value else values.traceProperty properties ctx name .nothing

def trace (name : Text) : Traced :=
  if Text.contains name opening then .chosen
  else
    match propertyAlias name with
    | some key => values.traceProperty properties ctx key (values.traceUnprefixed true key)
    | none =>
      match modelField name with
      | none => values.traceProperty properties ctx name (values.traceUnprefixed false name)
      | some field =>
        if field = "groupId" then values.traceModel properties ctx name values.groupId
        else if field = "version" then
          values.traceModel properties ctx name values.version
        else
          match values.own.lookup field with
          | some raw => .text raw
          | none =>
            if field ∈ localFields then .nothing
            else
              match buildName field with
              | some build => values.traceModel properties ctx name (values.buildField build)
              -- an untracked model field counts as chosen
              | none => .chosen

/-- Follow the names of a text, `left` levels deep; `none` once a value that a
fetched POM chose is reached, or the budget of names is spent. -/
def choseWithin : ℕ → Text → ℕ → Option ℕ
  | 0, _, _ => none
  | left + 1, text, budget =>
    (expressionNames text).foldlM (fun budget name =>
      if budget = 0 then none
      else
        match values.trace properties ctx name with
        | .chosen => none
        | .nothing => some (budget - 1)
        | .text raw => choseWithin left raw (budget - 1)) budget

def chose (text : Text) : Bool :=
  values.any && (values.choseWithin properties ctx 17 text 10000).isNone

end Trace

end FetchedValues

/-! ## The URL of a repository -/

/-- A parent chain: the input POM and its ancestors, nearest first, with their
active profiles injected. -/
structure Chain where
  root : Pom
  ancestors : List Pom

namespace Chain

def effective (chain : Chain) : Pom :=
  assemble chain.root chain.ancestors

def fetchedValues (chain : Chain) : FetchedValues :=
  .ofChain chain.root chain.ancestors true

def chose (chain : Chain) (ctx : ActivationContext) (text : Text) : Bool :=
  chain.fetchedValues.chose chain.effective.properties ctx text

def modelProperties (chain : Chain) (ctx : ActivationContext) : Table Text Text :=
  ctx.modelProperties chain.effective.properties

def projectInfo [Lowercase] (chain : Chain) (ctx : ActivationContext) : Charged ProjectInfo :=
  Model.projectInfo chain.effective (chain.modelProperties ctx) ctx

def interpolate [Lowercase] (chain : Chain) (ctx : ActivationContext) (text : Text) :
    Charged Text := do
  let project ← chain.projectInfo ctx
  interpolateStr (chain.modelProperties ctx) project text

end Chain

end Raeva.Model
