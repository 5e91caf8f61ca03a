import Mathlib.Data.Finset.Insert
import Raeva.Library.Attempt
import Raeva.Model.Environment
import Raeva.Model.Expression
import Raeva.Model.Paths

/-!
# Interpolation

`PropertyMap` and the expansion of the expressions of a text: what a key reads,
the values kept for reuse, the cycle check and the limits.  The bookkeeping
that only feeds the record of host reads is left out.
-/

namespace Raeva.Model

inductive PomError where
  | missingField (field : Text)
  /-- The names on the way around the cycle. -/
  | propertyCycle (names : List Text)
  | invalidModel (message : Text)
  deriving DecidableEq

/-! ## What a key can read -/

structure Build where
  directory : Option Text
  finalName : Option Text
  defaultGoal : Option Text
  outputDirectory : Option Text
  testOutputDirectory : Option Text
  sourceDirectory : Option Text
  testSourceDirectory : Option Text
  scriptSourceDirectory : Option Text
  deriving DecidableEq

namespace Build

def empty : Build := ⟨none, none, none, none, none, none, none, none⟩

def names : List Text :=
  ["directory", "finalName", "defaultGoal", "outputDirectory",
    "testOutputDirectory", "sourceDirectory", "testSourceDirectory",
    "scriptSourceDirectory"]

def fields (build : Build) : List (Option Text) :=
  [build.directory, build.finalName, build.defaultGoal, build.outputDirectory,
    build.testOutputDirectory, build.sourceDirectory, build.testSourceDirectory,
    build.scriptSourceDirectory]

def field (build : Build) (name : Text) : Option (Option Text) :=
  (names.zip build.fields).lookup name

end Build

def superPomBuild (field : Text) : Option Text :=
  ["directory".toList, "finalName".toList, "outputDirectory".toList,
    "testOutputDirectory".toList, "sourceDirectory".toList, "testSourceDirectory".toList,
    "scriptSourceDirectory".toList].zip
  ["$\x7bproject.basedir\x7d/target".toList,
    "$\x7bproject.artifactId\x7d-$\x7bproject.version\x7d".toList,
    "$\x7bproject.build.directory\x7d/classes".toList,
    "$\x7bproject.build.directory\x7d/test-classes".toList,
    "$\x7bproject.basedir\x7d/src/main/java".toList,
    "$\x7bproject.basedir\x7d/src/test/java".toList,
    "$\x7bproject.basedir\x7d/src/main/scripts".toList] |>.lookup field

structure ParentInfo where
  groupId : Text
  artifactId : Text
  version : Text
  deriving DecidableEq

structure ProjectInfo where
  groupId : Text
  artifactId : Text
  version : Text
  packaging : Text
  parent : Option ParentInfo
  basedir : Option Text
  /-- The effective `<build>` values, not interpolated. -/
  build : Build
  /-- The `os.*` properties of the platform, below the model's own. -/
  systemProperties : Table Text Text
  environment : ModelEnvironment
  /-- The input POM's `<prerequisites><maven>`, as written. -/
  prerequisitesMaven : Option Text

/-- Where a name missing from the property map is looked up. -/
structure Lookup where
  project : Option ProjectInfo
  systemProperties : Option (Table Text Text)
  environment : Option ModelEnvironment
  /-- Whether `NAME` also reads `env.NAME`, as in model interpolation. -/
  model : Bool

namespace Lookup

def ofProject (project : ProjectInfo) : Lookup where
  project := some project
  systemProperties := none
  environment := none
  model := true

def effectiveEnvironment (lookup : Lookup) : Option ModelEnvironment :=
  lookup.environment.or (lookup.project.map (·.environment))

def platform (lookup : Lookup) : Option (Table Text Text) :=
  lookup.systemProperties.or (lookup.project.map (·.systemProperties))

end Lookup

def resolveUnprefixedModelField (key : Text) (project : Option ProjectInfo) : Option Text :=
  project.bind fun project =>
    if key = "groupId" then
      -- a coordinate is empty only while it is expanded
      some project.groupId |>.filter (!·.isEmpty)
    else if key = "artifactId" then some project.artifactId |>.filter (!·.isEmpty)
    else if key = "version" then some project.version |>.filter (!·.isEmpty)
    else if key = "packaging" then some project.packaging
    else if key = "parent.groupId" then project.parent.map (·.groupId)
    else if key = "parent.artifactId" then project.parent.map (·.artifactId)
    else if key = "parent.version" then project.parent.map (·.version)
    else none

def resolveProjectName (key : Text) (project : Option ProjectInfo) : Option Text :=
  project.bind fun info =>
    if key = "project.basedir" ∨ key = "basedir" then info.basedir
    else if key = "project.baseUri" then info.basedir.map directoryUri
    else (Text.stripPrefix key "project.").bind fun field =>
      resolveUnprefixedModelField field project

def resolveBuiltin (key : Text) (project : Option ProjectInfo) : Option Text :=
  match Text.stripPrefix key "pom." with
  | some field =>
    (resolveProjectName ("project." ++ field) project).or (resolveProjectName key project)
  | none => resolveProjectName key project

def osDetectedOnLinux (key : Text) (lookup : Lookup) : Option Text := do
  let platform ← lookup.platform
  let environment ← lookup.effectiveEnvironment
  if !Text.startsWith key "os.detected." ||
      platform.lookup "os.detected.name".toList ≠ some "linux".toList ||
      (key ≠ "os.detected.classifier" && (platform.lookup key).isSome) then none
  else if key = "os.detected.classifier" then do
    let classifier ← platform.lookup key
    let likes := environment.classifierLikeEntries
    if likes.isEmpty then none
    else do
      let release ← environment.linuxRelease
      let like ← likes.find? (release.like.elem ·)
      some (classifier ++ '-' :: like)
  else if key = "os.detected.release" then environment.linuxRelease.map (·.id)
  else if key = "os.detected.release.version" then
    environment.linuxRelease.bind (·.version)
  else do
    let like ← Text.stripPrefix key "os.detected.release.like."
    let release ← environment.linuxRelease
    if release.like.elem like then some "true" else none

def resolveSystemProperty (key : Text) (lookup : Lookup) : Option Text :=
  match lookup.platform.bind (·.lookup key) with
  | some value => some value
  | none =>
    lookup.effectiveEnvironment.bind fun environment =>
      if key = "java.version" then some environment.hostJavaVersion
      else
        let named := Text.stripPrefix key "env."
        if named.isNone && !lookup.model then none
        else
          let name := named.getD key
          if name.isEmpty || !environment.allowsEnv name then none
          else environment.envVar name

def propertyAlias (key : Text) : Option Text :=
  (Text.stripPrefix key "project.properties.").or
    (Text.stripPrefix key "pom.properties.")

/-! ## One expansion -/

structure Walk where
  /-- The properties being expanded, outermost first. -/
  path : List Text
  resolved : Table Text Text
  build : Table Text Text
  /-- The bytes that `resolved` and `build` hold. -/
  resolvedLen : ℕ
  /-- The property names looked up. -/
  names : Finset Text

def Walk.start : Walk := ⟨[], ∅, ∅, 0, ∅⟩

abbrev Expanding (α : Type) := Attempt Walk PomError α

def maxInterpolationLength : ℕ := 1024 * 1024
def maxInterpolationDepth : ℕ := 100
def maxResolvedLength : ℕ := 4 * maxInterpolationLength
def maxExpandedLength : ℕ := 32 * maxInterpolationLength

def tooLarge : PomError := .invalidModel "property interpolation too large"

def checkLength (output : Text) : Expanding Unit :=
  if maxInterpolationLength < Text.byteLen output then Attempt.fail tooLarge else pure ()

def expandNamed (inner : Text → Expanding Text) (name raw : Text) : Expanding Text := do
  let walk ← Attempt.get
  Attempt.modify fun walk => { walk with path := walk.path ++ [name] }
  if walk.path.elem name then Attempt.fail (.propertyCycle (walk.path ++ [name]))
  else do
    let resolved ← inner raw
    Attempt.modify fun walk => { walk with path := walk.path.dropLast }
    pure resolved

def chargeResolved (name value : Text) : Expanding Unit := do
  Attempt.modify fun walk =>
    { walk with resolvedLen := walk.resolvedLen + (Text.byteLen name + Text.byteLen value) }
  let walk ← Attempt.get
  if maxResolvedLength < walk.resolvedLen then Attempt.fail tooLarge else pure ()

section Resolve

variable (props : Table Text Text) (lookup : Lookup) (inner : Text → Expanding Text)

def buildValue (field : Text) (project : Option ProjectInfo) : Option Text :=
  project.bind fun project =>
    (project.build.field field).bind fun value => value.or (superPomBuild field)

def alignBuild (field resolved : Text) (project : Option ProjectInfo) : Text :=
  match project.bind (·.basedir) with
  | some basedir =>
    if field = "finalName" ∨ field = "defaultGoal" then resolved
    else alignToBaseDirectory resolved basedir
  | none => resolved

def resolveBuild (field : Text) : Expanding (Option Text) :=
  match buildValue field lookup.project with
  | none => pure none
  | some raw => do
      let walk ← Attempt.get
      match walk.build.lookup field with
      | some value => pure (some value)
      | none => do
          let resolved ← expandNamed inner ("project.build." ++ field) raw
          let resolved := alignBuild field resolved lookup.project
          chargeResolved field resolved
          Attempt.modify fun walk => { walk with build := walk.build.insert field resolved }
          pure (some resolved)

def resolvePrerequisite (key : Text) : Expanding (Option Text) :=
  if key = "project.prerequisites.maven" ∨ key = "pom.prerequisites.maven" then
    match lookup.project.bind (·.prerequisitesMaven) with
    | none => pure none
    | some raw => do
        let resolved ← expandNamed inner "project.prerequisites.maven" raw
        pure (some resolved)
  else pure none

def resolveProperty (key raw : Text) : Expanding (Option Text) := do
  let walk ← Attempt.get
  match walk.resolved.lookup key with
  | some value => pure (some value)
  | none => do
      let resolved ← expandNamed inner key raw
      chargeResolved key resolved
      Attempt.modify fun walk => { walk with resolved := walk.resolved.insert key resolved }
      pure (some resolved)

def resolveAbsent (written key : Text) : Expanding (Option Text) :=
  Attempt.firstSome
    [pure (osDetectedOnLinux key lookup), pure (resolveSystemProperty key lookup),
      match Text.stripPrefix written "build." with
      | some field => resolveBuild lookup inner field
      | none => pure none,
      pure (resolveUnprefixedModelField key lookup.project)]

/-- The property a name reads, looked up under the name it stands for. -/
def resolveNamed (written : Text) : Expanding (Option Text) := do
  let key := (propertyAlias written).getD written
  Attempt.modify fun walk => { walk with names := insert key walk.names }
  match props.lookup key with
  | none => resolveAbsent lookup inner written key
  | some raw => resolveProperty inner key raw

def modelBuildField (key : Text) : Option Text :=
  (Text.stripPrefix key "project.build.").or (Text.stripPrefix key "pom.build.")

def resolveValueInner (key : Text) : Expanding (Option Text) :=
  Attempt.firstSome
    [match modelBuildField key with
      | some field => resolveBuild lookup inner field
      | none => pure none,
      pure (resolveBuiltin key lookup.project),
      resolvePrerequisite lookup inner key,
      resolveNamed props lookup inner key]

/-- Append one expression, with the text before it, to the output.  A key with
an expression in it is expanded first, and so is one over a limit, to fail. -/
def substitute (left : ℕ) (output : Text) (part : Text × Text) : Expanding Text := do
  let key ←
    if left ≠ 0 ∧ Text.byteLen part.2 ≤ maxInterpolationLength ∧ !Text.contains part.2 opening then
      pure part.2
    else inner part.2
  let value ← resolveValueInner props lookup inner key
  let output := output ++ part.1 ++ value.getD (opening ++ key ++ ['}'])
  checkLength output
  pure output

end Resolve

def interpolateStrInner (props : Table Text Text) (lookup : Lookup) : ℕ → Text → Expanding Text
  | 0, _ => Attempt.fail (.invalidModel
      "property interpolation depth limit exceeded (max: 100)")
  | left + 1, input => do
      let (parts, rest) := expressions input
      let output ←
        parts.foldlM (substitute props lookup (interpolateStrInner props lookup left) left) []
      checkLength (output ++ rest)
      pure (output ++ rest)

/-! ## Interpolation over a map -/

/-- Properties by name, and how many bytes the interpolations over the map have
expanded. -/
structure PropertyMap where
  props : Table Text Text
  expanded : ℕ

namespace PropertyMap

def get (properties : PropertyMap) (key : Text) : Option Text :=
  properties.props.lookup key

def walkOf (properties : PropertyMap) (input : Text) (lookup : Lookup) :
    Except PomError Text × Walk :=
  interpolateStrInner properties.props lookup maxInterpolationDepth input Walk.start

def spent (properties : PropertyMap) (input : Text) (lookup : Lookup) : ℕ :=
  match properties.walkOf input lookup with
  | (.ok output, walk) => walk.resolvedLen + Text.byteLen output
  | (.error _, _) => 0

def expand (properties : PropertyMap) (input : Text) (lookup : Lookup) :
    Except PomError Text × PropertyMap :=
  let expanded := properties.expanded + properties.spent input lookup
  match (properties.walkOf input lookup).1 with
  | .error e => (.error e, properties)
  | .ok output =>
    if maxExpandedLength < expanded then
      (.error (.invalidModel "property interpolation too large for one model"),
        { properties with expanded })
    else (.ok output, { properties with expanded })

/-- The result of an interpolation and the names it looked up, also those it did
not find. -/
def interpolateNames (properties : PropertyMap) (input : Text) (lookup : Lookup) :
    Except PomError Text × Finset Text :=
  ((properties.expand input lookup).1, (properties.walkOf input lookup).2.names)

/-- Interpolation with exact names: the map, then `java.version` and the allowed
variables of an environment. -/
def replayExactNames (properties : PropertyMap) (input : Text) (environment : ModelEnvironment) :
    Except PomError Text × Finset Text :=
  properties.interpolateNames input ⟨none, none, some environment, false⟩

end PropertyMap

end Raeva.Model
