import Raeva.Model.Pom

/-!
# The coordinates of a model

The coordinates of an effective model are interpolated one after the other; the
one being expanded reads as empty, the ones before it as expanded and the ones
after it as written.  Every interpolation over the model's properties is
charged to them.
-/

namespace Raeva.Model

abbrev Charged (α : Type) := Attempt ℕ PomError α

/-- One interpolation over a model's properties, charged to them. -/
def expandCharged (props : Table Text Text) (lookup : Lookup) (input : Text) : Charged Text :=
  fun expanded =>
    let result := (PropertyMap.mk props expanded).expand input lookup
    (result.1, result.2.expanded)

def interpolateStrWith (props : Table Text Text) (lookup : Lookup) (input : Text) : Charged Text :=
  if Text.byteLen input ≤ maxInterpolationLength ∧ !Text.contains input opening then pure input
  else expandCharged props lookup input

def interpolateStr (props : Table Text Text) (project : ProjectInfo) (input : Text) :
    Charged Text :=
  interpolateStrWith props (.ofProject project) input

def namesItself (value field : Text) : Bool :=
  ["project.".toList, "pom.".toList, []].any fun start =>
    Text.contains value (opening ++ start ++ field ++ ['}'])

def expandCoordinate (props : Table Text Text) (project : ProjectInfo) (raw field : Text) :
    Charged Text := do
  let value ← interpolateStr props project raw
  let value := Text.trim value
  if value.isEmpty || namesItself value field then
    Attempt.fail (.invalidModel (field ++ " must not be empty"))
  else pure value

def expandParent (props system : Table Text Text) (environment : ModelEnvironment)
    (parent : Parent) : Charged ParentInfo := do
  let lookup : Lookup := ⟨none, some system, some environment, true⟩
  let groupId ← interpolateStrWith props lookup parent.groupId
  let artifactId ← interpolateStrWith props lookup parent.artifactId
  let version ← interpolateStrWith props lookup parent.version
  pure ⟨groupId, artifactId, version⟩

def parentInfo (props system : Table Text Text) (environment : ModelEnvironment) :
    Option Parent → Charged (Option ParentInfo)
  | none => pure none
  | some parent => do
      let info ← expandParent props system environment parent
      pure (some info)

/-- A field the POM, or else its parent reference, must give. -/
def required (value : Option Text) (field : Text) : Charged Text :=
  match value with
  | some value => pure value
  | none => Attempt.fail (.missingField field)

/-- The coordinates of a model as written, before any is expanded. -/
def rawInfo (pom : Pom) (groupId artifactId version : Text) (parent : Option ParentInfo)
    (basedir : Option Text) (system : Table Text Text) (environment : ModelEnvironment) :
    ProjectInfo where
  groupId := Text.trim groupId
  artifactId := Text.trim artifactId
  version := Text.trim version
  packaging := Text.trim (pom.packaging.getD "jar")
  parent := parent
  basedir := basedir
  build := pom.build
  systemProperties := system
  environment := environment
  prerequisitesMaven := pom.prerequisitesMaven

def expandCoordinates (props : Table Text Text) (groupId artifactId version packaging : Text)
    (project : ProjectInfo) : Charged ProjectInfo := do
  let group ← expandCoordinate props { project with groupId := [] } groupId "groupId"
  let project := { project with groupId := group }
  let artifact ←
    expandCoordinate props { project with artifactId := [] } artifactId "artifactId"
  let project := { project with artifactId := artifact }
  let version ← expandCoordinate props { project with version := [] } version "version"
  let project := { project with version := version }
  let packaging ← interpolateStr props { project with packaging := [] } packaging
  pure { project with packaging := Text.trim packaging }

/-- The interpolated coordinates of a model.  A child without its own group or
version takes the ones its parent reference names. -/
def projectInfoIn (pom : Pom) (props : Table Text Text) (basedir : Option Text)
    (system : Table Text Text) (environment : ModelEnvironment) : Charged ProjectInfo := do
  let parent ← parentInfo props system environment pom.parent
  let groupId ← required (pom.groupId.or (pom.parent.map (·.groupId))) "groupId"
  let artifactId ← required pom.artifactId "artifactId"
  let version ← required (pom.version.or (pom.parent.map (·.version))) "version"
  expandCoordinates props groupId artifactId version (pom.packaging.getD "jar")
    (rawInfo pom groupId artifactId version parent basedir system environment)

def projectInfo [Lowercase] (pom : Pom) (props : Table Text Text) (ctx : ActivationContext) :
    Charged ProjectInfo :=
  projectInfoIn pom props ctx.baseDir ctx.interpolationSystemProperties ctx.modelEnvironment

end Raeva.Model
