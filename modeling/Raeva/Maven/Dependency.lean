import Raeva.Maven.Coord

/-!
# Dependency declarations

`Scope`, `Dependency` and the parts of an effective project model that the
resolver reads.
-/

namespace Raeva

inductive Scope where
  | compile
  | runtime
  | test
  | provided
  | system
  | import
  deriving DecidableEq

def Scope.parse (s : Text) : Scope :=
  let trimmed := Text.trim s
  if trimmed = "runtime" then .runtime
  else if trimmed = "test" then .test
  else if trimmed = "provided" then .provided
  else if trimmed = "system" then .system
  else if trimmed = "import" then .import
  else .compile

structure Exclusion where
  groupId : Text
  artifactId : Text
  deriving DecidableEq

structure Dependency where
  groupId : Text
  artifactId : Text
  version : Option Text
  type : Option Text
  classifier : Option Text
  scope : Option Text
  optional : Option Text
  exclusions : List Exclusion
  systemPath : Option Text
  deriving DecidableEq

namespace Dependency

def effectiveScope (dep : Dependency) : Scope :=
  match dep.scope.map Text.trim with
  | none => .compile
  | some s => if s.isEmpty then .compile else .parse s

def jarTypes : List Text :=
  ["test-jar", "maven-plugin", "ejb", "ejb-client",
    "java-source", "javadoc"]

def effectiveType (dep : Dependency) : Text :=
  match dep.type with
  | none => "jar"
  | some value => if value ∈ jarTypes || value.isEmpty then "jar" else value

def effectiveClassifier (dep : Dependency) : Option Text :=
  match dep.classifier.filter (!·.isEmpty) with
  | some classifier => some classifier
  | none =>
    if dep.type = some "test-jar".toList then some "tests"
    else if dep.type = some "ejb-client".toList then some "client"
    else if dep.type = some "java-source".toList then some "sources"
    else if dep.type = some "javadoc".toList then some "javadoc"
    else none

def includesDependencies (dep : Dependency) : Bool :=
  dep.type = some "war".toList || dep.type = some "ear".toList || dep.type = some "rar".toList

def effectiveOptional (dep : Dependency) : Bool :=
  dep.optional.any (Text.eqIgnoreAsciiCase · "true")

def isFollowedTransitively (dep : Dependency) : Bool :=
  !dep.effectiveOptional && !(dep.effectiveScope = .test || dep.effectiveScope = .provided)

end Dependency

structure Relocation where
  groupId : Option Text
  artifactId : Option Text
  version : Option Text
  deriving DecidableEq

structure Project where
  groupId : Text
  artifactId : Text
  version : Text
  dependencies : List Dependency
  dependencyManagement : List Dependency
  relocation : Option Relocation
  deriving DecidableEq

def Project.new (groupId artifactId version : Text) : Project where
  groupId := groupId
  artifactId := artifactId
  version := version
  dependencies := []
  dependencyManagement := []
  relocation := none

end Raeva
