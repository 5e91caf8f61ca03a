import Raeva.Maven.Dependency
import Raeva.Model.Interpolation

/-!
# POMs

A POM as read, before inheritance and interpolation, with the parts that model
building reads.
-/

namespace Raeva.Model

structure Parent where
  groupId : Text
  artifactId : Text
  version : Text
  deriving DecidableEq

structure Repository where
  id : Option Text
  url : Text
  deriving DecidableEq

structure Profile where
  id : Text
  dependencies : List Dependency
  dependencyManagement : Option (List Dependency)
  repositories : List Repository
  modules : List Text
  properties : Table Text Text
  build : Build

inductive Provenance where
  | rootProject
  | reactorModule
  | localParent
  | remoteParentOfRoot
  | dependency
  | bomImport
  deriving DecidableEq

def Provenance.isLocal : Provenance → Bool
  | .rootProject | .reactorModule | .localParent => true
  | .remoteParentOfRoot | .dependency | .bomImport => false

structure Pom where
  groupId : Option Text
  artifactId : Option Text
  version : Option Text
  packaging : Option Text
  parent : Option Parent
  prerequisitesMaven : Option Text
  dependencies : List Dependency
  dependencyManagement : Option (List Dependency)
  build : Build
  /-- The `<properties>`, with the user properties put over them. -/
  properties : Table Text Text
  profiles : List Profile
  repositories : List Repository
  modules : List Text
  userProperties : Table Text Text
  /-- What the model gives the user properties, which they hide. -/
  shadowedProperties : Table Text Text
  /-- The active profiles, but for those a host value activated and that cannot
  change the resolution. -/
  activeProfiles : List Text
  selectedProfiles : List (List Text)
  provenance : Option Provenance

namespace Pom

def bare (groupId artifactId version : Option Text) : Pom where
  groupId := groupId
  artifactId := artifactId
  version := version
  packaging := none
  parent := none
  prerequisitesMaven := none
  dependencies := []
  dependencyManagement := none
  build := .empty
  properties := ∅
  profiles := []
  repositories := []
  modules := []
  userProperties := ∅
  shadowedProperties := ∅
  activeProfiles := []
  selectedProfiles := []
  provenance := none

end Pom

/-! ## The context of a model build -/

/-- How the command line's properties reach a model. -/
inductive PropertySource where
  | user
  | import
  | system
  deriving DecidableEq

/-- What activation and interpolation read from outside the POM. -/
structure ActivationContext where
  properties : Table Text Text
  environment : ModelEnvironment
  systemProperties : Table Text Text
  baseDir : Option Text
  settingsProperties : Table Text Text

/-- Insert every entry of `other`, whose values win. -/
def extendProperties (properties other : Table Text Text) : Table Text Text :=
  other.entries.foldl (fun merged entry => merged.insert entry.1 entry.2) properties

theorem extendProperties_lookup (properties other : Table Text Text) (key : Text) :
    (extendProperties properties other).lookup key =
      (other.lookup key).or (properties.lookup key) :=
  Table.lookup_foldl_insert other.nodupKeys properties key

def jvmOsName (os : Text) : Text :=
  if os = "linux" then "Linux"
  else if os = "macos" ∨ os = "darwin" then "Mac OS X"
  else if os = "windows" then "Windows 11"
  else if os = "freebsd" then "FreeBSD"
  else if os = "openbsd" then "OpenBSD"
  else if os = "netbsd" then "NetBSD"
  else if os = "dragonfly" then "DragonFly"
  else if os = "solaris" ∨ os = "illumos" then "SunOS"
  else if os = "aix" then "AIX"
  else os

def jvmOsArch (os arch : Text) : Text :=
  let isX64 := arch = "x86_64" ∨ arch = "amd64"
  if (os = "macos" ∨ os = "darwin") ∧ isX64 then "x86_64"
  else if isX64 then "amd64"
  else if arch = "aarch64" ∨ arch = "arm64" then "aarch64"
  else if os = "linux" ∧ arch = "x86" then "i386"
  else arch

namespace ModelEnvironment

def osName (environment : ModelEnvironment) : Option Text :=
  environment.platform.map fun platform => jvmOsName platform.1

def osArch (environment : ModelEnvironment) : Option Text :=
  environment.platform.map fun platform => jvmOsArch platform.1 platform.2

end ModelEnvironment

namespace ActivationContext

def new (environment : ModelEnvironment) : ActivationContext where
  properties := ∅
  environment := environment
  systemProperties := environment.systemProperties
  baseDir := none
  settingsProperties := ∅

def modelProperties (ctx : ActivationContext) (properties : Table Text Text) : Table Text Text :=
  extendProperties (extendProperties properties ctx.settingsProperties) ctx.properties

theorem modelProperties_lookup (ctx : ActivationContext) (properties : Table Text Text)
    (key : Text) :
    (ctx.modelProperties properties).lookup key =
      ((ctx.properties.lookup key).or (ctx.settingsProperties.lookup key)).or
        (properties.lookup key) := by
  rw [modelProperties, extendProperties_lookup, extendProperties_lookup, Option.or_assoc]

end ActivationContext

/-! ## `os.detected` -/

/-- Lower-cased letters and digits only, as os-maven-plugin compares names. -/
def detectorNormalize [Lowercase] (value : Text) : Text :=
  (Lowercase.toLowercase value).filter fun c => c.toNat < 128 && c.isAlphanum

def detectedOsName [Lowercase] (osName : Text) : Option Text :=
  let value := detectorNormalize osName
  let os400 := Text.startsWith value "os400" && !((value.drop 5).head?.any Text.isAsciiDigit)
  match ([("aix", "aix"), ("hpux", "hpux"), ("linux", "linux"), ("mac", "osx"), ("osx", "osx"),
      ("freebsd", "freebsd"), ("openbsd", "openbsd"), ("netbsd", "netbsd"), ("solaris", "sunos"),
      ("sunos", "sunos"), ("windows", "windows"), ("zos", "zos")] : List (String × String)).find?
      fun entry => Text.startsWith value entry.1.toList with
  | some entry => some entry.2.toList
  | none => if os400 then some "os400" else none

def detectedOsArch [Lowercase] (osArch : Text) : Option Text :=
  let value := detectorNormalize osArch
  (([("x8664", "x86_64"), ("amd64", "x86_64"), ("ia32e", "x86_64"), ("em64t", "x86_64"),
    ("x64", "x86_64"), ("x8632", "x86_32"), ("x86", "x86_32"), ("i386", "x86_32"),
    ("i486", "x86_32"), ("i586", "x86_32"), ("i686", "x86_32"), ("ia32", "x86_32"),
    ("x32", "x86_32"), ("ia64", "itanium_64"), ("ia64w", "itanium_64"),
    ("itanium64", "itanium_64"), ("ia64n", "itanium_32"), ("sparc", "sparc_32"),
    ("sparc32", "sparc_32"), ("sparcv9", "sparc_64"), ("sparc64", "sparc_64"), ("arm", "arm_32"),
    ("arm32", "arm_32"), ("aarch64", "aarch_64"), ("mips", "mips_32"), ("mips32", "mips_32"),
    ("mipsel", "mipsel_32"), ("mips32el", "mipsel_32"), ("mips64", "mips_64"),
    ("mips64el", "mipsel_64"), ("ppc", "ppc_32"), ("ppc32", "ppc_32"), ("ppcle", "ppcle_32"),
    ("ppc32le", "ppcle_32"), ("ppc64", "ppc_64"), ("ppc64le", "ppcle_64"), ("s390", "s390_32"),
    ("s390x", "s390_64"), ("riscv", "riscv"), ("riscv32", "riscv"), ("riscv64", "riscv64"),
    ("e2k", "e2k"), ("loongarch64", "loongarch_64")] : List (String × String)).find?
    fun entry => value = entry.1.toList).map fun entry => entry.2.toList

def osDetected [Lowercase] (key : Text) (osName osArch : Option Text) : Option Text :=
  let name := osName.bind detectedOsName
  let arch := osArch.bind detectedOsArch
  if key = "os.detected.name" then name
  else if key = "os.detected.arch" then arch
  else if key = "os.detected.classifier" then
    name.bind fun name => arch.map fun arch => name ++ '-' :: arch
  else none

def osDetectedProperties : List Text :=
  ["os.detected.name", "os.detected.arch", "os.detected.classifier"]

namespace ActivationContext

/-- A system property, without the host's `java.version` and `java.home`, which
the callers answer themselves. -/
def platformProperty (ctx : ActivationContext) (name : Text) : Option Text :=
  match ctx.systemProperties.lookup name with
  | some value => some value
  | none =>
    if name = "os.name" then ctx.environment.osName
    else if name = "os.arch" then ctx.environment.osArch
    else none

def userOrSystemProperty (ctx : ActivationContext) (name : Text) : Option Text :=
  (ctx.properties.lookup name).or (ctx.platformProperty name)

def activationSystemProperties (ctx : ActivationContext) : Table Text Text :=
  let named :=
    [("os.name".toList, ctx.environment.osName), ("os.arch".toList, ctx.environment.osArch)]
  let platform := named.foldl (fun (merged : Table Text Text) entry =>
    match entry.2 with
    | some value => merged.insert entry.1 value
    | none => merged) ∅
  extendProperties platform ctx.systemProperties

def interpolationSystemProperties [Lowercase] (ctx : ActivationContext) : Table Text Text :=
  osDetectedProperties.foldl (fun properties key =>
    if (ctx.systemProperties.lookup key).isSome then properties
    else
      match osDetected key (ctx.userOrSystemProperty "os.name")
          (ctx.userOrSystemProperty "os.arch") with
      | some value => properties.insert key value
      | none => properties) ctx.activationSystemProperties

def modelEnvironment (ctx : ActivationContext) : ModelEnvironment :=
  if (ctx.systemProperties.lookup "os.detected.classifier".toList).isSome then
    { ctx.environment with classifierLikes := none }
  else ctx.environment

end ActivationContext

end Raeva.Model
