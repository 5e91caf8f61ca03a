import Raeva.Library.Forest
import Raeva.Maven.Text

/-!
# What a model build reads from outside the POMs

The platform, the JDK, the allowed environment variables and the Linux release
a model is built for.  What a build read of them is recorded apart.
-/

namespace Raeva.Model

/-- What os-maven-plugin reads of the build machine's Linux release. -/
structure LinuxRelease where
  id : Text
  version : Option Text
  like : List Text
  deriving DecidableEq

structure ModelEnvironment where
  /-- The Rust names of the operating system and the architecture. -/
  platform : Option (Text × Text)
  javaVersion : Option Text
  systemProperties : Table Text Text
  /-- The values of the allowed variables. -/
  env : Table Text Text
  allowed : List Text
  allowAllEnv : Bool
  linuxRelease : Option LinuxRelease
  /-- The `os.detection.classifierWithLikes` of the build. -/
  classifierLikes : Option Text

namespace ModelEnvironment

def defaultJavaVersion : Text := "17"

def hostJavaVersion (environment : ModelEnvironment) : Text :=
  environment.javaVersion.getD defaultJavaVersion

def allowsEnv (environment : ModelEnvironment) (name : Text) : Bool :=
  environment.allowAllEnv || environment.allowed.elem name

def envVar (environment : ModelEnvironment) (name : Text) : Option Text :=
  if environment.allowed.elem name then environment.env.lookup name else none

def classifierLikeEntries (environment : ModelEnvironment) : List Text :=
  match environment.classifierLikes with
  | none => []
  | some likes => ((Text.split likes ',').map Text.trim).filter (!·.isEmpty)

end ModelEnvironment

end Raeva.Model
