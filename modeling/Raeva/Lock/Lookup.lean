import Raeva.Library.Ordered
import Raeva.Maven.Component
import Raeva.Model.Pom

/-!
# Recorded lookups

A `PropertyLookup` of `rv-config/src/maven_config.rs`: an expression of a POM with
the public context that replays what it read.  A lockfile holds it as JSON, which
is written and read by `serde_json`: of the texts only what follows from the two
laws below is used.
-/

namespace Raeva.Lock

open List

inductive LookupMode where
  | property
  | file
  | interpolation
  | model
  deriving DecidableEq

structure FileLookup where
  baseDir : Option Text
  deriving DecidableEq

structure ModelLookup where
  groupId : Text
  artifactId : Text
  version : Text
  packaging : Text
  parent : Option Model.ParentInfo
  build : Model.Build
  prerequisitesMaven : Option Text
  baseDir : Option Text
  deriving DecidableEq

structure PropertyLookup where
  expression : Text
  properties : OrderedMap Text Text
  file : Option FileLookup
  defaultPackaging : Option Text
  source : Model.PropertySource
  mode : LookupMode
  model : Option ModelLookup
  deriving DecidableEq

/-! ## The texts of a lookup -/

def ModelLookup.texts (lookup : ModelLookup) : List Text :=
  [lookup.groupId, lookup.artifactId, lookup.version, lookup.packaging] ++
    (lookup.parent.map fun parent => [parent.groupId, parent.artifactId, parent.version]).getD [] ++
    lookup.build.fields.reduceOption ++ lookup.prerequisitesMaven.toList ++ lookup.baseDir.toList

namespace PropertyLookup

/-- The strings of a lookup, the names of its properties included. -/
def texts (lookup : PropertyLookup) : List Text :=
  lookup.expression :: (lookup.properties.entries.flatMap fun entry => [entry.1, entry.2]) ++
    (lookup.file.bind (·.baseDir)).toList ++ lookup.defaultPackaging.toList ++
    (lookup.model.map ModelLookup.texts).getD []

/-- The texts of a lookup hold no character that a terminal would hide or reorder, but
for the control characters that JSON escapes. -/
def isPrintable (lookup : PropertyLookup) : Bool :=
  lookup.texts.flatten.all fun c => decide (c.toNat < 0x20) || !isUnsafeChar c

end PropertyLookup

/-- The JSON of a lookup, `serde_json::to_string` and `serde_json::from_str` for
`PropertyLookup`. -/
class LookupCodec where
  encode : PropertyLookup → Text
  parse : Text → Option PropertyLookup

def PropertyLookup.encode [LookupCodec] (lookup : PropertyLookup) : Text :=
  LookupCodec.encode lookup

class LawfulLookupCodec [LookupCodec] : Prop where
  /-- A lookup is read back from its text. -/
  parse_encode : ∀ lookup : PropertyLookup, LookupCodec.parse lookup.encode = some lookup
  /-- The text holds the characters of the strings, but for the control characters. -/
  isTerminalSafe_encode : ∀ lookup : PropertyLookup,
    isTerminalSafe lookup.encode = lookup.isPrintable

theorem PropertyLookup.encode_injective [LookupCodec] [LawfulLookupCodec] :
    Function.Injective encode := by
  intro a b h
  have hparse := LawfulLookupCodec.parse_encode a
  rw [h, LawfulLookupCodec.parse_encode b] at hparse
  exact (Option.some.inj hparse).symm

end Raeva.Lock
