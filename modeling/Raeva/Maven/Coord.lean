import Raeva.Maven.Version

/-!
# Coordinates

`Coord` of `rv-maven-types` and the conflict key the resolver derives from it.
Rust compares the versions of two `Coord`s by Maven's order; the equality here
is that of the texts, which is `ExactCoord` and `same_text` in the source.
-/

namespace Raeva

structure Coord where
  groupId : Text
  artifactId : Text
  version : Version
  packaging : Option Text
  classifier : Option Text
  deriving DecidableEq

namespace Coord

/-- The text `group:artifact:version`, as messages name a POM. -/
def gav (coord : Coord) : Text :=
  Text.join [':'] [coord.groupId, coord.artifactId, coord.version.original]

def display (coord : Coord) : Text :=
  coord.gav ++ match coord.packaging, coord.classifier with
    | some packaging, some classifier => ':' :: (packaging ++ ':' :: classifier)
    | some packaging, none => ':' :: packaging
    | none, some classifier => "::" ++ classifier
    | none, none => []

def parse (s : Text) : Except VersionError Coord :=
  let trimmed := Text.trim s
  let invalid := VersionError.invalidCoord trimmed
  match (Text.split trimmed ':').map Text.trim with
  | groupId :: artifactId :: version :: rest => do
      let (packaging, classifier) ←
        match rest with
        | [] => Except.ok (none, none)
        | [packaging] =>
          if packaging.isEmpty then .error invalid else .ok (some packaging, none)
        | [packaging, classifier] =>
          if classifier.isEmpty then .error invalid
          else .ok (if packaging.isEmpty then none else some packaging, some classifier)
        | _ => .error invalid
      if groupId.isEmpty || artifactId.isEmpty || version.isEmpty then .error invalid
      else
        match Version.parse version with
        | .ok version => .ok { groupId, artifactId, version, packaging, classifier }
        | .error _ => .error invalid
  | _ => .error invalid

end Coord

def coordText (coord : Coord) : Text × Text × Text × Option Text × Option Text :=
  (coord.groupId, coord.artifactId, coord.version.original, coord.packaging, coord.classifier)

def sameText (a b : Coord) : Bool :=
  coordText a == coordText b

@[simp] theorem sameText_iff {a b : Coord} : sameText a b = true ↔ a = b := by
  constructor
  · intro h
    obtain ⟨ga, aa, ⟨va⟩, pa, ca⟩ := a
    obtain ⟨gb, ab, ⟨vb⟩, pb, cb⟩ := b
    simpa [sameText, coordText] using h
  · rintro rfl
    simp [sameText]

/-- What Maven's conflict mediation keys an artifact by. -/
structure CoordKey where
  groupId : Text
  artifactId : Text
  packaging : Option Text
  classifier : Option Text
  deriving DecidableEq

/-- A `maven-plugin` uses the `jar` extension, so it competes with a plain jar. -/
def CoordKey.ofCoord (coord : Coord) : CoordKey where
  groupId := coord.groupId
  artifactId := coord.artifactId
  packaging :=
    if coord.packaging = some "jar".toList || coord.packaging = some "maven-plugin".toList then none
    else coord.packaging
  classifier := coord.classifier

end Raeva
