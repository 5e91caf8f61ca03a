import Raeva.Maven.Text

/-!
# Artifacts and their files

`Gav` and `ArtifactCoord` of `rv-maven-types`, and the layout of a Maven
repository.
-/

namespace Raeva

structure Gav where
  group : Text
  artifact : Text
  version : Text
  deriving DecidableEq

def Gav.display (gav : Gav) : Text :=
  gav.group ++ ':' :: (gav.artifact ++ ':' :: gav.version)

/-- One file of an artifact; an empty classifier is none. -/
structure ArtifactCoord where
  gav : Gav
  extension : Text
  classifier : Option Text
  classifier_ne : classifier ≠ some []
  deriving DecidableEq

namespace ArtifactCoord

def of (gav : Gav) (extension : Text) (classifier : Option Text) : ArtifactCoord where
  gav
  extension
  classifier := classifier.filter (!·.isEmpty)
  classifier_ne := by
    intro h
    simp [Option.filter_eq_some_iff] at h

def groupId (coord : ArtifactCoord) : Text :=
  coord.gav.group

def artifactId (coord : ArtifactCoord) : Text :=
  coord.gav.artifact

def version (coord : ArtifactCoord) : Text :=
  coord.gav.version

def display (coord : ArtifactCoord) : Text :=
  coord.gav.display ++ ':' :: (coord.extension ++ match coord.classifier with
    | some classifier => ':' :: classifier
    | none => [])

/-- The texts that coordinates are sorted by, one after the other; no
classifier comes before any. -/
def sortKey (coord : ArtifactCoord) : List Text :=
  [coord.gav.group, coord.gav.artifact, coord.gav.version, coord.extension,
    coord.classifier.getD []]

theorem sortKey_injective : Function.Injective sortKey := by
  rintro ⟨⟨g, a, v⟩, e, c, hc⟩ ⟨⟨g', a', v'⟩, e', c', hc'⟩ h
  simp only [sortKey, List.cons.injEq, and_true] at h
  obtain ⟨rfl, rfl, rfl, rfl, hclassifier⟩ := h
  have heq : c = c' := by
    cases c <;> cases c' <;> simp_all
  subst heq
  rfl

@[simp] theorem of_classifier (coord : ArtifactCoord) (gav : Gav) (extension : Text) :
    (of gav extension coord.classifier).classifier = coord.classifier := by
  have := coord.classifier_ne
  cases h : coord.classifier with
  | none => rfl
  | some classifier =>
    have hne : classifier ≠ [] := by
      rintro rfl
      exact this h
    simp [of, Option.filter, hne]

theorem of_self (coord : ArtifactCoord) :
    of coord.gav coord.extension coord.classifier = coord := by
  apply sortKey_injective
  simp only [sortKey, of_classifier]
  rfl

end ArtifactCoord

def artifactPathFromParts (group artifact dirVersion fileVersion extension : Text)
    (classifier : Option Text) : Text :=
  let groupPath := group.map fun c => if c = '.' then '/' else c
  let filename := artifact ++ '-' :: (fileVersion ++ (match classifier with
      | some classifier => '-' :: classifier
      | none => []) ++ '.' :: extension)
  Text.join ['/'] [groupPath, artifact, dirVersion, filename]

def artifactPath (coord : ArtifactCoord) (dirVersion fileVersion : Text) : Text :=
  artifactPathFromParts coord.groupId coord.artifactId dirVersion fileVersion coord.extension
    coord.classifier

end Raeva
