import Raeva.Maven.Artifact
import Raeva.Maven.Component
import Raeva.Maven.Snapshot

/-!
# The repository layout

The path of a file below a repository root, `rv-maven-types/src/layout.rs`.
Coordinates that pass the component rules give paths that stay below the root,
and the path alone tells the file of a plain SNAPSHOT from that of one of its
builds.
-/

namespace Raeva

open List

def isMutableSnapshotPath (path : Text) : Bool :=
  match (Text.split path '/').reverse with
  | file :: version :: artifact :: _ =>
    resolvesThroughSnapshotMetadata version &&
      (((Text.stripPrefix file artifact).bind (Text.stripPrefix · ['-'])).bind
        (Text.stripPrefix · version)).any fun suffix => suffix.head?.any fun c =>
          c == '.' || c == '-'
  | _ => false

def fileSuffix (fileVersion extension : Text) (classifier : Option Text) : Text :=
  fileVersion ++ (classifier.elim [] fun classifier => '-' :: classifier) ++ '.' :: extension

/-! ## Segments -/

theorem map_group_eq_join (group : Text) :
    (group.map fun c => if c = '.' then '/' else c) = Text.join ['/'] (Text.split group '.') := by
  have hjoin : Text.join ['.'] (Text.split group '.') = group := intercalate_splitOn '.'
  have hpart : ∀ part ∈ Text.split group '.',
      part.map (fun c => if c = '.' then '/' else c) = part := by
    intro part hpart
    obtain ⟨hdot, -⟩ := Text.mem_split hpart
    nth_rewrite 2 [← map_id part]
    refine map_congr_left fun c hc => if_neg ?_
    rintro rfl
    exact hdot hc
  nth_rewrite 1 [← hjoin]
  rw [Text.map_join, map_congr_left hpart, map_id']
  rfl

theorem artifactPathFromParts_eq (group artifact dirVersion fileVersion extension : Text)
    (classifier : Option Text) :
    artifactPathFromParts group artifact dirVersion fileVersion extension classifier =
      Text.join ['/'] (Text.split group '.' ++
        [artifact, dirVersion,
          artifact ++ '-' :: fileSuffix fileVersion extension classifier]) := by
  rw [Text.join_append (Text.split_ne_nil group '.') (cons_ne_nil _ _), ← map_group_eq_join]
  cases classifier <;> simp [artifactPathFromParts, fileSuffix, Text.join, List.intercalate]

structure ValidParts (group artifact dirVersion fileVersion extension : Text)
    (classifier : Option Text) : Prop where
  group : validateCoordinateComponent .group group = .ok ()
  artifact : validateCoordinateComponent .artifact artifact = .ok ()
  dirVersion : validateCoordinateComponent .version dirVersion = .ok ()
  fileVersion : validateCoordinateComponent .version fileVersion = .ok ()
  extension : validateCoordinateComponent .extension extension = .ok ()
  classifier : ∀ value ∈ classifier, validateCoordinateComponent .classifier value = .ok ()

theorem validateCoordinateComponent_segment {field : CoordinateField} {value : Text}
    (h : validateCoordinateComponent field value = .ok ()) :
    value ≠ [] ∧ value ≠ ['.'] ∧ value ≠ ['.', '.'] := by
  have hne := (validateCoordinateComponent_chars h).1
  rw [validateCoordinateComponent, mapError_eq_ok_iff] at h
  simp only [checkComponent, bind_unit_eq_ok_iff, refuseIf_eq_ok_iff] at h
  obtain ⟨-, -, -, -, -, hend⟩ := h
  refine ⟨hne, ?_, ?_⟩
  · rintro rfl
    cases hend
  · rintro rfl
    cases hend

theorem validateCoordinateComponent_group {group : Text}
    (h : validateCoordinateComponent .group group = .ok ()) :
    ∀ part ∈ Text.split group '.', part ≠ [] := by
  rintro part hpart rfl
  rw [validateCoordinateComponent, mapError_eq_ok_iff] at h
  simp only [checkComponent, bind_unit_eq_ok_iff, refuseIf_eq_ok_iff, isEmpty_eq_false_iff] at h
  obtain ⟨hne, -, -, hdots, hstart, hend⟩ := h
  rcases Text.nil_mem_split hpart with hnil | hfirst | hlast | hinner
  · exact hne hnil
  · rw [Text.startsWith, isPrefixOf_iff_prefix.mpr hfirst] at hstart
    cases hstart
  · rw [Text.endsWith, isSuffixOf_iff_suffix.mpr hlast] at hend
    cases hend
  · have hcontains : Text.contains group ".." = true := Text.contains_of_isInfix hinner
    rw [hcontains] at hdots
    cases hdots

/-- A file version with the timestamp and number of a build of a SNAPSHOT
version. -/
def CarriesBuild (version fileVersion : Text) : Prop :=
  ∃ before timestamp build, isSnapshotTimestamp timestamp = true ∧ isAsciiDigits build = true ∧
    version = before ++ snapshotSuffix ∧ fileVersion = before ++ (timestamp ++ '-' :: build)

/-- The version of a directory and that of a file in it, which differ only for a
timestamped snapshot. -/
def LaidOut (dirVersion fileVersion : Text) : Prop :=
  dirVersion = fileVersion ∨ CarriesBuild dirVersion fileVersion

theorem stripPrefix_timestamp {timestamp : Text} (h : isSnapshotTimestamp timestamp = true)
    (rest : Text) : Text.stripPrefix (timestamp ++ rest) snapshotSuffix = none := by
  unfold isSnapshotTimestamp at h
  split at h
  · rename_i date time hsplit
    obtain ⟨rfl, -⟩ := Text.splitOnce_eq hsplit
    simp only [isAsciiDigits, Bool.and_eq_true, Bool.not_eq_true', isEmpty_eq_false_iff] at h
    obtain ⟨⟨-, hne, hdigits⟩, -⟩ := h
    obtain ⟨digit, date, rfl⟩ := exists_cons_of_ne_nil hne
    have hdigit := all_eq_true.mp hdigits digit mem_cons_self
    cases hstrip : Text.stripPrefix (digit :: date ++ '.' :: time ++ rest) snapshotSuffix with
    | none => rfl
    | some after =>
      rw [Text.stripPrefix_eq_some] at hstrip
      obtain rfl : digit = 'S' := (List.cons.inj hstrip).1
      cases hdigit
  · cases h

theorem not_carriesBuild_self (version : Text) : ¬CarriesBuild version version := by
  rintro ⟨before, timestamp, build, htimestamp, -, hversion, hfile⟩
  rw [hversion, append_cancel_left_eq] at hfile
  have hstrip : Text.stripPrefix snapshotSuffix snapshotSuffix = some [] := by decide
  rw [← append_nil (timestamp ++ '-' :: build), append_assoc] at hfile
  nth_rewrite 1 [hfile] at hstrip
  rw [stripPrefix_timestamp htimestamp] at hstrip
  cases hstrip

/-! ## The path of valid components -/

section Valid

variable {group artifact dirVersion fileVersion extension : Text} {classifier : Option Text}
  (h : ValidParts group artifact dirVersion fileVersion extension classifier)

include h

theorem ValidParts.notMem_fileSuffix {c : Char} (hc : c ∈ forbiddenChars) :
    c ∉ fileSuffix fileVersion extension classifier := by
  have hplain : c ≠ '-' ∧ c ≠ '.' := by
    constructor <;> rintro rfl <;> exact absurd hc (by decide)
  have hfile := notMem_of_validateCoordinateComponent h.fileVersion (.inr hc)
  have hextension := notMem_of_validateCoordinateComponent h.extension (.inr hc)
  cases classifier with
  | none => simp [fileSuffix, hfile, hextension, hplain]
  | some classifier =>
    have hclassifier :=
      notMem_of_validateCoordinateComponent (h.classifier classifier rfl) (.inr hc)
    simp [fileSuffix, hfile, hextension, hclassifier, hplain]

theorem ValidParts.notMem_segment {c : Char} (hc : c ∈ forbiddenChars) :
    ∀ segment ∈ Text.split group '.' ++
      [artifact, dirVersion, artifact ++ '-' :: fileSuffix fileVersion extension classifier],
      c ∉ segment := by
  have hartifact := notMem_of_validateCoordinateComponent h.artifact (.inr hc)
  have hhyphen : c ≠ '-' := by
    rintro rfl
    exact absurd hc (by decide)
  intro segment hsegment
  rcases mem_append.mp hsegment with hpart | hrest
  · intro hmem
    exact notMem_of_validateCoordinateComponent h.group (.inr hc) ((Text.mem_split hpart).2 c hmem)
  simp only [mem_cons, not_mem_nil, or_false] at hrest
  rcases hrest with rfl | rfl | rfl
  · exact hartifact
  · exact notMem_of_validateCoordinateComponent h.dirVersion (.inr hc)
  · simp [hartifact, hhyphen, h.notMem_fileSuffix hc]

theorem ValidParts.split_path :
    Text.split (artifactPathFromParts group artifact dirVersion fileVersion extension classifier)
        '/' =
      Text.split group '.' ++
        [artifact, dirVersion, artifact ++ '-' :: fileSuffix fileVersion extension classifier] := by
  rw [artifactPathFromParts_eq]
  exact splitOn_intercalate '/' (h.notMem_segment (by decide)) (by simp)

theorem ValidParts.segment :
    ∀ segment ∈ Text.split group '.' ++
      [artifact, dirVersion, artifact ++ '-' :: fileSuffix fileVersion extension classifier],
      segment ≠ [] ∧ segment ≠ ['.'] ∧ segment ≠ ['.', '.'] := by
  intro segment hsegment
  rcases mem_append.mp hsegment with hpart | hrest
  · obtain ⟨hdot, -⟩ := Text.mem_split hpart
    refine ⟨validateCoordinateComponent_group h.group segment hpart, ?_, ?_⟩ <;>
      · rintro rfl
        simp at hdot
  · simp only [mem_cons, not_mem_nil, or_false] at hrest
    rcases hrest with rfl | rfl | rfl
    · exact validateCoordinateComponent_segment h.artifact
    · exact validateCoordinateComponent_segment h.dirVersion
    -- a file name has the hyphen after its artifact
    have hhyphen : '-' ∈ artifact ++ '-' :: fileSuffix fileVersion extension classifier := by simp
    refine ⟨?_, ?_, ?_⟩ <;>
      · intro heq
        rw [heq] at hhyphen
        simp at hhyphen

theorem ValidParts.isMutableSnapshotPath_eq :
    isMutableSnapshotPath
        (artifactPathFromParts group artifact dirVersion fileVersion extension classifier) =
      (resolvesThroughSnapshotMetadata dirVersion &&
        (Text.stripPrefix (fileSuffix fileVersion extension classifier) dirVersion).any
          fun suffix => suffix.head?.any fun c => c == '.' || c == '-') := by
  have hhyphen : Text.stripPrefix ('-' :: fileSuffix fileVersion extension classifier) ['-'] =
      some (fileSuffix fileVersion extension classifier) :=
    Text.stripPrefix_append ['-'] _
  unfold isMutableSnapshotPath
  simp only [h.split_path, reverse_append, reverse_cons, reverse_nil,
    nil_append, cons_append, Text.stripPrefix_append, Option.bind_some, hhyphen]

theorem ValidParts.isMutableSnapshotPath_iff (hlaid : LaidOut dirVersion fileVersion) :
    isMutableSnapshotPath
        (artifactPathFromParts group artifact dirVersion fileVersion extension classifier) = true ↔
      resolvesThroughSnapshotMetadata dirVersion = true ∧ ¬CarriesBuild dirVersion fileVersion := by
  rw [h.isMutableSnapshotPath_eq]
  rcases hlaid with rfl | hbuild
  · have hsuffix : (Text.stripPrefix (fileSuffix dirVersion extension classifier) dirVersion).any
        (fun suffix => suffix.head?.any fun c => c == '.' || c == '-') = true := by
      rw [fileSuffix, append_assoc, Text.stripPrefix_append]
      cases classifier <;> rfl
    rw [hsuffix, Bool.and_true]
    exact ⟨fun hsnapshot => ⟨hsnapshot, not_carriesBuild_self dirVersion⟩, And.left⟩
  · have hsuffix : Text.stripPrefix (fileSuffix fileVersion extension classifier) dirVersion =
        none := by
      obtain ⟨before, timestamp, build, htimestamp, -, rfl, rfl⟩ := hbuild
      rw [fileSuffix]
      simp only [append_assoc]
      rw [Text.stripPrefix_append_append, stripPrefix_timestamp htimestamp]
    rw [hsuffix]
    simp [hbuild]

end Valid

/-- The path of a file with valid components stays below the repository root, and
is that of a mutable snapshot exactly when the version is a SNAPSHOT and the file
carries no build. -/
theorem artifactPathFromParts_confined {group artifact dirVersion fileVersion extension : Text}
    {classifier : Option Text}
    (h : ValidParts group artifact dirVersion fileVersion extension classifier) :
    let path := artifactPathFromParts group artifact dirVersion fileVersion extension classifier
    (∀ segment ∈ Text.split path '/', segment ≠ [] ∧ segment ≠ "." ∧ segment ≠ "..") ∧
      '\\' ∉ path ∧
      (Text.split path '/').length = (Text.split group '.').length + 3 ∧
      (LaidOut dirVersion fileVersion → (isMutableSnapshotPath path = true ↔
        resolvesThroughSnapshotMetadata dirVersion = true ∧
          ¬CarriesBuild dirVersion fileVersion)) := by
  intro path
  have hsplit : Text.split path '/' = _ := h.split_path
  refine ⟨?_, fun hmem => ?_, ?_, h.isMutableSnapshotPath_iff⟩
  · rw [hsplit]
    exact h.segment
  · rw [show path = _ from artifactPathFromParts_eq ..] at hmem
    rcases Text.mem_join hmem with hslash | ⟨segment, hsegment, hmem⟩
    · cases hslash
    · exact h.notMem_segment (by decide) segment hsegment hmem
  · rw [hsplit, length_append]
    rfl

/-- A build of a SNAPSHOT, below the directory of the SNAPSHOT. -/
theorem artifactPathFromParts_confined_build :
    let path := artifactPathFromParts "com.example" "demo" "1.0-SNAPSHOT"
      "1.0-20240101.010101-7" "jar" (some "tests")
    ValidParts "com.example" "demo" "1.0-SNAPSHOT"
        "1.0-20240101.010101-7" "jar" (some "tests") ∧
      LaidOut "1.0-SNAPSHOT" "1.0-20240101.010101-7" ∧
      (Text.split path '/').length = 5 ∧ isMutableSnapshotPath path = false := by
  have hvalid : ValidParts "com.example" "demo" "1.0-SNAPSHOT"
      "1.0-20240101.010101-7" "jar" (some "tests") := by
    refine ⟨?_, ?_, ?_, ?_, ?_, ?_⟩ <;> decide +kernel
  have hbuild : CarriesBuild "1.0-SNAPSHOT" "1.0-20240101.010101-7" :=
    ⟨"1.0-", "20240101.010101", "7", by decide, by decide, by decide, by decide⟩
  obtain ⟨-, -, hlength, hmutable⟩ := artifactPathFromParts_confined hvalid
  refine ⟨hvalid, .inr hbuild, hlength, ?_⟩
  rw [Bool.eq_false_iff]
  exact fun htrue => ((hmutable (.inr hbuild)).mp htrue).2 hbuild

end Raeva
