import Mathlib.Data.Option.Basic
import Raeva.Maven.Text

/-!
# SNAPSHOT versions

The shapes of SNAPSHOT versions and the builds they resolve to, as in
`rv-maven-types/src/snapshot.rs`.
-/

namespace Raeva

def snapshotSuffix : Text := "SNAPSHOT"

def isAsciiDigits (value : Text) : Bool :=
  !value.isEmpty && value.all Text.isAsciiDigit

/-- The shape `YYYYMMDD.HHMMSS`; the calendar is not checked. -/
def isSnapshotTimestamp (value : Text) : Bool :=
  match Text.splitOnce value '.' with
  | some (date, time) =>
    date.length == 8 && time.length == 6 && isAsciiDigits date && isAsciiDigits time
  | none => false

/-- A timestamped snapshot version split into its parts; what stands before
the timestamp is empty or ends in `-`. -/
structure TimestampedSnapshot where
  before : Text
  timestamp : Text
  build : Text
  deriving DecidableEq

def timestampLen : ℕ := 15

def Text.rsplitOnce (t : Text) (sep : Char) : Option (Text × Text) :=
  (Text.splitOnce t.reverse sep).map fun (after, before) => (before.reverse, after.reverse)

def TimestampedSnapshot.parse (version : Text) : Option TimestampedSnapshot := do
  let (rest, build) ← Text.rsplitOnce version '-'
  -- A timestamp is ASCII, so its bytes are its characters.
  guard (timestampLen ≤ rest.length && isAsciiDigits build)
  let (before, timestamp) := rest.splitAt (rest.length - timestampLen)
  guard (isSnapshotTimestamp timestamp && (before.isEmpty || Text.endsWith before ['-']))
  return { before, timestamp, build }

theorem Text.rsplitOnce_eq {t before after : Text} {sep : Char}
    (h : Text.rsplitOnce t sep = some (before, after)) : t = before ++ sep :: after := by
  obtain ⟨⟨after', before'⟩, hsplit, heq⟩ := Option.map_eq_some_iff.mp h
  obtain ⟨rfl, rfl⟩ := Prod.mk.inj heq
  have hreverse := congrArg List.reverse (Text.splitOnce_eq hsplit).1
  simpa using hreverse

def TimestampedSnapshot.baseVersion (snapshot : TimestampedSnapshot) : Text :=
  snapshot.before ++ snapshotSuffix

def isSnapshotVersion (version : Text) : Bool :=
  Text.endsWith version snapshotSuffix || (TimestampedSnapshot.parse version).isSome

def resolvesThroughSnapshotMetadata (version : Text) : Bool :=
  Text.endsWith version snapshotSuffix

def snapshotBaseVersion (version : Text) : Option Text :=
  match TimestampedSnapshot.parse version with
  | some snapshot => some snapshot.baseVersion
  | none => if Text.endsWith version snapshotSuffix then some version else none

/-- The file version that snapshot metadata with this timestamp and build number
gives a SNAPSHOT version. -/
def timestampedSnapshotVersion (version timestamp : Text) (build : ℕ) : Option Text :=
  (Text.stripSuffix version snapshotSuffix).map (· ++ (timestamp ++ '-' :: Text.ofNat build))

structure SnapshotStamp where
  timestamp : Text
  build : ℕ
  valid : isSnapshotTimestamp timestamp = true ∧ build < 2 ^ 32
  deriving DecidableEq

def SnapshotStamp.new (timestamp : Text) (build : ℕ) : Option SnapshotStamp :=
  if h : isSnapshotTimestamp timestamp = true ∧ build < 2 ^ 32 then some ⟨timestamp, build, h⟩
  else none

def SnapshotStamp.ofFileVersion (version fileVersion : Text) : Option SnapshotStamp := do
  let base ← Text.stripSuffix version snapshotSuffix
  let rest ← Text.stripPrefix fileVersion base
  let (timestamp, build) ← Text.rsplitOnce rest '-'
  -- A padded build number would not name the same file again.
  let number ← Text.parseU32 build
  guard (isAsciiDigits build && Text.ofNat number == build)
  SnapshotStamp.new timestamp number

def SnapshotStamp.resolvedVersion (stamp : SnapshotStamp) (version : Text) : Option Text :=
  timestampedSnapshotVersion version stamp.timestamp stamp.build

theorem SnapshotStamp.resolvedVersion_eq_some {stamp : SnapshotStamp} {version file : Text} :
    stamp.resolvedVersion version = some file ↔ ∃ base, version = base ++ snapshotSuffix ∧
      file = base ++ (stamp.timestamp ++ '-' :: Text.ofNat stamp.build) := by
  rw [resolvedVersion, timestampedSnapshotVersion, Option.map_eq_some_iff]
  refine exists_congr fun base => and_congr Text.stripSuffix_eq_some eq_comm

end Raeva
