import Raeva.Maven.Snapshot

/-!
# File versions and their stamps

`SnapshotStamp.ofFileVersion` reads back the stamp that `resolvedVersion` wrote
into a file version, whatever hyphens and digits stand before it: a stamp is a
timestamp of fifteen characters, a hyphen and a number.
-/

namespace Raeva

open List

theorem isAsciiDigits_ofNat (n : ℕ) : isAsciiDigits (Text.ofNat n) = true := by
  rw [isAsciiDigits, Bool.and_eq_true]
  refine ⟨?_, all_eq_true.mpr fun c hc => ?_⟩
  · rw [Bool.not_eq_true', isEmpty_eq_false_iff]
    exact Text.ofNat_ne_nil n
  · have hdigit := Text.isDigit_of_mem_ofNat hc
    simpa [Char.isDigit, Text.isAsciiDigit, Char.le_def] using hdigit

theorem notMem_of_isAsciiDigits {value : Text} {c : Char} (h : isAsciiDigits value = true)
    (hc : Text.isAsciiDigit c = false) : c ∉ value := by
  intro hmem
  have hdigit := all_eq_true.mp (Bool.and_eq_true_iff.mp h).2 c hmem
  rw [hc] at hdigit
  cases hdigit

theorem length_of_isSnapshotTimestamp {value : Text} (h : isSnapshotTimestamp value = true) :
    value.length = timestampLen := by
  rw [isSnapshotTimestamp] at h
  split at h
  · rename_i date time hsplit
    obtain ⟨rfl, -⟩ := Text.splitOnce_eq hsplit
    simp only [Bool.and_eq_true, beq_iff_eq] at h
    rw [length_append, length_cons, h.1.1.1, h.1.1.2]
    rfl
  · cases h

theorem Text.rsplitOnce_append {before after : Text} {sep : Char} (h : sep ∉ after) :
    Text.rsplitOnce (before ++ sep :: after) sep = some (before, after) := by
  have hsplit : Text.splitOnce (after.reverse ++ sep :: before.reverse) sep =
      some (after.reverse, before.reverse) :=
    Text.splitOnce_append (by simpa using h)
  rw [Text.rsplitOnce]
  simp [hsplit]

theorem Text.parseU32_ofNat {n : ℕ} (h : n < 2 ^ 32) : Text.parseU32 (Text.ofNat n) = some n := by
  have hdigits := isAsciiDigits_ofNat n
  have hplus : (Text.ofNat n).head? ≠ some '+' := fun hhead =>
    notMem_of_isAsciiDigits hdigits rfl (mem_of_mem_head? hhead)
  have hread : Nat.ofDigitChars 10 (Text.ofNat n) 0 = n :=
    Nat.ofDigitChars_toDigits (by decide) (by decide)
  rw [isAsciiDigits] at hdigits
  simp only [Text.parseU32, if_neg hplus, hdigits, hread, if_pos h, if_true]

namespace SnapshotStamp

variable {stamp : SnapshotStamp} {version file : Text}

theorem new_eq_some {timestamp : Text} {build : ℕ} :
    SnapshotStamp.new timestamp build = some stamp ↔
      stamp.timestamp = timestamp ∧ stamp.build = build := by
  rw [SnapshotStamp.new]
  constructor
  · intro h
    split at h
    · cases h
      exact ⟨rfl, rfl⟩
    · cases h
  · rintro ⟨rfl, rfl⟩
    rw [dif_pos stamp.valid]

theorem notMem_digits (stamp : SnapshotStamp) : '-' ∉ Text.ofNat stamp.build :=
  notMem_of_isAsciiDigits (isAsciiDigits_ofNat stamp.build) rfl

theorem ofFileVersion_eq_some :
    ofFileVersion version file = some stamp ↔ stamp.resolvedVersion version = some file := by
  rw [resolvedVersion_eq_some]
  simp only [ofFileVersion, Option.bind_eq_bind, Option.bind_eq_some_iff, Option.guard_eq_some',
    Bool.and_eq_true, beq_iff_eq, Text.stripSuffix_eq_some, Text.stripPrefix_eq_some, new_eq_some]
  constructor
  · rintro ⟨base, hversion, rest, hfile, ⟨timestamp, build⟩, hsplit, number, -, _, ⟨-, hbuild⟩,
      htimestamp, hnumber⟩
    refine ⟨base, hversion, ?_⟩
    rw [hfile, Text.rsplitOnce_eq hsplit, htimestamp, hnumber, hbuild]
  · rintro ⟨base, hversion, hfile⟩
    exact ⟨base, hversion, _, hfile, _, Text.rsplitOnce_append stamp.notMem_digits, _,
      Text.parseU32_ofNat stamp.valid.2, (), ⟨isAsciiDigits_ofNat _, rfl⟩, rfl, rfl⟩

/-- A version whose part before the stamp is empty or ends in a hyphen is split
at the stamp. -/
theorem parse_resolved (stamp : SnapshotStamp) {base : Text}
    (hbase : base = [] ∨ Text.endsWith base ['-'] = true) :
    TimestampedSnapshot.parse (base ++ (stamp.timestamp ++ '-' :: Text.ofNat stamp.build)) =
      some ⟨base, stamp.timestamp, Text.ofNat stamp.build⟩ := by
  have hsplit : Text.rsplitOnce (base ++ (stamp.timestamp ++ '-' :: Text.ofNat stamp.build)) '-' =
      some (base ++ stamp.timestamp, Text.ofNat stamp.build) := by
    rw [← append_assoc]
    exact Text.rsplitOnce_append stamp.notMem_digits
  have hlength := length_of_isSnapshotTimestamp stamp.valid.1
  have hcut : (base ++ stamp.timestamp).length - timestampLen = base.length := by
    rw [length_append, hlength]
    omega
  have hshape : (base.isEmpty || Text.endsWith base ['-']) = true := by
    rcases hbase with rfl | hhyphen
    · rfl
    · rw [hhyphen, Bool.or_true]
  have hlong : timestampLen ≤ (base ++ stamp.timestamp).length := by
    rw [length_append, hlength]
    omega
  simp only [TimestampedSnapshot.parse, hsplit, Option.bind_eq_bind, Option.bind_some, hcut,
    splitAt_eq, take_left, drop_left, isAsciiDigits_ofNat, stamp.valid.1, hshape,
    hlong, decide_true, Bool.and_self, guard_true, pure]

theorem snapshotBaseVersion_resolved (hfile : stamp.resolvedVersion version = some file)
    (hversion : version = snapshotSuffix ∨ Text.endsWith version ('-' :: snapshotSuffix) = true) :
    snapshotBaseVersion file = some version := by
  obtain ⟨base, rfl, rfl⟩ := resolvedVersion_eq_some.mp hfile
  have hbase : base = [] ∨ Text.endsWith base ['-'] = true := by
    rcases hversion with hversion | hversion
    · exact .inl (append_left_eq_self.mp hversion)
    obtain ⟨before, hbefore⟩ := isSuffixOf_iff_suffix.mp hversion
    rw [append_cons] at hbefore
    rw [← append_cancel_right hbefore]
    exact .inr (isSuffixOf_iff_suffix.mpr ⟨before, rfl⟩)
  rw [snapshotBaseVersion, stamp.parse_resolved hbase]
  rfl

/-- For every version that ends in SNAPSHOT the stamps and the file versions with
a stamp correspond one to one, and the file version names its directory again
when a hyphen or nothing precedes the suffix. -/
theorem ofFileVersion_resolvedVersion (version : Text)
    (hversion : Text.endsWith version snapshotSuffix = true) :
    (∀ stamp : SnapshotStamp, ∃ file, stamp.resolvedVersion version = some file ∧
      ofFileVersion version file = some stamp ∧
      (version = snapshotSuffix ∨ Text.endsWith version ('-' :: snapshotSuffix) = true →
        snapshotBaseVersion file = some version)) ∧
    ∀ file, (∀ stamp, ofFileVersion version file = some stamp →
        stamp.resolvedVersion version = some file) ∧
      ((∀ stamp : SnapshotStamp, stamp.resolvedVersion version ≠ some file) →
        ofFileVersion version file = none) := by
  refine ⟨fun stamp => ?_, fun file => ⟨fun stamp => ofFileVersion_eq_some.mp, fun hother => ?_⟩⟩
  · obtain ⟨base, rfl⟩ := isSuffixOf_iff_suffix.mp hversion
    have hfile : stamp.resolvedVersion (base ++ snapshotSuffix) =
        some (base ++ (stamp.timestamp ++ '-' :: Text.ofNat stamp.build)) :=
      resolvedVersion_eq_some.mpr ⟨base, rfl, rfl⟩
    exact ⟨_, hfile, ofFileVersion_eq_some.mpr hfile, snapshotBaseVersion_resolved hfile⟩
  · cases hstamp : ofFileVersion version file with
    | none => rfl
    | some stamp => exact absurd (ofFileVersion_eq_some.mp hstamp) (hother stamp)

/-- A stamp after a base that looks like a stamp itself. -/
theorem ofFileVersion_resolvedVersion_sample :
    let version := "1-20240101.010101-7-SNAPSHOT".toList
    Text.endsWith version snapshotSuffix = true ∧
      ∀ stamp : SnapshotStamp, ∃ file, stamp.resolvedVersion version = some file ∧
        ofFileVersion version file = some stamp ∧ snapshotBaseVersion file = some version := by
  have hends : Text.endsWith "1-20240101.010101-7-SNAPSHOT" ('-' :: snapshotSuffix) = true := by
    decide +kernel
  have hversion : Text.endsWith "1-20240101.010101-7-SNAPSHOT" snapshotSuffix = true := by
    decide +kernel
  refine ⟨hversion, fun stamp => ?_⟩
  obtain ⟨file, hfile, hstamp, hbase⟩ := (ofFileVersion_resolvedVersion _ hversion).1 stamp
  exact ⟨file, hfile, hstamp, hbase (.inr hends)⟩

end SnapshotStamp

end Raeva
