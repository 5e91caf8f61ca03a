import Raeva.Lock.Error
import Raeva.Repo.Url

/-!
# Repository origins

How a lockfile spells the repositories that served its files,
`rv-lock/src/lock_origin.rs`.
-/

namespace Raeva.Lock

def isProjectRelativeOrigin (value : Text) : Bool :=
  Text.startsWith (value.dropWhile Text.isWhitespace) ['.']

def isControl (c : Char) : Bool :=
  c.toNat ≤ 0x1F || (0x7F ≤ c.toNat && c.toNat ≤ 0x9F)

def isPortableSegment (segment : Text) : Bool :=
  !segment.isEmpty && segment != "." && segment != ".." &&
    !segment.any fun c => c == '/' || c == '\\' || c == ':' || c == '%' || isControl c

/-- The shape `./`, then zero or more `segment/`. -/
def isValidProjectRelativeOrigin (value : Text) : Bool :=
  if Text.startsWith value "./" then
    let rest := value.drop 2
    rest.isEmpty ||
      (Text.endsWith rest ['/'] && (Text.split rest.dropLast '/').all isPortableSegment)
  else false

def validateProjectRelativeOrigin (value : Text) : Except LockError Unit :=
  refuseIf (!isValidProjectRelativeOrigin value) .projectRelativeOrigin

def isRecordableRepoId (id : Text) : Bool :=
  isTerminalSafe id

def encodeRepoIdLines (map : RepoIds) : Except LockError Text := do
  let lines ← (repoIdLines map).mapM fun (origin, id) =>
    if origin.isEmpty || !isRecordableRepoId origin || !isRecordableRepoId id then
      .error (.repoId origin id)
    else .ok (origin ++ '\t' :: id)
  return Text.join ['\n'] lines

def checkRepoIds (ids : RepoIds) : Except LockError Unit := do
  let _ ← encodeRepoIdLines ids
  (ids.entries.filter fun entry => isProjectRelativeOrigin entry.1).forM fun entry =>
    validateProjectRelativeOrigin entry.1

/-- Each line can be recorded, and each origin that is spelled as a
project-relative one is one. -/
theorem checkRepoIds_eq_ok_iff {ids : RepoIds} : checkRepoIds ids = .ok () ↔
    (∀ line ∈ repoIdLines ids,
      (line.1.isEmpty || !isRecordableRepoId line.1 || !isRecordableRepoId line.2) = false) ∧
    ∀ entry ∈ ids.entries, isProjectRelativeOrigin entry.1 = true →
      isValidProjectRelativeOrigin entry.1 = true := by
  have hlines : (∃ text, encodeRepoIdLines ids = .ok text) ↔ ∀ line ∈ repoIdLines ids,
      (line.1.isEmpty || !isRecordableRepoId line.1 || !isRecordableRepoId line.2) = false := by
    have hmap : (∃ text, encodeRepoIdLines ids = .ok text) ↔ ∃ lines, (repoIdLines ids).mapM
        (fun line : Text × Text =>
          if line.1.isEmpty || !isRecordableRepoId line.1 || !isRecordableRepoId line.2 then
            (.error (.repoId line.1 line.2) : Except LockError Text)
          else .ok (line.1 ++ '\t' :: line.2)) = .ok lines := by
      constructor
      · rintro ⟨text, h⟩
        obtain ⟨lines, hlines, -⟩ := bind_eq_ok h
        exact ⟨lines, hlines⟩
      · rintro ⟨lines, h⟩
        exact ⟨Text.join ['\n'] lines, by rw [encodeRepoIdLines, h]; rfl⟩
    rw [hmap, exists_mapM_eq_ok_iff]
    refine forall₂_congr fun line _ => ?_
    cases line.1.isEmpty || !isRecordableRepoId line.1 || !isRecordableRepoId line.2 <;> simp
  rw [← hlines]
  constructor
  · intro h
    obtain ⟨text, htext, h⟩ := bind_eq_ok h
    refine ⟨⟨text, htext⟩, fun entry hentry hrelative => ?_⟩
    have := forM_eq_ok_iff.mp h entry (List.mem_filter.mpr ⟨hentry, hrelative⟩)
    simpa [validateProjectRelativeOrigin] using this
  · rintro ⟨⟨text, htext⟩, h⟩
    rw [checkRepoIds, htext]
    refine forM_eq_ok_iff.mpr fun entry hentry => ?_
    obtain ⟨hentry, hrelative⟩ := List.mem_filter.mp hentry
    simp [validateProjectRelativeOrigin, h entry hentry hrelative]

end Raeva.Lock
