import Raeva.Library.Checks
import Raeva.Maven.Version

/-!
# Untrusted text

Which characters would steer a terminal or hide text, how messages show text
that a POM or a repository supplied, and the rules for one component of a
coordinate.
-/

namespace Raeva

open List

/-- Control characters, separators, interlinear annotation controls and the
default-ignorable code points. -/
def isUnsafeChar (c : Char) : Bool :=
  let n := c.toNat
  let within (lo hi : ℕ) : Bool := lo ≤ n && n ≤ hi
  within 0 0x1F || within 0x7F 0x9F || n == 0xAD || n == 0x34F || n == 0x61C ||
    within 0x115F 0x1160 || within 0x17B4 0x17B5 || within 0x180B 0x180F ||
    within 0x200B 0x200F || within 0x2028 0x202E || within 0x2060 0x206F || n == 0x3164 ||
    within 0xFE00 0xFE0F || n == 0xFEFF || n == 0xFFA0 || within 0xFFF0 0xFFFB ||
    within 0x1BCA0 0x1BCA3 || within 0x1D173 0x1D17A || within 0xE0000 0xE0FFF

def isTerminalSafe (text : Text) : Bool :=
  !text.any isUnsafeChar

/-- How many characters of untrusted text a message shows. -/
def maxShownChars : ℕ := 120

def escapeUnicode (c : Char) : Text :=
  "\\u\x7b" ++ Nat.toDigits 16 c.toNat ++ "\x7d"

def bounded (text : Text) : Text :=
  ((text.take maxShownChars).flatMap fun c => if isUnsafeChar c then escapeUnicode c else [c]) ++
    if maxShownChars < text.length then
      "... (" ++ Text.ofNat (Text.byteLen text) ++ " bytes)"
    else []

inductive CoordinateField where
  | group
  | artifact
  | version
  | classifier
  | extension
  deriving DecidableEq

inductive ComponentReason where
  | empty
  | tooLong
  | notMavenId
  | notPrintableAscii
  | notTerminalSafe
  | forbidden (ch : Char)
  | dotDot
  | emptyGroupSegment
  | trailingDot
  deriving DecidableEq

structure InvalidCoordinateComponent where
  field : CoordinateField
  value : Text
  reason : ComponentReason
  deriving DecidableEq

def isMavenIdText (value : Text) : Bool :=
  value.all fun c => c.isAlphanum || c == '.' || c == '-' || c == '_'

def isAsciiGraphic (c : Char) : Bool :=
  '!' ≤ c && c ≤ '~'

def forbiddenChars : List Char :=
  ['\\', '/', ':', '"', '<', '>', '|', '?', '*', '#', '@', '%', ';']

def checkCharacters : CoordinateField → Text → Except ComponentReason Unit
  | .group, value | .artifact, value =>
    if isMavenIdText value then .ok () else .error .notMavenId
  | .version, value | .classifier, value | .extension, value =>
    if value.all isAsciiGraphic then
      match value.find? (· ∈ forbiddenChars) with
      | some ch => .error (.forbidden ch)
      | none => .ok ()
    else .error .notPrintableAscii

def checkComponent (field : CoordinateField) (value : Text) : Except ComponentReason Unit := do
  refuseIf value.isEmpty .empty
  refuseIf (maxComponentBytes < Text.byteLen value) .tooLong
  checkCharacters field value
  refuseIf (Text.contains value "..") .dotDot
  refuseIf (field = .group && Text.startsWith value ['.']) .emptyGroupSegment
  refuseIf (Text.endsWith value ['.']) (if field = .group then .emptyGroupSegment else .trailingDot)

def validateCoordinateComponent (field : CoordinateField) (value : Text) :
    Except InvalidCoordinateComponent Unit :=
  (checkComponent field value).mapError fun reason => { field, value, reason }

def validateReactorVersion (value : Text) : Except InvalidCoordinateComponent Unit := do
  refuseIf value.isEmpty { field := .version, value, reason := .empty }
  refuseIf (maxComponentBytes < Text.byteLen value) { field := .version, value, reason := .tooLong }
  refuseIf (!isTerminalSafe value) { field := .version, value, reason := .notTerminalSafe }

/-! ## What passing the rules means -/

variable {c : Char} {value : Text} {field : CoordinateField}

theorem isUnsafeChar_of_lt (h : c.toNat < 0x20) : isUnsafeChar c = true := by
  have : (decide (0 ≤ c.toNat) && decide (c.toNat ≤ 0x1F)) = true := by
    simp
    omega
  simp only [isUnsafeChar, this, Bool.true_or]

theorem notMem_of_isTerminalSafe {text : Text} (h : isTerminalSafe text = true)
    (hc : c.toNat < 0x20) : c ∉ text := by
  intro hmem
  simp only [isTerminalSafe, Bool.not_eq_true', any_eq_false] at h
  exact h c hmem (isUnsafeChar_of_lt hc)

theorem isAsciiGraphic_of_lt (h : c.toNat < 0x20) : isAsciiGraphic c = false := by
  rw [isAsciiGraphic, Bool.and_eq_false_iff]
  left
  have hfirst : '!'.toNat = 33 := rfl
  simp only [decide_eq_false_iff_not, Char.le_def, UInt32.le_iff_toNat_le]
  simp only [Char.toNat] at h hfirst
  omega

theorem graphic_of_isMavenIdText (h : isMavenIdText value = true) (hc : c ∈ value) :
    isAsciiGraphic c = true ∧ c ∉ forbiddenChars := by
  have hid := all_eq_true.mp h c hc
  constructor
  · have hupper : c.isUpper = decide (c.val ≥ 'A'.val ∧ c.val ≤ 'Z'.val) := rfl
    have hlower : c.isLower = (decide (c.val ≥ 'a'.val) && decide (c.val ≤ 'z'.val)) := rfl
    have halpha : c.isAlpha = (c.isUpper || c.isLower) := rfl
    simp only [Char.isAlphanum, halpha, hupper, hlower, Char.isDigit,
      Bool.or_eq_true, Bool.and_eq_true, decide_eq_true_eq, beq_iff_eq] at hid
    simp only [isAsciiGraphic, Bool.and_eq_true, decide_eq_true_eq, Char.le_def]
    have hrange : ∀ lo hi : UInt32, '!'.val ≤ lo → hi ≤ '~'.val → lo ≤ c.val ∧ c.val ≤ hi →
        '!'.val ≤ c.val ∧ c.val ≤ '~'.val :=
      fun _ _ hlo hhi h => ⟨UInt32.le_trans hlo h.1, UInt32.le_trans h.2 hhi⟩
    rcases hid with (((((h | h) | h) | rfl) | rfl) | rfl)
    · exact hrange 'A'.val 'Z'.val (by decide) (by decide) h
    · exact hrange 'a'.val 'z'.val (by decide) (by decide) h
    · exact hrange '0'.val '9'.val (by decide) (by decide) h
    all_goals decide
  · intro hforbidden
    simp only [forbiddenChars, mem_cons, not_mem_nil, or_false] at hforbidden
    rcases hforbidden with
      rfl | rfl | rfl | rfl | rfl | rfl | rfl | rfl | rfl | rfl | rfl | rfl | rfl
    all_goals exact absurd hid (by decide)

theorem graphic_of_checkCharacters (h : checkCharacters field value = .ok ()) (hc : c ∈ value) :
    isAsciiGraphic c = true ∧ c ∉ forbiddenChars := by
  have hprintable : ∀ {result : Except ComponentReason Unit}, result = .ok () →
      result = (if value.all isAsciiGraphic then
        match value.find? (· ∈ forbiddenChars) with
        | some ch => .error (.forbidden ch)
        | none => .ok ()
      else .error .notPrintableAscii) → isAsciiGraphic c = true ∧ c ∉ forbiddenChars := by
    intro result hok hresult
    rw [hok] at hresult
    split at hresult
    · rename_i hall
      split at hresult
      · cases hresult
      · rename_i hfind
        have := find?_eq_none.mp hfind c hc
        exact ⟨all_eq_true.mp hall c hc, by simpa using this⟩
    · cases hresult
  have hid : ∀ {result : Except ComponentReason Unit}, result = .ok () →
      result = (if isMavenIdText value then .ok () else .error .notMavenId) →
      isAsciiGraphic c = true ∧ c ∉ forbiddenChars := by
    intro result hok hresult
    rw [hok] at hresult
    split at hresult
    · rename_i hid
      exact graphic_of_isMavenIdText hid hc
    · cases hresult
  cases field with
  | group | artifact => exact hid h rfl
  | version | classifier | extension => exact hprintable h rfl

/-- A component is not empty, and holds printable ASCII without the forbidden
characters. -/
theorem validateCoordinateComponent_chars (h : validateCoordinateComponent field value = .ok ()) :
    value ≠ [] ∧ ∀ c ∈ value, isAsciiGraphic c = true ∧ c ∉ forbiddenChars := by
  rw [validateCoordinateComponent, mapError_eq_ok_iff] at h
  simp only [checkComponent, bind_unit_eq_ok_iff, refuseIf_eq_ok_iff, isEmpty_eq_false_iff] at h
  obtain ⟨hne, -, hchars, -⟩ := h
  exact ⟨hne, fun c hc => graphic_of_checkCharacters hchars hc⟩

theorem notMem_of_validateCoordinateComponent (h : validateCoordinateComponent field value = .ok ())
    (hc : isAsciiGraphic c = false ∨ c ∈ forbiddenChars) : c ∉ value := by
  intro hmem
  obtain ⟨hgraphic, hallowed⟩ := (validateCoordinateComponent_chars h).2 c hmem
  rcases hc with hc | hc
  · rw [hgraphic] at hc
    cases hc
  · exact hallowed hc

theorem validateReactorVersion_eq_ok (h : validateReactorVersion value = .ok ()) :
    value ≠ [] ∧ isTerminalSafe value = true := by
  simp only [validateReactorVersion, bind_unit_eq_ok_iff, refuseIf_eq_ok_iff,
    isEmpty_eq_false_iff, Bool.not_eq_false'] at h
  exact ⟨h.1, h.2.2⟩

end Raeva
