import Mathlib.Data.Countable.Basic
import Mathlib.Logic.Equiv.List
import Mathlib.Tactic.DeriveCountable
import Raeva.Library.Runs
import Raeva.Library.Utf8
import Raeva.Lock.Ambient
import Raeva.Lock.Lookup

/-!
# The texts of ambient inputs

Inputs are built by constructors that refuse what a lockfile cannot hold, or read
from their text, `rv-lock/src/ambient.rs`.  They are ordered by their texts, which
the comparison does not put together.
-/

namespace Raeva.Lock

open List

/-! ## What a lockfile can hold -/

def maxEnvNameLen : ℕ := 255

def maxSettingsPropertyNameLen : ℕ := 128

def maxConditionTextLen : ℕ := 256

def isEnvVarName (name : Text) : Bool :=
  Text.byteLen name ≤ maxEnvNameLen && name.head?.any (fun c => c.isAlpha || c == '_') &&
    name.tail.all fun c => c.isAlphanum || c == '_'

def isSettingsPropertyName (name : Text) : Bool :=
  !name.isEmpty && Text.byteLen name ≤ maxSettingsPropertyNameLen &&
    name.all fun c => c.isAlphanum || c == '.' || c == '-' || c == '_'

def isOptionName (name : Text) : Bool :=
  1 ≤ Text.byteLen name && Text.byteLen name ≤ 256 && name.all fun c => isAsciiGraphic c && c != '='

def isConditionText (text : Text) : Bool :=
  !text.isEmpty && text.length ≤ maxConditionTextLen && isTerminalSafe text

/-- Whether the names of a path never climb above `depth` directories up. -/
def staysInside : ℕ → List Text → Bool
  | _, [] => true
  | depth, name :: rest =>
    if name = [] || name = ['.'] then false
    else if name = ['.', '.'] then
      match depth with
      | 0 => false
      | up + 1 => staysInside up rest
    else staysInside (depth + 1) rest

def isProjectPath (path : Text) : Bool :=
  isConditionText path && !path.elem '\\' && !path.elem ':' && staysInside 0 (Text.split path '/')

/-! ## Constructors -/

structure InvalidAmbientInput where
  text : Text
  deriving DecidableEq

namespace Ambient

def env (name : Text) : Except InvalidAmbientInput AmbientInput :=
  if isEnvVarName name then .ok (.env name) else .error ⟨"env." ++ name⟩

def settingsProperty (name : Text) : Except InvalidAmbientInput AmbientInput :=
  if isSettingsPropertyName name then .ok (.settingsProperty name)
  else .error ⟨"settings-property:" ++ name⟩

def userProperty (name : Text) : Except InvalidAmbientInput AmbientInput :=
  if isOptionName name then .ok (.userProperty name) else .error ⟨"user-property:" ++ name⟩

def userPropertyLookup [LookupCodec] (expression : Text) (properties : OrderedMap Text Text)
    (defaultPackaging : Option Text) (source : Model.PropertySource) : AmbientInput :=
  .userPropertyLookup <| PropertyLookup.encode
    { expression, properties, file := none, defaultPackaging, source, mode := .property,
      model := none }

def fileLookup [LookupCodec] (expression : Text) (properties : OrderedMap Text Text)
    (baseDir : Option Text)
    (defaultPackaging : Option Text) (source : Model.PropertySource) : AmbientInput :=
  .userPropertyLookup <| PropertyLookup.encode
    { expression, properties, file := some ⟨baseDir⟩, defaultPackaging, source, mode := .file,
      model := none }

def interpolationLookup [LookupCodec] (expression : Text) (properties : OrderedMap Text Text)
    (defaultPackaging : Option Text) (source : Model.PropertySource) (model : Option ModelLookup)
    (modelInterpolation : Bool) : AmbientInput :=
  .userPropertyLookup <| PropertyLookup.encode
    { expression, properties, file := none, defaultPackaging, source
      mode := if modelInterpolation then .model else .interpolation
      model }

def jdk (spec : Text) (holds : Bool) : Except InvalidAmbientInput AmbientInput :=
  if isConditionText spec then .ok (.condition (.jdk spec) holds)
  else .error ⟨"jdk:" ++ spec⟩

def isHostProperty (name : Text) : Bool :=
  let property := (Text.stripPrefix name ['!']).getD name
  property = "java.version" || property = "java.home" ||
    (Text.stripPrefix property "env.").any isEnvVarName

def property (name : Text) (value : Option Text) (holds : Bool) :
    Except InvalidAmbientInput AmbientInput :=
  if isHostProperty name && value.all isConditionText then
    .ok (.condition (.property name value) holds)
  else .error ⟨"property:" ++ name ++ (value.map ('=' :: ·)).getD []⟩

def file (path : Text) («exists» : Bool) : Except InvalidAmbientInput AmbientInput :=
  if isProjectPath path then .ok (.condition (.file path) «exists»)
  else .error ⟨"file:" ++ path⟩

def settings (key : Text) (holds : Bool) : Except InvalidAmbientInput AmbientInput :=
  if Text.byteLen key = 16 && key.all (fun c => c.isDigit || ('a' ≤ c && c ≤ 'f')) then
    .ok (.condition (.settings key) holds)
  else .error ⟨"settings:" ++ key⟩

/-! ## Reading -/

def rsplitOnce (pat : Text) : Text → Option (Text × Text)
  | [] => none
  | c :: rest =>
    match rsplitOnce pat rest with
    | some (before, after) => some (c :: before, after)
    | none => if pat.isPrefixOf (c :: rest) then some ([], (c :: rest).drop pat.length) else none

def parseOutcome (text : Text) : Option Bool :=
  if text = "true" then some true else if text = "false" then some false else none

def parseCondition (condition : Text) (holds : Bool) :
    Option (Except InvalidAmbientInput AmbientInput) :=
  if let some spec := Text.stripPrefix condition "jdk:" then some (jdk spec holds)
  else if let some path := Text.stripPrefix condition "file:" then some (file path holds)
  else if let some key := Text.stripPrefix condition "settings:" then some (settings key holds)
  else if let some text := Text.stripPrefix condition "property:" then
    match Text.splitOnce text '=' with
    | some (name, expected) => some (property name (some expected) holds)
    | none => some (property text none holds)
  else none

def parse [LookupCodec] (value : Text) : Except InvalidAmbientInput AmbientInput :=
  let invalid : InvalidAmbientInput := ⟨value⟩
  if value = "java.home" then .ok .javaHome
  else if value = "java.version" then .ok .javaVersion
  else if value = "os-release" then .ok .osRelease
  else if let some name := Text.stripPrefix value "user-property:" then
    (userProperty name).mapError fun _ => invalid
  else if let some template := Text.stripPrefix value "user-property-lookup:" then
    match (LookupCodec.parse template).filter fun _ => isTerminalSafe template with
    | some lookup => .ok (.userPropertyLookup lookup.encode)
    | none => .error invalid
  else if let some name := Text.stripPrefix value "env." then
    (env name).mapError fun _ => invalid
  else if let some name := Text.stripPrefix value "settings-property:" then
    (settingsProperty name).mapError fun _ => invalid
  else
    match rsplitOnce " is " value with
    | none => .error invalid
    | some (condition, outcome) =>
      match parseOutcome outcome with
      | none => .error invalid
      | some holds =>
        match parseCondition condition holds with
        | none => .error invalid
        | some parsed => parsed.mapError fun _ => invalid

end Ambient

/-! ## The order -/

theorem flatten_pair {rest : List Text} (a b : Text) (h : rest.flatten = []) :
    (a :: b :: rest).flatten = a ++ b := by
  rw [flatten_cons, flatten_cons, h, append_nil]

namespace HostCondition

def pieces : HostCondition → List Text
  | jdk spec => ["jdk:", spec, [], []]
  | file path => ["file:", path, [], []]
  | settings key => ["settings:", key, [], []]
  | property name none => ["property:", name, [], []]
  | property name (some value) => ["property:", name, ['='], value]

theorem flatten_pieces (condition : HostCondition) :
    condition.pieces.flatten = condition.display := by
  cases condition with
  | jdk spec | file path | settings key => exact flatten_pair _ _ rfl
  | property name value =>
    cases value with
    | none => exact flatten_pair _ _ rfl
    | some value =>
      change ["property:".toList, name, ['='], value].flatten =
        "property:".toList ++ name ++ '=' :: value
      simp only [flatten_cons, flatten_nil, append_nil, append_assoc, singleton_append]

end HostCondition

namespace AmbientInput

def pieces : AmbientInput → List Text
  | env name => ["env.", name, [], [], [], []]
  | javaHome => ["java.home", [], [], [], [], []]
  | javaVersion => ["java.version", [], [], [], [], []]
  | osRelease => ["os-release", [], [], [], [], []]
  | settingsProperty name => ["settings-property:", name, [], [], [], []]
  | userProperty name => ["user-property:", name, [], [], [], []]
  | userPropertyLookup template => ["user-property-lookup:", template, [], [], [], []]
  | condition tested holds =>
    tested.pieces ++ [if holds then " is true".toList else " is false".toList, []]

theorem flatten_pieces (input : AmbientInput) : input.pieces.flatten = input.display := by
  cases input with
  | env name | settingsProperty name | userProperty name
  | userPropertyLookup template => exact flatten_pair _ _ rfl
  | javaHome | javaVersion | osRelease => exact (flatten_pair _ [] rfl).trans (append_nil _)
  | condition tested holds =>
    change (tested.pieces ++ [_, []]).flatten = tested.display ++ _
    rw [flatten_append, HostCondition.flatten_pieces, flatten_cons]
    exact congrArg (tested.display ++ ·) (append_nil _)

/-- The order of the texts, compared a run of bytes at a time. -/
def cmp (a b : AmbientInput) : Ordering :=
  compareRuns [] (a.pieces.map utf8) [] (b.pieces.map utf8)

theorem cmp_eq (a b : AmbientInput) : a.cmp b = compare (utf8 a.display) (utf8 b.display) := by
  have hflatten :
      ∀ input : AmbientInput, remaining [] (input.pieces.map utf8) = utf8 input.display := by
    intro input
    rw [remaining, nil_append, ← flatten_pieces]
    induction input.pieces with
    | nil => rfl
    | cons piece pieces ih =>
      rw [map_cons, flatten_cons, flatten_cons, ih, utf8, utf8, utf8, flatMap_append]
  rw [cmp, compareRuns_eq, hflatten, hflatten]

end AmbientInput

/-! ## What is built and read -/

section Built

variable [LookupCodec]

/-- An input that a lockfile can come by. -/
inductive Built : AmbientInput → Prop where
  | javaHome : Built .javaHome
  | javaVersion : Built .javaVersion
  | osRelease : Built .osRelease
  | env {name : Text} {input : AmbientInput} : Ambient.env name = .ok input → Built input
  | settingsProperty {name : Text} {input : AmbientInput} :
      Ambient.settingsProperty name = .ok input → Built input
  | userProperty {name : Text} {input : AmbientInput} :
      Ambient.userProperty name = .ok input → Built input
  | userPropertyLookup (expression : Text) (properties : OrderedMap Text Text)
      (defaultPackaging : Option Text) (source : Model.PropertySource) :
      Built (Ambient.userPropertyLookup expression properties defaultPackaging source)
  | fileLookup (expression : Text) (properties : OrderedMap Text Text) (baseDir : Option Text)
      (defaultPackaging : Option Text) (source : Model.PropertySource) :
      Built (Ambient.fileLookup expression properties baseDir defaultPackaging source)
  | interpolationLookup (expression : Text) (properties : OrderedMap Text Text)
      (defaultPackaging : Option Text) (source : Model.PropertySource) (model : Option ModelLookup)
      (modelInterpolation : Bool) :
      Built (Ambient.interpolationLookup expression properties defaultPackaging source model
        modelInterpolation)
  | jdk {spec : Text} {holds : Bool} {input : AmbientInput} :
      Ambient.jdk spec holds = .ok input → Built input
  | property {name : Text} {value : Option Text} {holds : Bool} {input : AmbientInput} :
      Ambient.property name value holds = .ok input → Built input
  | file {path : Text} {holds : Bool} {input : AmbientInput} :
      Ambient.file path holds = .ok input → Built input
  | settings {key : Text} {holds : Bool} {input : AmbientInput} :
      Ambient.settings key holds = .ok input → Built input
  | parsed {text : Text} {input : AmbientInput} : Ambient.parse text = .ok input → Built input

namespace AmbientInput

def Valid : AmbientInput → Prop
  | env name => isEnvVarName name = true
  | javaHome => True
  | javaVersion => True
  | osRelease => True
  | settingsProperty name => isSettingsPropertyName name = true
  | userProperty name => isOptionName name = true
  | userPropertyLookup template => ∃ lookup : PropertyLookup, template = lookup.encode
  | condition (.jdk spec) _ => isConditionText spec = true
  | condition (.property name value) _ =>
    (Ambient.isHostProperty name && value.all isConditionText) = true
  | condition (.file path) _ => isProjectPath path = true
  | condition (.settings key) holds =>
    Ambient.settings key holds = .ok (condition (.settings key) holds)

end AmbientInput

theorem valid_of_ite {p : Bool} {input other : AmbientInput} {invalid : InvalidAmbientInput}
    (hvalid : p = true → other.Valid)
    (h : (if p then .ok other else .error invalid : Except InvalidAmbientInput AmbientInput) =
      .ok input) : input.Valid := by
  split at h
  · rename_i hp
    cases h
    exact hvalid hp
  · cases h

namespace Ambient

variable {name : Text} {input : AmbientInput} {holds : Bool}

theorem settings_valid {key : Text} (h : settings key holds = .ok input) : input.Valid := by
  refine valid_of_ite ?_ h
  intro hkey
  exact if_pos hkey

theorem parseCondition_valid {condition : Text} {parsed : Except InvalidAmbientInput AmbientInput}
    (h : parseCondition condition holds = some parsed) (hparsed : parsed = .ok input) :
    input.Valid := by
  rw [parseCondition] at h
  split at h
  · cases h
    exact valid_of_ite id hparsed
  split at h
  · cases h
    exact valid_of_ite id hparsed
  split at h
  · cases h
    exact settings_valid hparsed
  split at h
  · split at h <;>
    · cases h
      exact valid_of_ite id hparsed
  · cases h

theorem parse_valid {text : Text} (h : parse text = .ok input) : input.Valid := by
  simp only [parse] at h
  split at h
  · cases h
    trivial
  split at h
  · cases h
    trivial
  split at h
  · cases h
    trivial
  split at h
  · exact valid_of_ite id (mapError_eq_ok_iff.mp h)
  split at h
  · split at h
    · cases h
      exact ⟨_, rfl⟩
    · cases h
  split at h
  · exact valid_of_ite id (mapError_eq_ok_iff.mp h)
  split at h
  · exact valid_of_ite id (mapError_eq_ok_iff.mp h)
  split at h
  · cases h
  split at h
  · cases h
  split at h
  · cases h
  · rename_i hcondition
    exact parseCondition_valid hcondition (mapError_eq_ok_iff.mp h)

end Ambient

theorem Built.valid {input : AmbientInput} (h : Built input) : input.Valid := by
  cases h with
  | javaHome | javaVersion | osRelease => trivial
  | env h | settingsProperty h | userProperty h | jdk h | property h | file h =>
    exact valid_of_ite id h
  | userPropertyLookup expression properties defaultPackaging source
  | fileLookup expression properties baseDir defaultPackaging source => exact ⟨_, rfl⟩
  | interpolationLookup expression properties defaultPackaging source model modelInterpolation =>
    exact ⟨_, rfl⟩
  | settings h => exact Ambient.settings_valid h
  | parsed h => exact Ambient.parse_valid h

end Built

/-! ## Reading back -/

namespace Ambient

theorem rsplitOnce_append {pat t before after : Text} (h : rsplitOnce pat t = some (before, after))
    (s : Text) : rsplitOnce pat (s ++ t) = some (s ++ before, after) := by
  induction s with
  | nil => exact h
  | cons c s ih => rw [cons_append, rsplitOnce, ih, cons_append]

theorem rsplitOnce_condition (tested : Text) (holds : Bool) :
    rsplitOnce " is " (tested ++ if holds then [' ', 'i', 's', ' ', 't', 'r', 'u', 'e']
      else [' ', 'i', 's', ' ', 'f', 'a', 'l', 's', 'e']) =
      some (tested, if holds then ['t', 'r', 'u', 'e'] else ['f', 'a', 'l', 's', 'e']) := by
  have hlast : rsplitOnce " is "
      (if holds then [' ', 'i', 's', ' ', 't', 'r', 'u', 'e']
        else [' ', 'i', 's', ' ', 'f', 'a', 'l', 's', 'e']) =
      some ([], if holds then ['t', 'r', 'u', 'e'] else ['f', 'a', 'l', 's', 'e']) := by
    cases holds <;> simp [rsplitOnce]
  rw [rsplitOnce_append hlast, append_nil]

theorem parseOutcome_eq (holds : Bool) :
    parseOutcome (if holds then ['t', 'r', 'u', 'e'] else ['f', 'a', 'l', 's', 'e']) =
      some holds := by
  cases holds <;> simp [parseOutcome]

variable {tested : HostCondition} {holds : Bool} {name : Text}

theorem parse_condition [LookupCodec]
    (h : parseCondition tested.display holds = some (.ok (.condition tested holds))) :
    parse (AmbientInput.condition tested holds).display = .ok (.condition tested holds) := by
  have hsplit := rsplitOnce_condition tested.display holds
  rw [← AmbientInput.display_condition] at hsplit
  have houtcome := parseOutcome_eq holds
  have hother : (AmbientInput.condition tested holds).display ≠ "java.home" ∧
      (AmbientInput.condition tested holds).display ≠ "java.version" ∧
      (AmbientInput.condition tested holds).display ≠ "os-release" ∧
      ∀ pat ∈ ["user-property:", "user-property-lookup:", "env.",
        "settings-property:"],
        Text.stripPrefix (AmbientInput.condition tested holds).display pat = none := by
    rw [AmbientInput.display_condition]
    cases tested <;>
      simp [HostCondition.display_jdk, HostCondition.display_file, HostCondition.display_settings,
        HostCondition.display_property, Text.stripPrefix_cons_cons]
  obtain ⟨hhome, hversion, hrelease, hprefixes⟩ := hother
  rw [parse, if_neg hhome, if_neg hversion, if_neg hrelease]
  simp only [hprefixes _ mem_cons_self, hprefixes _ (.tail _ mem_cons_self),
    hprefixes _ (.tail _ (.tail _ mem_cons_self)),
    hprefixes _ (.tail _ (.tail _ (.tail _ mem_cons_self))), hsplit, houtcome, h]
  rfl

theorem notMem_of_isEnvVarName (h : isEnvVarName name = true) : '=' ∉ name := by
  simp only [isEnvVarName, Bool.and_eq_true] at h
  obtain ⟨⟨-, hfirst⟩, hrest⟩ := h
  intro hmem
  cases name with
  | nil => cases hmem
  | cons c rest =>
    rcases mem_cons.mp hmem with rfl | hmem
    · cases hfirst
    · cases all_eq_true.mp hrest _ hmem

theorem notMem_of_isHostProperty (h : isHostProperty name = true) : '=' ∉ name := by
  simp only [isHostProperty, Bool.or_eq_true, decide_eq_true_eq] at h
  have hproperty : '=' ∉ (Text.stripPrefix name ['!']).getD name := by
    rcases h with (h | h) | h
    · rw [h]
      simp
    · rw [h]
      simp
    cases hvar : Text.stripPrefix ((Text.stripPrefix name ['!']).getD name) "env." with
    | none =>
      rw [hvar] at h
      cases h
    | some var =>
      rw [hvar] at h
      rw [Text.stripPrefix_eq_some.mp hvar, mem_append, not_or]
      exact ⟨by simp, notMem_of_isEnvVarName h⟩
  cases hstrip : Text.stripPrefix name ['!'] with
  | none =>
    rw [hstrip] at hproperty
    exact hproperty
  | some rest =>
    rw [hstrip] at hproperty
    rw [Text.stripPrefix_eq_some.mp hstrip, mem_append, not_or]
    exact ⟨by simp, hproperty⟩

theorem parseCondition_property (text : Text) (holds : Bool) :
    parseCondition ('p' :: 'r' :: 'o' :: 'p' :: 'e' :: 'r' :: 't' :: 'y' :: ':' :: text) holds =
      some (((Text.splitOnce text '=').map fun parts => property parts.1 (some parts.2) holds).getD
        (property text none holds)) := by
  cases h : Text.splitOnce text '=' with
  | none | some parts => simp [parseCondition, Text.stripPrefix_cons_cons, Text.stripPrefix_nil, h]

theorem parseCondition_display [LookupCodec] (h : (AmbientInput.condition tested holds).Valid) :
    parseCondition tested.display holds = some (.ok (.condition tested holds)) := by
  cases tested with
  | jdk spec =>
    have h : isConditionText spec = true := h
    simp [parseCondition, HostCondition.display_jdk, Text.stripPrefix_cons_cons,
      Text.stripPrefix_nil, jdk, h]
  | file path =>
    have h : isProjectPath path = true := h
    simp [parseCondition, HostCondition.display_file, Text.stripPrefix_cons_cons,
      Text.stripPrefix_nil, file, h]
  | settings key =>
    have h : settings key holds = .ok (.condition (.settings key) holds) := h
    simp [parseCondition, HostCondition.display_settings, Text.stripPrefix_cons_cons,
      Text.stripPrefix_nil, h]
  | property name value =>
    have h : (isHostProperty name && value.all isConditionText) = true := h
    have hname := notMem_of_isHostProperty (Bool.and_eq_true_iff.mp h).1
    have hproperty : property name value holds = .ok (.condition (.property name value) holds) :=
      if_pos h
    rw [HostCondition.display_property, parseCondition_property]
    cases value with
    | none =>
      rw [Option.map_none, Option.getD_none, append_nil, Text.splitOnce_eq_none.mpr hname,
        ← hproperty]
      rfl
    | some value =>
      rw [Option.map_some, Option.getD_some, Text.splitOnce_append hname, ← hproperty]
      rfl

theorem parse_lookup [LookupCodec] [LawfulLookupCodec] (lookup : PropertyLookup) :
    parse (AmbientInput.userPropertyLookup lookup.encode).display =
      if lookup.isPrintable then .ok (.userPropertyLookup lookup.encode)
      else .error ⟨(AmbientInput.userPropertyLookup lookup.encode).display⟩ := by
  have hparse := LawfulLookupCodec.parse_encode lookup
  have hsafe := LawfulLookupCodec.isTerminalSafe_encode lookup
  rw [AmbientInput.display_userPropertyLookup]
  cases hprintable : lookup.isPrintable with
  | true =>
    rw [hprintable] at hsafe
    simp [parse, Text.stripPrefix_cons_cons, Text.stripPrefix_nil, hparse, hsafe, Option.filter]
  | false =>
    rw [hprintable] at hsafe
    simp [parse, Text.stripPrefix_cons_cons, Text.stripPrefix_nil, hparse, hsafe]

theorem parse_display_iff [LookupCodec] [LawfulLookupCodec] {input : AmbientInput}
    (h : input.Valid) : parse input.display = .ok input ↔
      ∀ lookup : PropertyLookup, input = .userPropertyLookup lookup.encode →
        lookup.isPrintable = true := by
  have hother :
      (∀ template, input ≠ .userPropertyLookup template) → parse input.display = .ok input →
      (parse input.display = .ok input ↔ ∀ lookup : PropertyLookup,
        input = .userPropertyLookup lookup.encode → lookup.isPrintable = true) := by
    intro hne hparse
    exact iff_of_true hparse fun lookup hlookup => absurd hlookup (hne lookup.encode)
  cases input with
  | userPropertyLookup template =>
    obtain ⟨lookup, rfl⟩ := h
    rw [parse_lookup]
    constructor
    · intro hparse other hother
      rw [← PropertyLookup.encode_injective (AmbientInput.userPropertyLookup.inj hother)]
      by_contra hprintable
      rw [if_neg hprintable] at hparse
      cases hparse
    · intro hprintable
      rw [if_pos (hprintable lookup rfl)]
  | condition tested holds =>
    exact hother (by simp) (parse_condition (parseCondition_display h))
  | env name | settingsProperty name | userProperty name =>
    rw [AmbientInput.Valid] at h
    refine hother (by simp) ?_
    simp [parse, AmbientInput.display_env, AmbientInput.display_settingsProperty,
      AmbientInput.display_userProperty, Text.stripPrefix_cons_cons, Text.stripPrefix_nil, env,
      settingsProperty, userProperty, h, Except.mapError]
  | javaHome | javaVersion | osRelease =>
    refine hother (by simp) ?_
    simp [parse, AmbientInput.display_javaHome, AmbientInput.display_javaVersion,
      AmbientInput.display_osRelease]

end Ambient

theorem AmbientInput.Valid.isPlain [LookupCodec] {input : AmbientInput} (h : input.Valid) :
    input.IsPlain := by
  cases input with
  | condition tested holds =>
    cases tested with
    | property name value =>
      exact Ambient.notMem_of_isHostProperty (Bool.and_eq_true_iff.mp h).1
    | _ => trivial
  | _ => trivial

section Witness

local instance countableChar : Countable Char :=
  Function.Injective.countable fun _ _ => Char.toNat_inj.mp

local instance {α κ : Type} [LinearOrder κ] {key : α → κ} [Countable α] : Countable (Ordered key) :=
  Function.Injective.countable fun _ _ => Ordered.ext

deriving instance Countable for Model.PropertySource
deriving instance Countable for Model.ParentInfo
deriving instance Countable for Model.Build
deriving instance Countable for LookupMode
deriving instance Countable for FileLookup
deriving instance Countable for ModelLookup
deriving instance Countable for PropertyLookup

/-- The number of the lookup in strokes, which cannot be shown where the lookup
cannot. -/
noncomputable def numberedText (lookup : PropertyLookup) : Text :=
  replicate ((Encodable.ofCountable PropertyLookup).encode lookup + 1)
    (if lookup.isPrintable then '|' else '\u200b')

noncomputable local instance numberedCodec : LookupCodec where
  encode := numberedText
  parse := Function.partialInv numberedText

theorem numberedText_injective : Function.Injective numberedText := by
  intro a b h
  have hlength := congrArg length h
  rw [numberedText, numberedText, length_replicate, length_replicate, Nat.add_right_cancel_iff]
    at hlength
  exact @Encodable.encode_injective _ (Encodable.ofCountable PropertyLookup) _ _ hlength

local instance : LawfulLookupCodec where
  parse_encode := Function.partialInv_left numberedText_injective
  isTerminalSafe_encode lookup := by
    show (!(numberedText lookup).any isUnsafeChar) = _
    rw [numberedText, any_replicate]
    cases lookup.isPrintable <;> simp [isUnsafeChar]

def sampleLookup (value : Text) : PropertyLookup where
  expression := "$\x7bp\x7d"
  properties := Ordered.ofList [("p", value)]
  file := none
  defaultPackaging := none
  source := .user
  mode := .property
  model := none

theorem built_sampleLookup (value : Text) :
    Built (.userPropertyLookup (sampleLookup value).encode) :=
  .userPropertyLookup "$\x7bp\x7d" (.ofList [("p", value)]) none .user

end Witness

end Raeva.Lock
