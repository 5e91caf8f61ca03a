import Raeva.Library.Ordered
import Raeva.Maven.Text

/-!
# Ambient inputs

The host values a resolution can consult, by name, `rv-lock/src/ambient.rs`.
-/

namespace Raeva.Lock

/-- A profile activation condition that tested a host value. -/
inductive HostCondition where
  | jdk (spec : Text)
  | property (name : Text) (value : Option Text)
  | file (path : Text)
  | settings (key : Text)
  deriving DecidableEq

def HostCondition.display : HostCondition → Text
  | jdk spec => "jdk:" ++ spec
  | file path => "file:" ++ path
  | settings key => "settings:" ++ key
  | property name none => "property:" ++ name
  | property name (some value) => "property:" ++ name ++ '=' :: value

/-- A value from outside the project that a resolution read, or a condition on
one that it tested. -/
inductive AmbientInput where
  | env (name : Text)
  | javaHome
  | javaVersion
  | osRelease
  | settingsProperty (name : Text)
  | userProperty (name : Text)
  | userPropertyLookup (template : Text)
  | condition (tested : HostCondition) (holds : Bool)
  deriving DecidableEq

namespace AmbientInput

def display : AmbientInput → Text
  | env name => "env." ++ name
  | javaHome => "java.home"
  | javaVersion => "java.version"
  | osRelease => "os-release"
  | settingsProperty name => "settings-property:" ++ name
  | userProperty name => "user-property:" ++ name
  | userPropertyLookup template => "user-property-lookup:" ++ template
  | condition tested holds =>
    tested.display ++ if holds then " is true".toList else " is false".toList

/-- Property and variable names, which the configuration hash leaves out while
they are unset. -/
def isPropertyName : AmbientInput → Bool
  | userProperty _ | settingsProperty _ | env _ => true
  | _ => false

/-- The name in a property condition holds no `=`, as the names that
activation reads. -/
def IsPlain : AmbientInput → Prop
  | condition (.property name _) _ => '=' ∉ name
  | _ => True

end AmbientInput

namespace HostCondition

/-! The equations of `display` with the characters of each text, as the texts
of two conditions are compared. -/

theorem display_jdk (spec : Text) : (jdk spec).display = 'j' :: 'd' :: 'k' :: ':' :: spec := by
  have h : "jdk:".toList = ['j', 'd', 'k', ':'] := by simp
  exact congrArg (· ++ spec) h

theorem display_file (path : Text) :
    (file path).display = 'f' :: 'i' :: 'l' :: 'e' :: ':' :: path := by
  have h : "file:".toList = ['f', 'i', 'l', 'e', ':'] := by simp
  exact congrArg (· ++ path) h

theorem display_settings (key : Text) : (settings key).display =
    's' :: 'e' :: 't' :: 't' :: 'i' :: 'n' :: 'g' :: 's' :: ':' :: key := by
  have h : "settings:".toList = ['s', 'e', 't', 't', 'i', 'n', 'g', 's', ':'] := by simp
  exact congrArg (· ++ key) h

theorem display_property (name : Text) (value : Option Text) : (property name value).display =
    'p' :: 'r' :: 'o' :: 'p' :: 'e' :: 'r' :: 't' :: 'y' :: ':' ::
      (name ++ (value.map fun v => '=' :: v).getD []) := by
  have h : "property:".toList = ['p', 'r', 'o', 'p', 'e', 'r', 't', 'y', ':'] := by simp
  cases value with
  | none => exact (congrArg (· ++ name) h).trans (by simp)
  | some value => exact (congrArg (fun t => t ++ name ++ '=' :: value) h).trans (by simp)

theorem display_inj {a b : HostCondition} {holds : Bool}
    (ha : (AmbientInput.condition a holds).IsPlain) (hb : (AmbientInput.condition b holds).IsPlain)
    (h : a.display = b.display) : a = b := by
  rcases a with _ | ⟨name, value⟩ | _ | _ <;> rcases b with _ | ⟨name', value'⟩ | _ | _ <;>
    simp [display_jdk, display_file, display_settings, display_property] at h
  · rw [h]
  · rcases value with _ | value <;> rcases value' with _ | value' <;> simp at h
    · rw [h]
    · subst h
      exact absurd (by simp) ha
    · subst h
      exact absurd (by simp) hb
    · obtain ⟨rfl, rfl⟩ := Text.cut_inj ha hb h
      rfl
  · rw [h]
  · rw [h]

end HostCondition

namespace AmbientInput

theorem display_env (name : Text) : (env name).display = 'e' :: 'n' :: 'v' :: '.' :: name := by
  have h : "env.".toList = ['e', 'n', 'v', '.'] := by simp
  exact congrArg (· ++ name) h

theorem display_javaHome : javaHome.display = ['j', 'a', 'v', 'a', '.', 'h', 'o', 'm', 'e'] := by
  change "java.home".toList = _
  simp

theorem display_javaVersion :
    javaVersion.display = ['j', 'a', 'v', 'a', '.', 'v', 'e', 'r', 's', 'i', 'o', 'n'] := by
  change "java.version".toList = _
  simp

theorem display_osRelease :
    osRelease.display = ['o', 's', '-', 'r', 'e', 'l', 'e', 'a', 's', 'e'] := by
  change "os-release".toList = _
  simp

theorem display_settingsProperty (name : Text) : (settingsProperty name).display =
    's' :: 'e' :: 't' :: 't' :: 'i' :: 'n' :: 'g' :: 's' :: '-' ::
      ("property:".toList ++ name) := by
  have h : "settings-property:".toList =
      's' :: 'e' :: 't' :: 't' :: 'i' :: 'n' :: 'g' :: 's' :: '-' :: "property:".toList := by
    simp
  exact congrArg (· ++ name) h

theorem display_userProperty (name : Text) : (userProperty name).display =
    'u' :: ("ser-property".toList ++ ':' :: name) := by
  have h : "user-property:".toList = 'u' :: ("ser-property".toList ++ [':']) := by simp
  exact (congrArg (· ++ name) h).trans (by simp)

theorem display_userPropertyLookup (template : Text) : (userPropertyLookup template).display =
    'u' :: ("ser-property".toList ++ '-' :: ("lookup:".toList ++ template)) := by
  have h : "user-property-lookup:".toList =
      'u' :: ("ser-property".toList ++ '-' :: "lookup:".toList) := by simp
  exact (congrArg (· ++ template) h).trans (by simp)

theorem display_condition (tested : HostCondition) (holds : Bool) :
    (condition tested holds).display = tested.display ++
      if holds then [' ', 'i', 's', ' ', 't', 'r', 'u', 'e']
      else [' ', 'i', 's', ' ', 'f', 'a', 'l', 's', 'e'] := by
  have ht : " is true".toList = [' ', 'i', 's', ' ', 't', 'r', 'u', 'e'] := by simp
  have hf : " is false".toList = [' ', 'i', 's', ' ', 'f', 'a', 'l', 's', 'e'] := by simp
  rw [← ht, ← hf]
  rfl

theorem condition_display_inj {a b : HostCondition} {holds holds' : Bool}
    (h : (condition a holds).display = (condition b holds').display) :
    a.display = b.display ∧ holds = holds' := by
  have h := congrArg List.reverse h
  rw [display_condition, display_condition] at h
  cases holds <;> cases holds' <;> simp at h
  · exact ⟨h, rfl⟩
  · exact ⟨h, rfl⟩

theorem display_condition_ne {tested : HostCondition} {holds : Bool} {b : AmbientInput}
    (h : (condition tested holds).display = b.display) :
    ∃ tested' holds', b = condition tested' holds' := by
  rw [display_condition] at h
  cases b with
  | condition tested' holds' => exact ⟨tested', holds', rfl⟩
  | _ =>
    exfalso
    cases tested <;>
      simp [HostCondition.display_jdk, HostCondition.display_file, HostCondition.display_settings,
        HostCondition.display_property, display_env, display_javaHome, display_javaVersion,
        display_osRelease, display_settingsProperty, display_userProperty,
        display_userPropertyLookup] at h

theorem display_inj {a b : AmbientInput} (ha : a.IsPlain) (hb : b.IsPlain)
    (h : a.display = b.display) : a = b := by
  by_cases hcondition : ∃ tested holds, a = condition tested holds
  · obtain ⟨tested, holds, rfl⟩ := hcondition
    obtain ⟨tested', holds', rfl⟩ := display_condition_ne h
    obtain ⟨htested, rfl⟩ := condition_display_inj h
    rw [HostCondition.display_inj ha hb htested]
  · cases a <;> cases b <;>
      first
      | exact absurd ⟨_, _, rfl⟩ hcondition
      | exact absurd (display_condition_ne h.symm) hcondition
      | simp_all [display_env, display_javaHome, display_javaVersion, display_osRelease,
          display_settingsProperty, display_userProperty, display_userPropertyLookup]

end AmbientInput

/-- Inputs are ordered, and told apart in sets and maps, by their texts. -/
abbrev AmbientSet := Ordered AmbientInput.display

def hostInputs (ambient : AmbientSet) : AmbientSet :=
  ambient.filter fun input => !input.isPropertyName

end Raeva.Lock
