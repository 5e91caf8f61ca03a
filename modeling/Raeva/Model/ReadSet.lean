import Raeva.Library.Reads
import Raeva.Model.Interpolation

/-!
# The names an interpolation reads

An interpolation notes each property name before it looks it up.  Over a second
map that agrees with the first on the noted names, every part of the expansion
does the same from the same walk, so the whole interpolation gives the same
result and notes the same names.
-/

namespace Raeva.Model

open Attempt (Replays)

def noted (walk : Walk) (name : Text) : Prop :=
  name ∈ walk.names

section Replays

variable {agreed : Text → Prop} {props props' : Table Text Text} {lookup : Lookup}
  {inner inner' : Text → Expanding Text}

theorem checkLength_replays (output : Text) :
    Replays noted agreed (checkLength output) (checkLength output) := by
  rw [checkLength]
  split
  · exact .fail _
  · exact .pure ()

theorem chargeResolved_replays (name value : Text) :
    Replays noted agreed (chargeResolved name value) (chargeResolved name value) := by
  refine .bind (.modify fun _ _ h => h) fun _ => ?_
  refine .bind Replays.get fun walk => ?_
  split
  · exact .fail _
  · exact .pure ()

variable (hinner : ∀ text, Replays noted agreed (inner text) (inner' text))
include hinner

theorem expandNamed_replays (name raw : Text) :
    Replays noted agreed (expandNamed inner name raw) (expandNamed inner' name raw) := by
  refine .bind Replays.get fun walk => ?_
  refine .bind (.modify fun _ _ h => h) fun _ => ?_
  split
  · exact .fail _
  · refine .bind (hinner raw) fun resolved => ?_
    exact .bind (.modify fun _ _ h => h) fun _ => .pure resolved

theorem resolveBuild_replays (field : Text) :
    Replays noted agreed (resolveBuild lookup inner field) (resolveBuild lookup inner' field) := by
  rw [resolveBuild, resolveBuild]
  cases buildValue field lookup.project with
  | none => exact .pure none
  | some raw =>
    refine .bind Replays.get fun walk => ?_
    cases walk.build.lookup field with
    | some value => exact .pure _
    | none =>
      refine .bind (expandNamed_replays hinner _ _) fun resolved => ?_
      refine .bind (chargeResolved_replays _ _) fun _ => ?_
      exact .bind (.modify fun _ _ h => h) fun _ => .pure _

theorem resolveBuildOf_replays (field : Option Text) :
    Replays noted agreed
      (match field with
        | some field => resolveBuild lookup inner field
        | none => Pure.pure none)
      (match field with
        | some field => resolveBuild lookup inner' field
        | none => Pure.pure none) := by
  cases field with
  | none => exact .pure none
  | some field => exact resolveBuild_replays hinner field

theorem resolvePrerequisite_replays (key : Text) :
    Replays noted agreed (resolvePrerequisite lookup inner key)
      (resolvePrerequisite lookup inner' key) := by
  rw [resolvePrerequisite, resolvePrerequisite]
  split
  · cases lookup.project.bind (·.prerequisitesMaven) with
    | none => exact .pure none
    | some raw => exact .bind (expandNamed_replays hinner _ _) fun _ => .pure _
  · exact .pure none

theorem resolveProperty_replays (key raw : Text) :
    Replays noted agreed (resolveProperty inner key raw) (resolveProperty inner' key raw) := by
  refine .bind Replays.get fun walk => ?_
  cases walk.resolved.lookup key with
  | some value => exact .pure _
  | none =>
    refine .bind (expandNamed_replays hinner _ _) fun resolved => ?_
    refine .bind (chargeResolved_replays _ _) fun _ => ?_
    exact .bind (.modify fun _ _ h => h) fun _ => .pure _

theorem resolveAbsent_replays (written key : Text) :
    Replays noted agreed (resolveAbsent lookup inner written key)
      (resolveAbsent lookup inner' written key) := by
  refine .firstSome (.cons (.pure _) (.cons (.pure _) (.cons ?_
    (.cons (.pure _) .nil))))
  exact resolveBuildOf_replays hinner _

theorem resolveFound_replays (written key : Text) (found : Option Text) :
    Replays noted agreed
      (match found with
        | none => resolveAbsent lookup inner written key
        | some raw => resolveProperty inner key raw)
      (match found with
        | none => resolveAbsent lookup inner' written key
        | some raw => resolveProperty inner' key raw) := by
  cases found with
  | none => exact resolveAbsent_replays hinner written key
  | some raw => exact resolveProperty_replays hinner key raw

end Replays

section Agree

variable {props props' : Table Text Text} {lookup : Lookup} {inner inner' : Text → Expanding Text}

/-- The names under which two maps hold the same value, or none. -/
def Agree (props props' : Table Text Text) (name : Text) : Prop :=
  props.lookup name = props'.lookup name

variable (hinner : ∀ text, Replays noted (Agree props props') (inner text) (inner' text))
include hinner

theorem resolveNamed_replays (written : Text) :
    Replays noted (Agree props props') (resolveNamed props lookup inner written)
      (resolveNamed props' lookup inner' written) := by
  refine .read (k := (propertyAlias written).getD written) ?_ ?_ ?_ ?_
  · exact fun walk name h => Finset.mem_insert_of_mem h
  · exact fun walk => Finset.mem_insert_self _ _
  · exact resolveFound_replays (fun text => .same (hinner text).keeps) written _ _
  · intro hagree
    rw [← show props.lookup _ = props'.lookup _ from hagree]
    exact resolveFound_replays hinner written _ _

theorem resolveValueInner_replays (key : Text) :
    Replays noted (Agree props props') (resolveValueInner props lookup inner key)
      (resolveValueInner props' lookup inner' key) := by
  refine .firstSome (.cons ?_ (.cons (.pure _) (.cons ?_ (.cons ?_ .nil))))
  · exact resolveBuildOf_replays hinner _
  · exact resolvePrerequisite_replays hinner key
  · exact resolveNamed_replays hinner key

theorem substitute_replays (left : ℕ) (output : Text) (part : Text × Text) :
    Replays noted (Agree props props') (substitute props lookup inner left output part)
      (substitute props' lookup inner' left output part) := by
  have hvalue : ∀ key, Replays noted (Agree props props')
      (resolveValueInner props lookup inner key >>= fun value =>
        let output := output ++ part.1 ++ value.getD (opening ++ key ++ ['}'])
        checkLength output >>= fun _ => pure output)
      (resolveValueInner props' lookup inner' key >>= fun value =>
        let output := output ++ part.1 ++ value.getD (opening ++ key ++ ['}'])
        checkLength output >>= fun _ => pure output) := by
    intro key
    refine .bind (resolveValueInner_replays hinner key) fun value => ?_
    exact .bind (checkLength_replays _) fun _ => .pure _
  rw [substitute, substitute]
  split
  · exact .bind (.pure _) hvalue
  · exact .bind (hinner _) hvalue

end Agree

theorem interpolateStrInner_replays (props props' : Table Text Text) (lookup : Lookup) (left : ℕ)
    (input : Text) :
    Replays noted (Agree props props') (interpolateStrInner props lookup left input)
      (interpolateStrInner props' lookup left input) := by
  induction left generalizing input with
  | zero => exact .fail _
  | succ left ih =>
    refine .bind (.foldlM (substitute_replays ih left) _ _) fun output => ?_
    exact .bind (checkLength_replays _) fun _ => .pure _

namespace PropertyMap

def WithinBudget (properties : PropertyMap) (input : Text) (lookup : Lookup) : Prop :=
  properties.expanded + properties.spent input lookup ≤ maxExpandedLength

instance (properties : PropertyMap) (input : Text) (lookup : Lookup) :
    Decidable (properties.WithinBudget input lookup) :=
  inferInstanceAs (Decidable (_ ≤ _))

theorem expand_of_withinBudget {properties : PropertyMap} {input : Text} {lookup : Lookup}
    (h : properties.WithinBudget input lookup) :
    (properties.expand input lookup).1 = (properties.walkOf input lookup).1 := by
  rw [expand]
  cases hwalk : (properties.walkOf input lookup).1 with
  | error e => rfl
  | ok output => exact congrArg Prod.fst (if_neg (Nat.not_lt.mpr h))

theorem walkOf_eq {first second : PropertyMap} {input : Text} {lookup : Lookup}
    (hagree : ∀ name ∈ (first.walkOf input lookup).2.names, first.get name = second.get name) :
    second.walkOf input lookup = first.walkOf input lookup :=
  (interpolateStrInner_replays first.props second.props lookup maxInterpolationDepth input).repeats
    Walk.start hagree

/-- What an interpolation over exact names gives, and the names it reports, are
decided by the names it reports: a map that holds the same under each of them,
or nothing where the first holds nothing, gives the same. -/
theorem replayExactNames_of_agree (first second : PropertyMap) (input : Text)
    (environment : ModelEnvironment)
    (hagree : ∀ name ∈ (first.replayExactNames input environment).2,
      first.get name = second.get name)
    (hfirst : first.WithinBudget input ⟨none, none, some environment, false⟩)
    (hsecond : second.WithinBudget input ⟨none, none, some environment, false⟩) :
    second.replayExactNames input environment = first.replayExactNames input environment := by
  have hwalk := walkOf_eq hagree
  rw [replayExactNames, replayExactNames, interpolateNames, interpolateNames,
    expand_of_withinBudget hfirst, expand_of_withinBudget hsecond, hwalk]

def bareEnvironment : ModelEnvironment :=
  ⟨none, none, ∅, ∅, [], false, none, none⟩

def releaseProperties : Table Text Text :=
  ((∅ : Table Text Text).insert "lib.version".toList "$\x7bmajor\x7d.0".toList).insert
    "major" "3"

/-- Under an unread name the second map holds more, under an absent name both
hold nothing. -/
theorem replayExactNames_of_agree_release :
    (PropertyMap.mk releaseProperties 0).replayExactNames
        "$\x7blib.version\x7d$\x7bsuffix\x7d".toList bareEnvironment =
      (PropertyMap.mk (releaseProperties.insert "unread".toList "1".toList) 5).replayExactNames
        "$\x7blib.version\x7d$\x7bsuffix\x7d".toList bareEnvironment :=
  (replayExactNames_of_agree _ _ _ bareEnvironment (by decide +kernel) (by decide +kernel)
    (by decide +kernel)).symm

end PropertyMap

end Raeva.Model
