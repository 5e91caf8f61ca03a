import Raeva.Model.Interpolation

/-!
# What an expansion depends on

Two scopes, each a property map and a place to look other names up, expand a
text alike when they read each name of it alike, and each text that such a name
leads to in turn.
-/

namespace Raeva.Model

open List

/-! ## The names of model fields -/

def modelField (name : Text) : Option Text :=
  (Text.stripPrefix name "project.").or (Text.stripPrefix name "pom.")

variable {name field : Text}

theorem modelField_eq_some (h : modelField name = some field) :
    name = "project." ++ field ∨ name = "pom." ++ field := by
  rcases Option.or_eq_some_iff.mp h with h | ⟨-, h⟩
  · exact .inl (Text.stripPrefix_eq_some.mp h)
  · exact .inr (Text.stripPrefix_eq_some.mp h)

theorem modelField_project (field : Text) : modelField ("project." ++ field) = some field := by
  rw [modelField, Text.stripPrefix_append]
  rfl

theorem modelField_pom (field : Text) : modelField ("pom." ++ field) = some field := by
  rw [modelField, Text.stripPrefix_append]
  rfl

theorem stripModel_of_modelField (h : modelField name = some field) (start : Text) :
    (Text.stripPrefix name ("project." ++ start)).or
      (Text.stripPrefix name ("pom." ++ start)) = Text.stripPrefix field start := by
  rcases modelField_eq_some h with rfl | rfl
  · have hother : Text.stripPrefix ("project." ++ field) ("pom." ++ start) = none :=
      rfl
    rw [Text.stripPrefix_append_append, hother, Option.or_none]
  · have hother : Text.stripPrefix ("pom." ++ field) ("project." ++ start) = none :=
      rfl
    rw [Text.stripPrefix_append_append, hother, Option.none_or]

theorem stripModel_of_modelField_none (h : modelField name = none) (start : Text) :
    (Text.stripPrefix name ("project." ++ start)).or
      (Text.stripPrefix name ("pom." ++ start)) = none := by
  cases hor : (Text.stripPrefix name ("project." ++ start)).or
      (Text.stripPrefix name ("pom." ++ start)) with
  | none => rfl
  | some rest =>
    rcases Option.or_eq_some_iff.mp hor with hname | ⟨-, hname⟩
    · rw [Text.stripPrefix_eq_some.mp hname, append_assoc, modelField_project] at h
      cases h
    · rw [Text.stripPrefix_eq_some.mp hname, append_assoc, modelField_pom] at h
      cases h

theorem modelBuildField_of_modelField (h : modelField name = some field) :
    modelBuildField name = Text.stripPrefix field "build." :=
  stripModel_of_modelField h "build."

theorem propertyAlias_of_modelField (h : modelField name = some field) :
    propertyAlias name = Text.stripPrefix field "properties." :=
  stripModel_of_modelField h "properties."

theorem modelBuildField_of_modelField_none (h : modelField name = none) :
    modelBuildField name = none :=
  stripModel_of_modelField_none h "build."

def readModelField (field : Text) (project : ProjectInfo) : Option Text :=
  if field = "basedir" then project.basedir
  else if field = "baseUri" then project.basedir.map directoryUri
  else resolveUnprefixedModelField field (some project)

theorem resolveProjectName_project (field : Text) (project : ProjectInfo) :
    resolveProjectName ("project." ++ field) (some project) =
      readModelField field project := by
  have hbasedir : ("project." ++ field = "project.basedir" ∨
      "project." ++ field = "basedir") ↔ field = "basedir" := by
    constructor
    · rintro (h | h)
      · exact append_cancel_left h
      · cases h
    · rintro rfl
      exact .inl rfl
  have huri : "project." ++ field = "project.baseUri" ↔ field = "baseUri" := by
    constructor
    · exact fun h => append_cancel_left h
    · rintro rfl
      rfl
  have hstrip := Text.stripPrefix_append "project." field
  simp only [resolveProjectName, Option.bind_some, readModelField, hbasedir, huri, hstrip]

theorem resolveBuiltin_of_modelField (h : modelField name = some field) (project : ProjectInfo) :
    resolveBuiltin name (some project) = readModelField field project := by
  rcases modelField_eq_some h with rfl | rfl
  · exact resolveProjectName_project field project
  · have hother : resolveProjectName ("pom." ++ field) (some project) = none := rfl
    rw [resolveBuiltin, Text.stripPrefix_append]
    simp only [resolveProjectName_project, hother, Option.or_none]

theorem resolveBuiltin_of_modelField_none (h : modelField name = none) (project : ProjectInfo) :
    resolveBuiltin name (some project) =
      if name = "basedir" then project.basedir else none := by
  have hproject : Text.stripPrefix name "project." = none := (Option.or_eq_none_iff.mp h).1
  have hpom : Text.stripPrefix name "pom." = none := (Option.or_eq_none_iff.mp h).2
  have hname : ∀ field, name ≠ "project." ++ field := by
    intro field hfield
    rw [hfield, modelField_project] at h
    cases h
  have hbasedir : (name = "project.basedir" ∨ name = "basedir") ↔
      name = "basedir" :=
    ⟨fun h => h.resolve_left (hname "basedir"), .inr⟩
  have huri : name ≠ "project.baseUri" := hname "baseUri"
  simp only [resolveBuiltin, hpom, resolveProjectName, Option.bind_some, hbasedir, if_neg huri,
    hproject, Option.bind_none]

def parentNames : List Text :=
  ["parent.groupId", "parent.artifactId", "parent.version"]

theorem resolveUnprefixedModelField_noParent {project : ProjectInfo} (h : project.parent = none)
    (hfield : field ∈ parentNames) : resolveUnprefixedModelField field (some project) = none := by
  simp only [parentNames, mem_cons, not_mem_nil, or_false] at hfield
  rcases hfield with rfl | rfl | rfl
  · exact congrArg (Option.map ParentInfo.groupId) h
  · exact congrArg (Option.map ParentInfo.artifactId) h
  · exact congrArg (Option.map ParentInfo.version) h

theorem resolveUnprefixedModelField_none {project : ProjectInfo}
    (h : field ∉ ["groupId".toList, "artifactId".toList, "version".toList, "packaging".toList])
    (hparent : field ∉ parentNames) : resolveUnprefixedModelField field (some project) = none := by
  simp only [mem_cons, not_mem_nil, or_false, not_or, parentNames] at h hparent
  obtain ⟨hgroup, hartifact, hversion, hpackaging⟩ := h
  obtain ⟨hparentGroup, hparentArtifact, hparentVersion⟩ := hparent
  rw [resolveUnprefixedModelField, Option.bind_some, if_neg hgroup, if_neg hartifact,
    if_neg hversion, if_neg hpackaging, if_neg hparentGroup, if_neg hparentArtifact,
    if_neg hparentVersion]

theorem resolveUnprefixedModelField_of_modelField (h : modelField name = some field)
    (project : ProjectInfo) :
    resolveUnprefixedModelField name (some project) = none ∧
      Text.stripPrefix name "build." = none := by
  rcases modelField_eq_some h with rfl | rfl <;> exact ⟨rfl, rfl⟩

/-! ## What a key reads, part by part -/

section Resolve

variable {props props' : Table Text Text} {lookup lookup' : Lookup}
  {inner inner' : Text → Expanding Text} {key : Text}

variable {raw field : Text}

theorem expandNamed_congr (h : inner raw = inner' raw) (name : Text) :
    expandNamed inner name raw = expandNamed inner' name raw := by
  rw [expandNamed, expandNamed, h]

theorem resolveBuild_congr
    (hvalue : buildValue field lookup.project = buildValue field lookup'.project)
    (halign : ∀ value,
      alignBuild field value lookup.project = alignBuild field value lookup'.project)
    (hinner : ∀ raw, buildValue field lookup.project = some raw → inner raw = inner' raw) :
    resolveBuild lookup inner field = resolveBuild lookup' inner' field := by
  rw [resolveBuild, resolveBuild, ← hvalue]
  cases hraw : buildValue field lookup.project with
  | none => rfl
  | some raw => simp only [expandNamed_congr (hinner raw hraw), halign]

theorem resolveBuild_none (h : buildValue field lookup.project = none) :
    resolveBuild lookup inner field = pure none := by
  rw [resolveBuild, h]

theorem resolveBuild_finds (h : buildValue field lookup.project = some raw) :
    Attempt.Finds (resolveBuild lookup inner field) := by
  rw [resolveBuild, h]
  refine .bind fun walk => ?_
  cases walk.build.lookup field with
  | some value => exact .pure value
  | none =>
    refine .bind fun resolved => ?_
    refine .bind fun _ => ?_
    exact .bind fun _ => .pure _

theorem resolveProperty_congr (h : inner raw = inner' raw) :
    resolveProperty inner key raw = resolveProperty inner' key raw := by
  simp only [resolveProperty, expandNamed_congr h]

/-- A name is read alike when it has the same value in both maps, and reads the
same without one. -/
theorem resolveNamed_congr
    (hlookup : props.lookup ((propertyAlias key).getD key) =
      props'.lookup ((propertyAlias key).getD key))
    (hfound : ∀ raw, props.lookup ((propertyAlias key).getD key) = some raw →
      inner raw = inner' raw)
    (habsent : props.lookup ((propertyAlias key).getD key) = none →
      resolveAbsent lookup inner key ((propertyAlias key).getD key) =
        resolveAbsent lookup' inner' key ((propertyAlias key).getD key)) :
    resolveNamed props lookup inner key = resolveNamed props' lookup' inner' key := by
  simp only [resolveNamed, ← hlookup]
  cases hraw : props.lookup ((propertyAlias key).getD key) with
  | none => simp only [habsent hraw]
  | some raw => simp only [resolveProperty_congr (hfound raw hraw)]

theorem resolveValueInner_of_build (hfield : modelBuildField key = some field)
    (hraw : buildValue field lookup.project = some raw) :
    resolveValueInner props lookup inner key = resolveBuild lookup inner field := by
  rw [resolveValueInner, hfield]
  exact Attempt.firstSome_of_finds _ (resolveBuild_finds hraw)

theorem resolveValueInner_of_builtin {value : Text}
    (hbuild : ∀ field, modelBuildField key = some field → buildValue field lookup.project = none)
    (hbuiltin : resolveBuiltin key lookup.project = some value) :
    resolveValueInner props lookup inner key = pure (some value) := by
  rw [resolveValueInner, hbuiltin]
  cases hfield : modelBuildField key with
  | none => rfl
  | some field =>
    simp only [resolveBuild_none (hbuild field hfield)]
    rfl

theorem resolveValueInner_of_named
    (hbuild : ∀ field, modelBuildField key = some field → buildValue field lookup.project = none)
    (hbuiltin : resolveBuiltin key lookup.project = none)
    (hprerequisite : lookup.project.bind (·.prerequisitesMaven) = none ∨
      (key ≠ "project.prerequisites.maven" ∧ key ≠ "pom.prerequisites.maven")) :
    resolveValueInner props lookup inner key = resolveNamed props lookup inner key := by
  have hpre : resolvePrerequisite lookup inner key = pure none := by
    rw [resolvePrerequisite]
    split
    · rename_i hkey
      rcases hprerequisite with hnone | ⟨hproject, hpom⟩
      · rw [hnone]
      · exact absurd hkey (not_or.mpr ⟨hproject, hpom⟩)
    · rfl
  rw [resolveValueInner, hbuiltin, hpre]
  cases hfield : modelBuildField key with
  | none => exact Attempt.firstSome_singleton _
  | some field =>
    simp only [resolveBuild_none (hbuild field hfield)]
    exact Attempt.firstSome_singleton _

end Resolve

/-! ## Texts that are expanded alike -/

section Congruence

variable (covered : Text → Prop) (props props' : Table Text Text) (lookup lookup' : Lookup)

/-- The two scopes do the same with a name, if they expand the covered texts
alike. -/
def ReadsAlike (key : Text) : Prop :=
  ∀ inner inner' : Text → Expanding Text, (∀ text, covered text → inner text = inner' text) →
    resolveValueInner props lookup inner key = resolveValueInner props' lookup' inner' key

variable {covered props props' lookup lookup'}

theorem expressions_of_not_contains {input : Text} (h : Text.contains input opening = false) :
    expressions input = ([], input) := by
  have hfind : Text.find opening input = none := by
    simpa [Text.contains] using h
  rw [expressions_eq, nextExpression, hfind]
  rfl

theorem interpolateStrInner_of_long {input : Text} (hplain : Text.contains input opening = false)
    (hlong : maxInterpolationLength < Text.byteLen input) (left : ℕ) :
    interpolateStrInner props lookup (left + 1) input = Attempt.fail tooLarge := by
  rw [interpolateStrInner, expressions_of_not_contains hplain]
  funext walk
  have hcheck : checkLength ([] ++ input) = Attempt.fail tooLarge := if_pos hlong
  exact congrFun (congrArg (fun check : Expanding Unit =>
    check >>= fun _ => (pure ([] ++ input) : Expanding Text)) hcheck) walk

theorem substitute_congr (left : ℕ) (output : Text) (part : Text × Text)
    (hplain : Text.contains part.2 opening = false)
    (hvalue : resolveValueInner props lookup (interpolateStrInner props lookup left) part.2 =
      resolveValueInner props' lookup' (interpolateStrInner props' lookup' left) part.2) :
    substitute props lookup (interpolateStrInner props lookup left) left output part =
      substitute props' lookup' (interpolateStrInner props' lookup' left) left output part := by
  rw [substitute, substitute]
  cases left with
  | zero =>
    have hcond : ¬ ((0 : ℕ) ≠ 0 ∧ Text.byteLen part.2 ≤ maxInterpolationLength ∧
        !Text.contains part.2 opening) := fun h => h.1 rfl
    rw [if_neg hcond, if_neg hcond, interpolateStrInner, interpolateStrInner,
      Attempt.fail_bind, Attempt.fail_bind]
  | succ left =>
    by_cases hlong : maxInterpolationLength < Text.byteLen part.2
    · -- the key is expanded only to fail
      have hcond : ¬ (left + 1 ≠ 0 ∧ Text.byteLen part.2 ≤ maxInterpolationLength ∧
          !Text.contains part.2 opening) := fun h => absurd h.2.1 (Nat.not_le.mpr hlong)
      rw [if_neg hcond, if_neg hcond, interpolateStrInner_of_long hplain hlong,
        interpolateStrInner_of_long hplain hlong, Attempt.fail_bind, Attempt.fail_bind]
    · have hcond : left + 1 ≠ 0 ∧ Text.byteLen part.2 ≤ maxInterpolationLength ∧
          !Text.contains part.2 opening :=
        ⟨Nat.succ_ne_zero left, Nat.not_lt.mp hlong, by simp [hplain]⟩
      rw [if_pos hcond, if_pos hcond, Attempt.pure_bind, Attempt.pure_bind]
      simp only [hvalue]

/-- Two scopes expand every covered text alike, if they read alike each name of
a covered text, and no such name holds an expression itself. -/
theorem interpolateStrInner_congr
    (h : ∀ text, covered text → ∀ name ∈ expressionNames text,
      Text.contains name opening = false ∧ ReadsAlike covered props props' lookup lookup' name)
    (left : ℕ) {text : Text} (htext : covered text) :
    interpolateStrInner props lookup left text = interpolateStrInner props' lookup' left text := by
  induction left generalizing text with
  | zero => rfl
  | succ left ih =>
    have hfold : (expressions text).1.foldlM
          (substitute props lookup (interpolateStrInner props lookup left) left) [] =
        (expressions text).1.foldlM
          (substitute props' lookup' (interpolateStrInner props' lookup' left) left) [] := by
      refine Attempt.foldlM_congr (fun output part hpart => ?_) []
      obtain ⟨hplain, halike⟩ := h text htext part.2 (mem_map.mpr ⟨part, hpart, rfl⟩)
      exact substitute_congr left output part hplain (halike _ _ fun text htext => ih htext)
    rw [interpolateStrInner, interpolateStrInner]
    simp only [hfold]

end Congruence

end Raeva.Model
