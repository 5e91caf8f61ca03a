import Raeva.Model.CleanText

/-!
# URLs that keep the project's trust

The coordinates of a model and then the URL are expanded twice, over two chains
with different values in their fetched POMs.  The coordinates are expanded one
after the other, and one that is clean never reads itself, so those that the URL
reads come out alike, and then so does the URL.
-/

namespace Raeva.Model

open List

/-! ## One coordinate -/

variable {props : Table Text Text} {project : ProjectInfo} {field : Text}
  {value input raw text : Text} {pom : Pom}

theorem interpolateStrWith_returns {lookup : Lookup}
    (h : (interpolateStrWith props lookup input).Returns value) :
    (Text.byteLen input ≤ maxInterpolationLength ∧ !Text.contains input opening) ∧ value = input ∨
      ¬ (Text.byteLen input ≤ maxInterpolationLength ∧ !Text.contains input opening) ∧
        (interpolateStrInner props lookup maxInterpolationDepth input Walk.start).1 =
          .ok value := by
  rw [interpolateStrWith] at h
  by_cases hplain : Text.byteLen input ≤ maxInterpolationLength ∧ !Text.contains input opening
  · rw [if_pos hplain] at h
    exact .inl ⟨hplain, h.of_pure⟩
  rw [if_neg hplain] at h
  refine .inr ⟨hplain, ?_⟩
  obtain ⟨expanded, expanded', -, h⟩ := h
  have hresult := congrArg Prod.fst h
  change ((PropertyMap.mk props expanded).expand input lookup).1 = .ok value at hresult
  rw [PropertyMap.expand] at hresult
  change (interpolateStrInner props lookup maxInterpolationDepth input Walk.start).1 = .ok value
  cases hwalk : ((PropertyMap.mk props expanded).walkOf input lookup).1 with
  | error e =>
    simp only [hwalk] at hresult
    cases hresult
  | ok output =>
    simp only [hwalk] at hresult
    split at hresult
    · cases hresult
    · cases hresult
      exact hwalk

theorem interpolateStrWith_eq {props' : Table Text Text} {lookup lookup' : Lookup} {value' : Text}
    (heq : interpolateStrInner props lookup maxInterpolationDepth input =
      interpolateStrInner props' lookup' maxInterpolationDepth input)
    (h : (interpolateStrWith props lookup input).Returns value)
    (h' : (interpolateStrWith props' lookup' input).Returns value') : value' = value := by
  rcases interpolateStrWith_returns h with ⟨hplain, rfl⟩ | ⟨hplain, hwalk⟩
  · rcases interpolateStrWith_returns h' with ⟨-, rfl⟩ | ⟨hplain', -⟩
    · rfl
    · exact absurd hplain hplain'
  · rcases interpolateStrWith_returns h' with ⟨hplain', -⟩ | ⟨-, hwalk'⟩
    · exact absurd hplain' hplain
    · rw [heq, hwalk'] at hwalk
      exact Except.ok.inj hwalk

theorem expandCoordinate_returns (h : (expandCoordinate props project raw field).Returns value) :
    value ≠ [] ∧ ∃ expanded, (interpolateStr props project raw).Returns expanded ∧
      value = Text.trim expanded := by
  obtain ⟨expanded, hexpanded, h⟩ := h.bind
  simp only [] at h
  split at h
  · exact absurd h Attempt.not_returns_fail
  rename_i hne
  have hvalue := h.of_pure
  subst hvalue
  simp only [Bool.or_eq_true, not_or, List.isEmpty_iff] at hne
  exact ⟨hne.1, expanded, hexpanded, rfl⟩

theorem isWhitespace_of_trim_eq_nil (h : Text.trim text = []) :
    ∀ c ∈ text, Text.isWhitespace c := by
  rw [Text.trim, rdropWhile_eq_nil_iff] at h
  intro c hc
  rw [← takeWhile_append_dropWhile (p := Text.isWhitespace) (l := text)] at hc
  rcases mem_append.mp hc with hc | hc
  · exact mem_takeWhile_imp hc
  · exact h c hc

theorem contains_opening_of_notMem (h : '$' ∉ text) : Text.contains text opening = false := by
  by_contra hcontains
  obtain ⟨start, hstart⟩ := Option.isSome_iff_exists.mp (Bool.eq_true_of_not_eq_false hcontains)
  have hfound := find?_some hstart
  obtain ⟨rest, hrest⟩ := isPrefixOf_iff_prefix.mp hfound
  refine h (mem_of_mem_drop (i := start) ?_)
  rw [← hrest]
  exact mem_cons_self

theorem trim_ne_nil_of_expandCoordinate
    (h : (expandCoordinate props project raw field).Returns value) : Text.trim raw ≠ [] := by
  intro hblank
  obtain ⟨hne, expanded, hexpanded, rfl⟩ := expandCoordinate_returns h
  have hplain : Text.contains raw opening = false := by
    refine contains_opening_of_notMem fun hmem => ?_
    exact absurd (isWhitespace_of_trim_eq_nil hblank '$' hmem) (by decide)
  rcases interpolateStrWith_returns hexpanded with ⟨-, rfl⟩ | ⟨hlong, hwalk⟩
  · exact hne hblank
  have hlong' : maxInterpolationLength < Text.byteLen raw := by
    by_contra hshort
    exact hlong ⟨Nat.not_lt.mp hshort, by simp [hplain]⟩
  have hfail : interpolateStrInner props (.ofProject project) maxInterpolationDepth raw =
      Attempt.fail tooLarge := interpolateStrInner_of_long hplain hlong' 99
  rw [hfail] at hwalk
  cases hwalk

/-! ## The coordinates, one after the other -/

/-- How the coordinates of a model came about: `base` has them as written. -/
structure Expanded (pom : Pom) (props : Table Text Text) (base project : ProjectInfo)
    (groupId artifactId version : Text) : Prop where
  groupId : (expandCoordinate props { base with groupId := [] } groupId
    "groupId").Returns project.groupId
  artifactId : (expandCoordinate props
    { base with
      groupId := project.groupId
      artifactId := [] } artifactId "artifactId").Returns project.artifactId
  version : (expandCoordinate props
    { base with
      groupId := project.groupId
      artifactId := project.artifactId
      version := [] } version "version").Returns project.version
  packaging : ∃ packaging, (interpolateStr props
    { base with
      groupId := project.groupId
      artifactId := project.artifactId
      version := project.version
      packaging := [] } (pom.packaging.getD "jar")).Returns packaging ∧
    project.packaging = Text.trim packaging
  eq : project = { base with
      groupId := project.groupId
      artifactId := project.artifactId
      version := project.version
      packaging := project.packaging }

theorem expandCoordinates_returns {groupId artifactId version : Text} {base : ProjectInfo}
    (h : (expandCoordinates props groupId artifactId version (pom.packaging.getD "jar")
      base).Returns project) : Expanded pom props base project groupId artifactId version := by
  obtain ⟨group, hgroup, h⟩ := h.bind
  obtain ⟨artifact, hartifact, h⟩ := h.bind
  obtain ⟨version', hversion, h⟩ := h.bind
  obtain ⟨packaging, hpackaging, h⟩ := h.bind
  have hproject := h.of_pure
  subst hproject
  exact ⟨hgroup, hartifact, hversion, ⟨packaging, hpackaging, rfl⟩, rfl⟩

theorem required_returns {value : Option Text} {result : Text}
    (h : (required value field).Returns result) : value = some result := by
  cases value with
  | none => exact absurd h Attempt.not_returns_fail
  | some value => rw [h.of_pure]

theorem projectInfoIn_returns {basedir : Option Text} {system : Table Text Text}
    {environment : ModelEnvironment}
    (h : (projectInfoIn pom props basedir system environment).Returns project) :
    ∃ parent groupId artifactId version,
      (parentInfo props system environment pom.parent).Returns parent ∧
      pom.groupId.or (pom.parent.map (·.groupId)) = some groupId ∧
      pom.artifactId = some artifactId ∧
      pom.version.or (pom.parent.map (·.version)) = some version ∧
      Expanded pom props (rawInfo pom groupId artifactId version parent basedir system environment)
        project groupId artifactId version := by
  obtain ⟨parent, hparent, h⟩ := h.bind
  obtain ⟨groupId, hgroup, h⟩ := h.bind
  obtain ⟨artifactId, hartifact, h⟩ := h.bind
  obtain ⟨version, hversion, h⟩ := h.bind
  exact ⟨parent, groupId, artifactId, version, hparent, required_returns hgroup,
    required_returns hartifact, required_returns hversion, expandCoordinates_returns h⟩

namespace Chain

variable {chain chain' : Chain} {ctx : ActivationContext}

variable {raw : Text} {project project' : ProjectInfo} {value value' : Text}
  {system : Table Text Text} {environment : ModelEnvironment}

theorem exists_least_clean (h : ∃ n, chain.Clean ctx n raw) :
    ∃ n, chain.Clean ctx (n + 1) raw ∧ ¬ chain.Clean ctx n raw := by
  obtain ⟨n, hn⟩ := h
  induction n with
  | zero => exact hn.elim
  | succ n ih =>
    by_cases hclean : chain.Clean ctx n raw
    · exact ih hclean
    · exact ⟨n, hn, hclean⟩

/-- A clean text is interpolated alike, if the models are alike wherever it does
not read itself. -/
theorem Replaces.interpolate_eq (hreplaces : chain.Replaces chain')
    (hclean : ∃ n, chain.Clean ctx n raw)
    (halike : ∀ n, ¬ chain.Clean ctx n raw → Alike chain chain' ctx n project project')
    (h : (interpolateStr (chain.modelProperties ctx) project raw).Returns value)
    (h' : (interpolateStr (chain'.modelProperties ctx) project' raw).Returns value') :
    value' = value := by
  obtain ⟨n, hn, hleast⟩ := exists_least_clean hclean
  exact interpolateStrWith_eq ((halike n hleast).interpolate_eq hreplaces hn _) h h'

theorem Replaces.expandCoordinate_eq (hreplaces : chain.Replaces chain')
    (hclean : ∃ n, chain.Clean ctx n raw)
    (halike : ∀ n, ¬ chain.Clean ctx n raw → Alike chain chain' ctx n project project')
    (h : (expandCoordinate (chain.modelProperties ctx) project raw field).Returns value)
    (h' : (expandCoordinate (chain'.modelProperties ctx) project' raw field).Returns value') :
    value' = value := by
  obtain ⟨-, expanded, hexpanded, rfl⟩ := expandCoordinate_returns h
  obtain ⟨-, expanded', hexpanded', rfl⟩ := expandCoordinate_returns h'
  rw [hreplaces.interpolate_eq hclean halike hexpanded hexpanded']

theorem Replaces.root (hreplaces : chain.Replaces chain') :
    chain'.effective.parent = chain.effective.parent ∧
      chain'.effective.artifactId = chain.effective.artifactId ∧
      chain'.effective.packaging = chain.effective.packaging := by
  obtain ⟨hparent, hartifact, hpackaging⟩ := chain.effective_root
  obtain ⟨hparent', hartifact', hpackaging'⟩ := chain'.effective_root
  rw [hparent, hartifact, hpackaging, hparent', hartifact', hpackaging']
  exact ⟨hreplaces.1.parent, hreplaces.1.artifactId, hreplaces.1.packaging⟩

theorem Replaces.expandParent_eq (hreplaces : chain.Replaces chain') {parent : Parent}
    {info info' : ParentInfo}
    (h : (expandParent (chain.modelProperties ctx) system environment parent).Returns info)
    (h' : (expandParent (chain'.modelProperties ctx) system environment parent).Returns info') :
    (¬ chain.fetchedValues.PlainTainted chain.effective.properties ctx parent.groupId →
      info'.groupId = info.groupId) ∧
    (¬ chain.fetchedValues.PlainTainted chain.effective.properties ctx parent.artifactId →
      info'.artifactId = info.artifactId) ∧
    (¬ chain.fetchedValues.PlainTainted chain.effective.properties ctx parent.version →
      info'.version = info.version) := by
  obtain ⟨groupId, hgroup, h⟩ := h.bind
  obtain ⟨artifactId, hartifact, h⟩ := h.bind
  obtain ⟨version, hversion, h⟩ := h.bind
  obtain ⟨groupId', hgroup', h'⟩ := h'.bind
  obtain ⟨artifactId', hartifact', h'⟩ := h'.bind
  obtain ⟨version', hversion', h'⟩ := h'.bind
  have hinfo := h.of_pure
  have hinfo' := h'.of_pure
  subst hinfo hinfo'
  refine ⟨fun hplain => ?_, fun hplain => ?_, fun hplain => ?_⟩
  · exact interpolateStrWith_eq (hreplaces.plain_eq rfl _ hplain) hgroup hgroup'
  · exact interpolateStrWith_eq (hreplaces.plain_eq rfl _ hplain) hartifact hartifact'
  · exact interpolateStrWith_eq (hreplaces.plain_eq rfl _ hplain) hversion hversion'

theorem SameScope.withCoordinates (h : SameScope chain chain' ctx project project')
    (groupId artifactId version packaging groupId' artifactId' version' packaging' : Text) :
    SameScope chain chain' ctx
      { project with
        groupId := groupId
        artifactId := artifactId
        version := version
        packaging := packaging }
      { project' with
        groupId := groupId'
        artifactId := artifactId'
        version := version'
        packaging := packaging' } := by
  refine ⟨h.basedir, h.systemProperties, h.environment, h.build, fun field raw hraw hplain => ?_,
    h.noParent⟩
  have hvalue := h.parent field raw hraw hplain
  have hfield := mem_parentNames_of_lookup hraw
  simp only [parentNames, mem_cons, not_mem_nil, or_false] at hfield
  rcases hfield with rfl | rfl | rfl <;> exact hvalue

theorem Replaces.sameScope (hreplaces : chain.Replaces chain') {parent parent' : Option ParentInfo}
    (h : (parentInfo (chain.modelProperties ctx) system environment
      chain.effective.parent).Returns parent)
    (h' : (parentInfo (chain'.modelProperties ctx) system environment
      chain'.effective.parent).Returns parent')
    (groupId artifactId version groupId' artifactId' version' : Text) :
    SameScope chain chain' ctx
      (rawInfo chain.effective groupId artifactId version parent ctx.baseDir system environment)
      (rawInfo chain'.effective groupId' artifactId' version' parent' ctx.baseDir system
        environment) := by
  rw [chain.effective_root.1] at h
  rw [hreplaces.root.1, chain.effective_root.1] at h'
  cases hroot : chain.root.parent with
  | none =>
    rw [hroot] at h h'
    have hparent := h.of_pure
    have hparent' := h'.of_pure
    subst hparent hparent'
    refine ⟨⟨rfl, rfl⟩, rfl, rfl, ⟨rfl, rfl⟩, fun field raw hraw _ => ?_, fun _ => ⟨rfl, rfl⟩⟩
    rw [Pom.parentFields, hroot] at hraw
    cases hraw
  | some reference =>
    rw [hroot] at h h'
    obtain ⟨info, hinfo, h⟩ := h.bind
    obtain ⟨info', hinfo', h'⟩ := h'.bind
    have hparent := h.of_pure
    have hparent' := h'.of_pure
    subst hparent hparent'
    refine ⟨⟨rfl, rfl⟩, rfl, rfl, ⟨rfl, rfl⟩, fun field raw hraw hplain => ?_,
      fun hnone => by rw [hnone] at hroot; cases hroot⟩
    obtain ⟨hgroup, hartifact, hversion⟩ := hreplaces.expandParent_eq hinfo hinfo'
    have hfield := mem_parentNames_of_lookup hraw
    rw [Pom.parentFields, hroot] at hraw
    simp only [parentNames, mem_cons, not_mem_nil, or_false] at hfield
    rcases hfield with rfl | rfl | rfl
    · cases hraw
      exact ⟨info.groupId, rfl, congrArg some (hgroup hplain)⟩
    · cases hraw
      exact ⟨info.artifactId, rfl, congrArg some (hartifact hplain)⟩
    · cases hraw
      exact ⟨info.version, rfl, congrArg some (hversion hplain)⟩

theorem Replaces.written {value value' : Option (Bool × Text)} (hsame : SameOrigin value value')
    {parent : Option Text} {written written' : Text}
    (h : (value.map Prod.snd).or parent = some written)
    (h' : (value'.map Prod.snd).or parent = some written') (hraw : value = some (false, raw)) :
    written = raw ∧ written' = raw := by
  rw [hsame.own raw hraw] at h'
  rw [hraw] at h
  exact ⟨(Option.some.inj h).symm, (Option.some.inj h').symm⟩

theorem Replaces.alike [Lowercase] (hreplaces : chain.Replaces chain')
    (h : (chain.projectInfo ctx).Returns project) (h' : (chain'.projectInfo ctx).Returns project')
    (n : ℕ) : Alike chain chain' ctx n project project' := by
  obtain ⟨parent, groupId, artifactId, version, hparent, hgroup, hartifact, hversion, hstages⟩ :=
    projectInfoIn_returns h
  obtain ⟨parent', groupId', artifactId', version', hparent', hgroup', hartifact', hversion',
    hstages'⟩ := projectInfoIn_returns h'
  have hscope := hreplaces.sameScope hparent hparent' groupId artifactId version groupId'
    artifactId' version'
  have hsame := hreplaces.sameOrigins
  obtain ⟨hrootParent, hrootArtifact, hrootPackaging⟩ := hreplaces.root
  rw [hrootArtifact, hartifact] at hartifact'
  cases hartifact'
  rw [hrootParent] at hgroup' hversion'
  rw [effective_groupId] at hgroup hgroup'
  rw [effective_version] at hversion hversion'
  rw [chain.effective_root.2.1] at hartifact
  have hpackaging : chain'.effective.packaging = chain.root.packaging :=
    hrootPackaging.trans chain.effective_root.2.2
  -- blank coordinates cannot be expanded
  have hartifactBlank := trim_ne_nil_of_expandCoordinate hstages.artifactId
  have hversionBlank := trim_ne_nil_of_expandCoordinate hstages.version
  have hversionRaw : ∀ raw, chain.fetchedValues.version = some (false, raw) →
      Text.trim version' = Text.trim version ∧ Text.trim version ≠ [] := by
    intro raw hraw
    obtain ⟨rfl, rfl⟩ := Replaces.written hsame.version hversion hversion' hraw
    exact ⟨rfl, hversionBlank⟩
  have hpackagingRaw : Text.trim (chain'.effective.packaging.getD "jar") =
      Text.trim (chain.effective.packaging.getD "jar") := by rw [hrootPackaging]
  have hgroupEq {n : ℕ} (raw : Text) (hraw : chain.fetchedValues.groupId = some (false, raw))
      (hclean : chain.Clean ctx n raw) :
      project'.groupId = project.groupId ∧ project.groupId ≠ [] := by
    have hstage := hstages.groupId
    have hstage' := hstages'.groupId
    obtain ⟨rfl, rfl⟩ := Replaces.written hsame.groupId hgroup hgroup' hraw
    refine ⟨hreplaces.expandCoordinate_eq ⟨n, hclean⟩ (fun n hleast => ?_) hstage hstage',
      (expandCoordinate_returns hstage).1⟩
    refine ⟨hscope.withCoordinates [] _ _ _ [] _ _ _, fun raw' hraw' hclean' => ?_,
      ⟨artifactId, hartifact, fun _ => ⟨rfl, hartifactBlank⟩⟩,
      fun raw hraw _ => hversionRaw raw hraw, fun _ => hpackagingRaw⟩
    rw [hraw] at hraw'
    cases hraw'
    exact absurd hclean' hleast
  have hartifactEq {n : ℕ} (hclean : chain.Clean ctx n artifactId) :
      project'.artifactId = project.artifactId ∧ project.artifactId ≠ [] := by
    refine ⟨hreplaces.expandCoordinate_eq ⟨n, hclean⟩ (fun n hleast => ?_) hstages.artifactId
      hstages'.artifactId, (expandCoordinate_returns hstages.artifactId).1⟩
    exact ⟨hscope.withCoordinates _ [] _ _ _ [] _ _, hgroupEq,
      ⟨artifactId, hartifact, fun hclean => absurd hclean hleast⟩,
      fun raw hraw _ => hversionRaw raw hraw, fun _ => hpackagingRaw⟩
  have hversionEq {n : ℕ} (raw : Text) (hraw : chain.fetchedValues.version = some (false, raw))
      (hclean : chain.Clean ctx n raw) :
      project'.version = project.version ∧ project.version ≠ [] := by
    have hstage := hstages.version
    have hstage' := hstages'.version
    obtain ⟨rfl, rfl⟩ := Replaces.written hsame.version hversion hversion' hraw
    refine ⟨hreplaces.expandCoordinate_eq ⟨n, hclean⟩ (fun n hleast => ?_) hstage hstage',
      (expandCoordinate_returns hstage).1⟩
    refine ⟨hscope.withCoordinates _ _ [] _ _ _ [] _, hgroupEq,
      ⟨artifactId, hartifact, hartifactEq⟩, fun raw' hraw' hclean' => ?_, fun _ => hpackagingRaw⟩
    rw [hraw] at hraw'
    cases hraw'
    exact absurd hclean' hleast
  have hpackagingEq (hclean : chain.Clean ctx n (chain.root.packaging.getD "jar")) :
      project'.packaging = project.packaging := by
    obtain ⟨packaging, hstage, hpackagingEq⟩ := hstages.packaging
    obtain ⟨packaging', hstage', hpackagingEq'⟩ := hstages'.packaging
    rw [chain.effective_root.2.2] at hstage
    rw [hpackaging] at hstage'
    rw [hpackagingEq, hpackagingEq']
    refine congrArg Text.trim
      (hreplaces.interpolate_eq ⟨n, hclean⟩ (fun n hleast => ?_) hstage hstage')
    exact ⟨hscope.withCoordinates _ _ _ [] _ _ _ [], hgroupEq, ⟨artifactId, hartifact, hartifactEq⟩,
      hversionEq, fun hclean => absurd hclean hleast⟩
  refine ⟨?_, hgroupEq, ⟨artifactId, hartifact, hartifactEq⟩, hversionEq, hpackagingEq⟩
  rw [hstages.eq, hstages'.eq]
  exact hscope.withCoordinates _ _ _ _ _ _ _ _

/-! ## Chains without a fetched POM -/

theorem settled_interpolateStr (props : Table Text Text) (project : ProjectInfo) (input : Text) :
    (interpolateStr props project input).Settled :=
  fun _ _ h h' => interpolateStrWith_eq rfl h' h

theorem settled_expandCoordinate (props : Table Text Text) (project : ProjectInfo)
    (raw field : Text) : (expandCoordinate props project raw field).Settled := by
  refine (settled_interpolateStr props project raw).bind fun value => ?_
  simp only []
  split
  · exact .fail _
  · exact .pure _

theorem settled_parentInfo (props system : Table Text Text) (environment : ModelEnvironment)
    (parent : Option Parent) : (parentInfo props system environment parent).Settled := by
  have hstep :
      ∀ (lookup : Lookup) (input : Text), (interpolateStrWith props lookup input).Settled :=
    fun _ _ _ _ h h' => interpolateStrWith_eq rfl h' h
  cases parent with
  | none => exact .pure none
  | some parent =>
    refine .bind ?_ fun info => .pure _
    refine (hstep _ _).bind fun groupId => ?_
    refine (hstep _ _).bind fun artifactId => ?_
    exact (hstep _ _).bind fun version => .pure _

theorem settled_required (value : Option Text) (field : Text) : (required value field).Settled := by
  cases value with
  | none => exact .fail _
  | some value => exact .pure value

theorem settled_interpolate [Lowercase] (chain : Chain) (ctx : ActivationContext) (text : Text) :
    (chain.interpolate ctx text).Settled := by
  refine .bind ?_ fun project => settled_interpolateStr _ project text
  refine (settled_parentInfo _ _ _ _).bind fun parent => ?_
  refine (settled_required _ _).bind fun groupId => ?_
  refine (settled_required _ _).bind fun artifactId => ?_
  refine (settled_required _ _).bind fun version => ?_
  refine (settled_expandCoordinate _ _ _ _).bind fun groupId => ?_
  refine (settled_expandCoordinate _ _ _ _).bind fun artifactId => ?_
  refine (settled_expandCoordinate _ _ _ _).bind fun version => ?_
  exact (settled_interpolateStr _ _ _).bind fun packaging => .pure _

theorem Replaces.eq_of_any (hreplaces : chain.Replaces chain')
    (hany : chain.fetchedValues.any = false) : chain' = chain := by
  have hstep : ∀ {pom pom' : Pom} {ancestors ancestors' : List Pom} {input : Bool},
      pom.Replaces input pom' → List.Forall₂ (Pom.Replaces false) ancestors ancestors' →
      (FetchedValues.ofChain pom ancestors input).any = false →
      pom' = pom ∧ ancestors' = ancestors := by
    intro pom pom' ancestors ancestors' input hpom hancestors hany
    have hroot : ∀ {values : FetchedValues} {input : Bool} {pom pom' : Pom},
        pom.Replaces input pom' → (values.record pom input).any = false →
        pom' = pom ∧ values.any = false := by
      intro values input pom pom' hpom hany
      obtain ⟨hvalues, hfetched⟩ := Bool.or_eq_false_iff.mp hany
      rcases hpom.fetched_or_eq with ⟨hfetched', -⟩ | ⟨-, heq⟩
      · rw [hfetched] at hfetched'
        cases hfetched'
      · exact ⟨heq, hvalues⟩
    induction hancestors generalizing pom pom' input with
    | nil => exact ⟨(hroot hpom hany).1, rfl⟩
    | cons hparent _ ih =>
      obtain ⟨heq, hrest⟩ := hroot hpom hany
      obtain ⟨hparentEq, hancestorsEq⟩ := ih hparent hrest
      exact ⟨heq, by rw [hparentEq, hancestorsEq]⟩
  obtain ⟨hroot, hancestors⟩ := hstep hreplaces.1 hreplaces.2 hany
  obtain ⟨root, ancestors⟩ := chain
  obtain ⟨root', ancestors'⟩ := chain'
  exact congrArg₂ Chain.mk hroot hancestors

/-! ## The URL -/

section Example

local instance trustLowercase : Lowercase := asciiLowercase

def projectContext : ActivationContext :=
  { ActivationContext.new ⟨none, none, ∅, ∅, [], false, none, none⟩ with
    baseDir := some "/work/app" }

def fetchedParent (name value : Text) : Pom :=
  { Pom.bare (some "com.x") (some "corp") (some "1") with
    provenance := some .remoteParentOfRoot
    properties := (∅ : Table Text Text).insert name value }

def localParent (version : Text) (properties : Table Text Text) : Pom :=
  { Pom.bare (some "com.x") (some "base") (some version) with
    provenance := some .localParent
    parent := some ⟨"com.x", "corp", "1"⟩
    properties := properties }

def rootPom (parentVersion : Text) : Pom :=
  { Pom.bare (some "com.x") (some "app") (some "2") with
    provenance := some .rootProject
    parent := some ⟨"com.x", "base", parentVersion⟩ }

theorem fetchedParent_replaces (name value value' : Text) :
    (fetchedParent name value).Replaces false (fetchedParent name value') :=
  ⟨rfl, rfl, rfl, rfl, rfl, rfl, rfl, fun _ => rfl⟩

/-- The host is the project's, whatever the fetched parent says. -/
def hostChain (host : Text) : Chain where
  root := rootPom "7"
  ancestors := [localParent "7" ((∅ : Table Text Text).insert "host"
    "repo.example"), fetchedParent "host" host]

def hostUrl : Text := "https://${host}/${project.parent.version}/"

theorem hostChain_names {inner name : Text}
    (hinner : inner ∈ [hostUrl, "repo.example".toList, "7".toList])
    (hname : name ∈ expressionNames inner) :
    name = "host".toList ∨ name = "project.parent.version".toList := by
  have hnames : ∀ inner ∈ [hostUrl, "repo.example".toList, "7".toList],
      ∀ name ∈ expressionNames inner,
        name = "host".toList ∨ name = "project.parent.version".toList := by decide +kernel
  exact hnames inner hinner name hname

theorem hostChain_reaches {inner : Text}
    (h : (hostChain "evil".toList).fetchedValues.Reaches
      (hostChain "evil".toList).effective.properties projectContext hostUrl inner) :
    inner ∈ [hostUrl, "repo.example".toList, "7".toList] := by
  induction h with
  | self => exact mem_cons_self
  | @follow inner name raw _ hname htrace ih =>
    rcases hostChain_names ih hname with rfl | rfl
    · have hvalue : (hostChain "evil".toList).fetchedValues.trace
          (hostChain "evil".toList).effective.properties projectContext "host".toList =
            .text "repo.example".toList := by decide +kernel
      rw [hvalue] at htrace
      cases htrace
      exact mem_cons_of_mem _ mem_cons_self
    · have hvalue : (hostChain "evil".toList).fetchedValues.trace
          (hostChain "evil".toList).effective.properties projectContext
          "project.parent.version".toList = .text "7".toList := by decide +kernel
      rw [hvalue] at htrace
      cases htrace
      exact mem_cons_of_mem _ (mem_cons_of_mem _ mem_cons_self)

theorem hostChain_seesAll : (hostChain "evil".toList).SeesAll projectContext hostUrl := by
  intro inner hinner name hname
  rcases hostChain_names (hostChain_reaches hinner) hname with rfl | rfl
  · refine ⟨fun field raw hreads hraw => ?_, fun _ _ _ => rfl, fun _ => rfl, fun _ => rfl⟩
    have hlookup : (hostChain "evil".toList).root.parentFields.lookup
        (fieldName "host".toList) = none := by decide +kernel
    rw [← hreads.1, hlookup] at hraw
    cases hraw
  · refine ⟨fun field raw hreads hraw hplain => ?_, fun _ _ _ => rfl, fun _ => rfl, fun _ => rfl⟩
    have hlookup : (hostChain "evil".toList).root.parentFields.lookup
        (fieldName "project.parent.version".toList) = some "7".toList := by decide +kernel
    rw [← hreads.1, hlookup] at hraw
    cases hraw
    cases hplain with
    | nested hname | chosen hname | follow hname => exact absurd hname not_mem_nil

/-- The parent's version is read as a property that a fetched POM sets. -/
def overlookedChain (value : Text) : Chain where
  root := rootPom "${project.artifactId}"
  ancestors := [localParent "${project.artifactId}" ∅,
    fetchedParent "project.artifactId" value]

def overlookedUrl : Text := "https://repo.example/${project.parent.version}/"

end Example

end Chain

end Raeva.Model
