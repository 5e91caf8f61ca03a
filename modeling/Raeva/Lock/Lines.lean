import Raeva.Lock.Canonical
import Raeva.Lock.Check

/-!
# Packages and edges as lines

A module's packages and edges are written as blocks of text with one row a
line, `encode_packages` and `encode_edges` of `rv-lock/src/codec.rs`.  The
blocks of a checked module can be read in one way only.
-/

namespace Raeva.Lock

open List

/-! ## The blocks -/

def packageKind (coordinate : ArtifactCoord) : Text :=
  match coordinate.classifier with
  | some classifier => coordinate.extension ++ ':' :: classifier
  | none => coordinate.extension

/-- The seven columns of a package line; the scope is left out where it is the
direct scope or `compile`. -/
def packageColumns (package : LockModulePackage) : List Text :=
  [package.coordinate.gav.display, packageKind package.coordinate,
    (package.directScope.map Scope.asStr).getD [],
    if package.directScope.getD .compile = package.scope then [] else package.scope.asStr,
    package.workspaceModule.getD [],
    package.systemPath.getD [],
    (package.systemSha256.map Hex.hex).getD []]

def packageLine (package : LockModulePackage) : Text :=
  Text.join ['\t'] ((packageColumns package).rdropWhile List.isEmpty)

def encodePackages (module : LockModule) : Text :=
  Text.join ['\n'] (module.packages.map packageLine)

/-- `from to [scope] [optional]`. -/
def edgeFields (edge : LockEdge) : List Text :=
  [Text.ofNat edge.source, Text.ofNat edge.target] ++ edge.scope.toList.map Scope.asStr ++
    if edge.optional then ["optional".toList] else []

def edgeLine (edge : LockEdge) : Text :=
  Text.join [' '] (edgeFields edge)

def encodeEdges (module : LockModule) : Text :=
  Text.join ['\n'] (module.edges.map edgeLine)

/-! ## Reading a package line -/

/-- What a line can hold: coordinates without the character between their
parts, no column with a separator, and no field that an empty column would
stand for. -/
structure LockModulePackage.Writable (package : LockModulePackage) : Prop where
  group : ':' ∉ package.coordinate.gav.group
  artifact : ':' ∉ package.coordinate.gav.artifact
  extension : ':' ∉ package.coordinate.extension
  columns : ∀ column ∈ packageColumns package, '\t' ∉ column ∧ '\n' ∉ column
  workspaceModule : package.workspaceModule ≠ some []
  systemPath : package.systemPath ≠ some []

variable {package : LockModulePackage} {row : Row} {path : Text} {a b : LockModulePackage}
  {m n : LockModule} {edge : LockEdge} {field : Text} {entry : LockPlatform} {used : Option ℕ}

theorem gavDisplay_inj {a b : Gav} (hag : ':' ∉ a.group) (haa : ':' ∉ a.artifact)
    (hbg : ':' ∉ b.group) (hba : ':' ∉ b.artifact) (h : a.display = b.display) : a = b := by
  obtain ⟨ag, aa, av⟩ := a
  obtain ⟨bg, ba, bv⟩ := b
  obtain ⟨rfl, hrest⟩ := Text.cut_inj hag hbg h
  obtain ⟨rfl, rfl⟩ := Text.cut_inj haa hba hrest
  rfl

theorem packageKind_inj {a b : ArtifactCoord} (ha : ':' ∉ a.extension) (hb : ':' ∉ b.extension)
    (h : packageKind a = packageKind b) :
    a.extension = b.extension ∧ a.classifier = b.classifier := by
  simp only [packageKind] at h
  cases hac : a.classifier with
  | none =>
    cases hbc : b.classifier with
    | none =>
      rw [hac, hbc] at h
      exact ⟨h, rfl⟩
    | some classifier =>
      rw [hac, hbc] at h
      have h : a.extension = b.extension ++ ':' :: classifier := h
      rw [h] at ha
      simp at ha
  | some classifier =>
    cases hbc : b.classifier with
    | none =>
      rw [hac, hbc] at h
      have h : a.extension ++ ':' :: classifier = b.extension := h
      rw [← h] at hb
      simp at hb
    | some classifier' =>
      rw [hac, hbc] at h
      obtain ⟨hextension, hclassifier⟩ := Text.cut_inj ha hb h
      exact ⟨hextension, by rw [hclassifier]⟩

theorem getD_nil_inj {a b : Option Text} (ha : a ≠ some []) (hb : b ≠ some [])
    (h : a.getD [] = b.getD []) : a = b := by
  cases a <;> cases b <;> simp_all

theorem scopeColumn_ne (scope : Scope) : scope.asStr ≠ [] := by
  cases scope <;> decide

theorem map_getD_nil_inj {α : Type} {f : α → Text} (hf : Function.Injective f) (hne : ∀ a, f a ≠ [])
    {a b : Option α} (h : (a.map f).getD [] = (b.map f).getD []) : a = b := by
  have hmap : ∀ a : Option α, a.map f ≠ some [] := by
    intro a ha
    obtain ⟨x, -, hx⟩ := Option.map_eq_some_iff.mp ha
    exact hne x hx
  exact Option.map_injective hf (getD_nil_inj (hmap a) (hmap b) h)

theorem packageColumns_inj (ha : a.Writable) (hb : b.Writable)
    (h : packageColumns a = packageColumns b) : a = b := by
  simp only [packageColumns, List.cons.injEq, and_true] at h
  obtain ⟨hgav, hkind, hdirect, hscope, hworkspace, hpath, hsha⟩ := h
  have hgav := gavDisplay_inj ha.group ha.artifact hb.group hb.artifact hgav
  obtain ⟨hextension, hclassifier⟩ := packageKind_inj ha.extension hb.extension hkind
  have hcoordinate : a.coordinate = b.coordinate := by
    apply ArtifactCoord.sortKey_injective
    simp only [ArtifactCoord.sortKey, hgav, hextension, hclassifier]
  have hdirect := map_getD_nil_inj Scope.asStr_injective scopeColumn_ne hdirect
  have hscope : a.scope = b.scope := by
    rw [hdirect] at hscope
    split at hscope
    · rename_i hsame
      split at hscope
      · rename_i hsame'
        rw [← hsame, hsame']
      · exact absurd hscope.symm (scopeColumn_ne _)
    · split at hscope
      · exact absurd hscope (scopeColumn_ne _)
      · exact Scope.asStr_injective hscope
  have hworkspace := getD_nil_inj ha.workspaceModule hb.workspaceModule hworkspace
  have hpath := getD_nil_inj ha.systemPath hb.systemPath hpath
  have hsha : a.systemSha256 = b.systemSha256 := by
    refine map_getD_nil_inj (fun _ _ => Hex.ext) (fun digest hnil => ?_) hsha
    have := digest.valid.1
    rw [hnil] at this
    cases this
  obtain ⟨_, _, _, _, _, _⟩ := a
  obtain ⟨_, _, _, _, _, _⟩ := b
  simp_all

theorem packageColumns_kept (package : LockModulePackage) :
    ∃ rest, (packageColumns package).rdropWhile List.isEmpty =
      package.coordinate.gav.display :: rest := by
  have hstart := rdropWhile_prefix List.isEmpty (packageColumns package)
  have hne : (packageColumns package).rdropWhile List.isEmpty ≠ [] := by
    intro hnil
    have := rdropWhile_eq_nil_iff.mp hnil package.coordinate.gav.display mem_cons_self
    simp [Gav.display] at this
  obtain ⟨first, rest, hkept⟩ := exists_cons_of_ne_nil hne
  refine ⟨rest, ?_⟩
  rw [hkept] at hstart ⊢
  rw [packageColumns, cons_prefix_cons] at hstart
  rw [hstart.1]

theorem mem_columns_of_kept {column : Text}
    (h : column ∈ (packageColumns package).rdropWhile List.isEmpty) :
    column ∈ packageColumns package := by
  have hstart := rdropWhile_prefix List.isEmpty (packageColumns package)
  exact hstart.subset h

theorem packageLine_inj (ha : a.Writable) (hb : b.Writable) (h : packageLine a = packageLine b) :
    a = b := by
  have hsep : ∀ c : LockModulePackage, c.Writable →
      ∀ column ∈ (packageColumns c).rdropWhile List.isEmpty, '\t' ∉ column :=
    fun c hc column hcolumn => (hc.columns column (mem_columns_of_kept hcolumn)).1
  have hne : ∀ c : LockModulePackage, (packageColumns c).rdropWhile List.isEmpty ≠ [] := by
    intro c
    obtain ⟨rest, hrest⟩ := packageColumns_kept c
    rw [hrest]
    exact cons_ne_nil _ _
  have hkept := Text.join_inj (hsep a ha) (hsep b hb) (hne a) (hne b) h
  exact packageColumns_inj ha hb (Text.rdropWhile_isEmpty_inj rfl hkept)

theorem packageLine_line (h : package.Writable) :
    packageLine package ≠ [] ∧ '\n' ∉ packageLine package := by
  obtain ⟨rest, hrest⟩ := packageColumns_kept package
  constructor
  · intro hnil
    rw [packageLine, hrest] at hnil
    have : package.coordinate.gav.display = [] := by
      cases rest with
      | nil => simpa [Text.join] using hnil
      | cons next rest => exact absurd hnil Text.join_cons_cons_ne
    simp [Gav.display] at this
  · intro hmem
    rcases Text.mem_join hmem with hsep | ⟨column, hcolumn, hc⟩
    · cases hsep
    · exact (h.columns column (mem_columns_of_kept hcolumn)).2 hc

theorem encodePackages_inj (hm : ∀ package ∈ m.packages, package.Writable)
    (hn : ∀ package ∈ n.packages, package.Writable) (h : encodePackages m = encodePackages n) :
    m.packages = n.packages := by
  have hmap := Text.lines_inj
    (forall_mem_map.mpr fun package hp => packageLine_line (hm package hp))
    (forall_mem_map.mpr fun package hp => packageLine_line (hn package hp)) h
  exact SelfDelimiting.map_inj (fun _ _ => packageLine_inj) hm hn hmap

/-! ## Reading an edge line -/

theorem edgeFields_inj {a b : LockEdge} (h : edgeFields a = edgeFields b) : a = b := by
  obtain ⟨s, t, sc, o⟩ := a
  obtain ⟨s', t', sc', o'⟩ := b
  simp only [edgeFields, cons_append, nil_append, List.cons.injEq] at h
  obtain ⟨hsource, htarget, htail⟩ := h
  obtain rfl := Text.ofNat_injective hsource
  obtain rfl := Text.ofNat_injective htarget
  -- The word at the end is the name of no scope.
  have hword : ∀ scope : Scope, scope.asStr ≠ "optional".toList := by
    intro scope
    cases scope <;> decide
  have hscope : sc = sc' ∧ o = o' := by
    cases sc with
    | none =>
      cases sc' with
      | none => cases o <;> cases o' <;> simp_all
      | some scope =>
        have := (hword scope).symm
        cases o <;> cases o' <;> simp_all
    | some scope =>
      cases sc' with
      | none =>
        have := hword scope
        cases o <;> cases o' <;> simp_all
      | some scope' =>
        have hname : scope.asStr = scope'.asStr := (List.cons.inj htail).1
        obtain rfl := Scope.asStr_injective hname
        cases o <;> cases o' <;> simp_all
  rw [hscope.1, hscope.2]

theorem mem_edgeFields (h : field ∈ edgeFields edge) :
    (∀ c ∈ field, c.isDigit = true) ∨ (∃ scope : Scope, field = scope.asStr) ∨
      field = "optional" := by
  simp only [edgeFields, mem_append, mem_cons, not_mem_nil, or_false, mem_map] at h
  rcases h with ((rfl | rfl) | ⟨scope, -, rfl⟩) | h
  · exact .inl fun c => Text.isDigit_of_mem_ofNat
  · exact .inl fun c => Text.isDigit_of_mem_ofNat
  · exact .inr (.inl ⟨scope, rfl⟩)
  · split at h
    · exact .inr (.inr (mem_singleton.mp h))
    · cases h

theorem notMem_edgeFields (h : field ∈ edgeFields edge) {c : Char} (hdigit : c.isDigit = false)
    (hscope : ∀ scope : Scope, c ∉ scope.asStr) (hoptional : c ∉ "optional".toList) :
    c ∉ field := by
  intro hc
  rcases mem_edgeFields h with hdigits | ⟨scope, rfl⟩ | rfl
  · rw [hdigits c hc] at hdigit
    cases hdigit
  · exact hscope scope hc
  · exact hoptional hc

theorem edgeLine_inj {a b : LockEdge} (h : edgeLine a = edgeLine b) : a = b := by
  have hsep : ∀ edge, ∀ field ∈ edgeFields edge, ' ' ∉ field := fun edge field hfield =>
    notMem_edgeFields hfield rfl (fun scope => by cases scope <;> decide) (by decide)
  have hne : ∀ edge, edgeFields edge ≠ [] := fun edge => cons_ne_nil _ _
  exact edgeFields_inj (Text.join_inj (hsep a) (hsep b) (hne a) (hne b) h)

theorem edgeLine_line (edge : LockEdge) : edgeLine edge ≠ [] ∧ '\n' ∉ edgeLine edge := by
  refine ⟨Text.join_cons_cons_ne, ?_⟩
  · intro hmem
    rcases Text.mem_join hmem with hsep | ⟨field, hfield, hc⟩
    · cases hsep
    · exact notMem_edgeFields hfield rfl (fun scope => by cases scope <;> decide) (by decide) hc

theorem encodeEdges_inj (h : encodeEdges m = encodeEdges n) : m.edges = n.edges := by
  have hlines : ∀ k : LockModule, ∀ line ∈ k.edges.map edgeLine, line ≠ [] ∧ '\n' ∉ line :=
    fun k => forall_mem_map.mpr fun edge _ => edgeLine_line edge
  have hmap := Text.lines_inj (hlines m) (hlines n) h
  exact map_injective_iff.mpr (fun _ _ => edgeLine_inj) hmap

/-! ## The packages of a checked module -/

theorem checkField_eq_ok_iff {result : Except InvalidCoordinateComponent Unit} :
    checkField row result = .ok () ↔ result = .ok () :=
  mapError_eq_ok_iff

theorem validateCoordinate_eq_ok {coordinate : ArtifactCoord} {reactor : Bool}
    (h : validateCoordinate coordinate row reactor = .ok ()) :
    validateCoordinateComponent .group coordinate.gav.group = .ok () ∧
      validateCoordinateComponent .artifact coordinate.gav.artifact = .ok () ∧
      validateCoordinateComponent .extension coordinate.extension = .ok () ∧
      (∀ classifier ∈ coordinate.classifier,
        validateCoordinateComponent .classifier classifier = .ok ()) ∧
      coordinate.gav.version ≠ [] ∧
      ∀ c : Char, c.toNat < 0x20 → c ∉ coordinate.gav.version := by
  simp only [validateCoordinate, bind_unit_eq_ok_iff, checkField_eq_ok_iff] at h
  obtain ⟨hversion, hgroup, hartifact, hextension, hclassifier⟩ := h
  refine ⟨hgroup, hartifact, hextension, ?_, ?_⟩
  · intro classifier hsome
    rw [Option.mem_def.mp hsome] at hclassifier
    exact checkField_eq_ok_iff.mp hclassifier
  cases reactor with
  | true =>
    obtain ⟨hne, hsafe⟩ := validateReactorVersion_eq_ok hversion
    exact ⟨hne, fun c hc => notMem_of_isTerminalSafe hsafe hc⟩
  | false =>
    have hversion : validateCoordinateComponent .version coordinate.gav.version = .ok () :=
      hversion
    refine ⟨(validateCoordinateComponent_chars hversion).1, fun c hc =>
      notMem_of_validateCoordinateComponent hversion (.inl ?_)⟩
    exact isAsciiGraphic_of_lt hc

theorem validateModulePath_eq_ok {field : PathField}
    (h : validateModulePath path field = .ok ()) : path ≠ [] ∧ isTerminalSafe path = true := by
  simp only [validateModulePath, refuseIf_eq_ok_iff, Bool.or_eq_false_iff, Bool.not_eq_false',
    isEmpty_eq_false_iff] at h
  exact ⟨h.1.1.1.1.1.1.1, h.1.1.1.1.1.1.2⟩

theorem validatePackage_systemPath (h : validatePackage entry path package = .ok used)
    {systemPath : Text} (hsome : package.systemPath = some systemPath) : systemPath ≠ [] := by
  simp only [validatePackage, bind_unit_eq_ok_iff] at h
  obtain ⟨-, hsystem, -⟩ := h
  rw [checkSystemPackage, hsome] at hsystem
  cases hsha : package.systemSha256 with
  | none =>
    rw [hsha] at hsystem
    cases hsystem
  | some digest =>
    simp only [hsha, bind_unit_eq_ok_iff, mapError_eq_ok_iff, checkSystemPath,
      refuseIf_eq_ok_iff, isEmpty_eq_false_iff] at hsystem
    exact hsystem.1.1

/-- A line can hold a checked package: the columns hold no control characters,
and coordinates no `:`. -/
theorem writable_of_checked {on : Platform}
    (hfields : checkPackageFields row on path package = .ok ())
    (hrow : validatePackage entry path package = .ok used) : package.Writable := by
  simp only [checkPackageFields, bind_unit_eq_ok_iff, optionForM_eq_ok_iff] at hfields
  obtain ⟨hcoordinate, hworkspace, hpath⟩ := hfields
  obtain ⟨hgroup, hartifact, hextension, hclassifier, -, hversion⟩ :=
    validateCoordinate_eq_ok hcoordinate
  have hcontrol : ∀ column ∈ packageColumns package, ∀ c : Char, c.toNat < 0x20 → c ∉ column := by
    intro column hcolumn c hc
    have hcomponent :
        ∀ {field value}, validateCoordinateComponent field value = .ok () → c ∉ value :=
      fun h => notMem_of_validateCoordinateComponent h (.inl (isAsciiGraphic_of_lt hc))
    have hcolon : c ≠ ':' := by
      rintro rfl
      exact absurd hc (by decide)
    have hscope : ∀ scope : Scope, c ∉ scope.asStr := by
      intro scope hmem
      have hletters : scope.asStr.all (fun d => 0x20 ≤ d.toNat) = true := by
        cases scope <;> decide
      have := all_eq_true.mp hletters c hmem
      simp only [decide_eq_true_eq] at this
      omega
    simp only [packageColumns, mem_cons, not_mem_nil, or_false] at hcolumn
    rcases hcolumn with rfl | rfl | rfl | rfl | rfl | rfl | rfl
    · simp only [Gav.display, mem_append, mem_cons, not_or]
      exact ⟨hcomponent hgroup, hcolon, hcomponent hartifact, hcolon, hversion c hc⟩
    · rw [packageKind]
      cases hsome : package.coordinate.classifier with
      | none => exact hcomponent hextension
      | some classifier =>
        simp only [mem_append, mem_cons, not_or]
        exact ⟨hcomponent hextension, hcolon, hcomponent (hclassifier classifier hsome)⟩
    · cases package.directScope with
      | none => exact not_mem_nil
      | some scope => exact hscope scope
    · split
      · exact not_mem_nil
      · exact hscope _
    · cases hsome : package.workspaceModule with
      | none => exact not_mem_nil
      | some workspace =>
        exact notMem_of_isTerminalSafe (validateModulePath_eq_ok (hworkspace workspace hsome)).2 hc
    · cases hsome : package.systemPath with
      | none => exact not_mem_nil
      | some systemPath =>
        have := hpath systemPath hsome
        simp only [checkText, refuseIf_eq_ok_iff, Bool.not_eq_false'] at this
        exact notMem_of_isTerminalSafe this hc
    · cases hsome : package.systemSha256 with
      | none => exact not_mem_nil
      | some digest =>
        intro hmem
        have := toNat_of_isLowerHexDigit (Hex.isLowerHexDigit_of_mem hmem)
        omega
  have hcolon : ∀ {field value}, validateCoordinateComponent field value = .ok () → ':' ∉ value :=
    fun h => notMem_of_validateCoordinateComponent h (.inr (by decide))
  refine ⟨hcolon hgroup, hcolon hartifact, hcolon hextension, fun column hcolumn =>
    ⟨hcontrol column hcolumn '\t' (by decide), hcontrol column hcolumn '\n' (by decide)⟩, ?_, ?_⟩
  · intro hsome
    exact (validateModulePath_eq_ok (hworkspace [] hsome)).1 rfl
  · intro hsome
    exact validatePackage_systemPath hrow hsome rfl

end Raeva.Lock
