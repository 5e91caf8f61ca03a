import Raeva.Resolver.Repositories

/-!
# What the shared list keeps

Over every sequence of declarations and refusals the keys of the list stay
distinct and match the tables, the project's repositories stay before those of
dependencies and before the defaults among them, and the POM of a dependency
neither changes a project repository, apart from stricter checksum policies, nor
takes an id that the project uses.

The invariant is about the keys of the list, cut at the boundary: only the
insertion and the removal of an entry change them.
-/

namespace Raeva.Resolver

open List

open Raeva.Repo

theorem repoKey_eq_of_stricter {a b : Repository} (h : a.Stricter b) : repoKey b = repoKey a := by
  rw [h.eq]
  rfl

theorem Declared.stricter_merge (declared : Declared) (existing repo : Repository) :
    existing.Stricter (declared.merge existing repo) := by
  unfold Declared.merge
  split
  · exact Repository.stricter_mergePolicies existing repo false
  · exact Repository.stricter_mergePolicies existing repo _

theorem repoKey_foldl_merge (outside : List (Repository × Declared)) (repo : Repository) :
    repoKey (outside.foldl (fun existing (other, declared) => declared.merge existing other) repo) =
      repoKey repo := by
  induction outside generalizing repo with
  | nil => rfl
  | cons met outside ih =>
    rw [foldl_cons, ih]
    exact repoKey_eq_of_stricter (met.2.stricter_merge repo met.1)

namespace RepoTables

/-- The keys before and after the boundary, and what the tables say of them. -/
structure Listed (defaultUrls : Finset Text) (t : RepoTables) (front back : List RepoKey) :
    Prop where
  keys : t.entries.map repoKey = front ++ back
  projectEnd : t.projectEnd = front.length
  nodup : (front ++ back).Nodup
  seen : ∀ key, key ∈ t.seen ↔ key ∈ front ++ back
  provisional : ∀ key ∈ t.provisional, key ∈ front ++ back
  lineage : ∀ key ∈ t.lineage, key ∈ front ++ back
  defaults : front.Pairwise fun earlier later =>
    earlier.1 ∈ defaultUrls → later.1 ∈ defaultUrls

variable {defaultUrls : Finset Text} {declared : Declared} {t : RepoTables}
  {front back : List RepoKey}

variable {repo : Repository} {id : Text} {before after keys keys' : List RepoKey} {key : RepoKey}
  {t₁ t₂ t₃ : RepoTables}

theorem replaced_dependency (hdependency : declared.isDependency = true) :
    t.replaced defaultUrls declared repo = some none := by
  unfold replaced
  cases usedId repo with
  | none => rfl
  | some id => simp [hdependency]

theorem shadows_project (hproject : declared.isDependency = false) :
    t.shadows declared repo = false := by
  unfold shadows
  cases usedId repo with
  | none => rfl
  | some id =>
    cases declared with
    | fetched | reactor => cases hproject
    | lineage => rfl
    | provisional => rfl
    | effective => rfl
    | outside => rfl

theorem mem_middle {k : RepoKey} :
    k ∈ (before ++ key :: after) ++ back ↔ k = key ∨ k ∈ (before ++ after) ++ back := by
  simp only [append_assoc, mem_append, cons_append, mem_cons]
  tauto

variable (h : Listed defaultUrls t front back)

include h

theorem Listed.map_project : t.project.map repoKey = front := by
  rw [project, map_take, h.keys, h.projectEnd, take_left]

theorem Listed.map_dependencies : t.dependencies.map repoKey = back := by
  rw [dependencies, map_drop, h.keys, h.projectEnd, drop_left]

theorem Listed.projectEnd_le : t.projectEnd ≤ t.entries.length := by
  rw [← length_map (f := repoKey), h.keys, h.projectEnd, length_append]
  omega

theorem Listed.exists_front {p : Repository → Bool} {i : ℕ}
    (hfind : t.project.findIdx? p = some i) :
    ∃ before repo after, front = before ++ repoKey repo :: after ∧ before.length = i ∧
      p repo = true ∧ t.entries[i]? = some repo ∧
      ∀ key ∈ before, ∃ known, repoKey known = key ∧ p known = false := by
  obtain ⟨before, repo, after, hproject, rfl, hrepo, hbefore⟩ := exists_append_of_findIdx? hfind
  refine ⟨before.map repoKey, repo, after.map repoKey, ?_, by simp, hrepo, ?_, ?_⟩
  · rw [← h.map_project, hproject, map_append, map_cons]
  · have hentries : t.entries = before ++ repo :: (after ++ t.dependencies) := by
      rw [← take_append_drop t.projectEnd t.entries]
      change t.project ++ t.dependencies = _
      rw [hproject, append_assoc, cons_append]
    rw [hentries, getElem?_append_right (Nat.le_refl _), Nat.sub_self]
    rfl
  · exact forall_mem_map.mpr fun known hknown => ⟨known, rfl, hbefore known hknown⟩

omit h

/-- An entry of the project leaves the list and all tables. -/
theorem Listed.removeAt (h : Listed defaultUrls t (before ++ repoKey repo :: after) back)
    (hentry : t.entries[before.length]? = some repo) :
    Listed defaultUrls (t.removeAt before.length) (before ++ after) back := by
  have hnodup := h.nodup
  rw [append_assoc, cons_append, nodup_middle, nodup_cons] at hnodup
  obtain ⟨hfresh, hrest⟩ := hnodup
  -- the tables lose the one key that the list loses
  unfold RepoTables.removeAt
  rw [hentry]
  refine ⟨?_, ?_, ?_, ?_, ?_, ?_, ?_⟩
  · rw [← eraseIdx_map, h.keys, append_assoc, cons_append, eraseIdx_length_append, append_assoc]
  · change t.projectEnd - 1 = _
    rw [h.projectEnd]
    simp only [length_append, length_cons]
    omega
  · rwa [append_assoc]
  · intro key
    rw [Finset.mem_erase, h.seen, mem_middle]
    constructor
    · rintro ⟨hne, hkey⟩
      exact hkey.resolve_left hne
    · intro hkey
      exact ⟨fun heq => hfresh (append_assoc .. ▸ heq ▸ hkey), .inr hkey⟩
  · intro key hkey
    obtain ⟨hne, hkey⟩ := AList.mem_erase.mp hkey
    exact (mem_middle.mp (h.provisional key hkey)).resolve_left hne
  · intro key hkey
    obtain ⟨hne, hkey⟩ := Finset.mem_erase.mp hkey
    exact (mem_middle.mp (h.lineage key hkey)).resolve_left hne
  · exact h.defaults.sublist ((sublist_cons_self _ _).append_left before)

/-! ## Insertion -/

include h

theorem Listed.insertNew_dependency
    (hdependency : declared.isDependency = true) (hnew : repoKey repo ∉ t.seen) :
    Listed defaultUrls (t.insertNew defaultUrls declared repo) front
      (back ++ [repoKey repo]) := by
  rw [h.seen] at hnew
  have hlineage : ¬ (declared = .lineage ∨ declared = .provisional) := by
    rintro (rfl | rfl) <;> cases hdependency
  have hmem : ∀ key ∈ front ++ back, key ∈ front ++ (back ++ [repoKey repo]) := by
    intro key hkey
    rw [← append_assoc]
    exact mem_append_left _ hkey
  simp only [insertNew, hdependency, if_true, if_neg hlineage,
    if_neg fun heq => hlineage (.inr heq)]
  refine ⟨?_, h.projectEnd, ?_, ?_, ?_, ?_, h.defaults⟩
  · rw [insertIdx_length_self, map_append, h.keys, append_assoc]
    rfl
  · rw [← append_assoc]
    exact nodup_append_comm.mp (nodup_cons.mpr ⟨hnew, h.nodup⟩)
  · intro key
    rw [Finset.mem_insert, h.seen, ← append_assoc, mem_append (s := front ++ back),
      mem_singleton, or_comm]
  · exact fun key hkey => hmem key (h.provisional key hkey)
  · exact fun key hkey => hmem key (h.lineage key hkey)

/-- The position of a project repository: before the defaults, or last for one of
them. -/
theorem Listed.exists_position (repo : Repository) :
    ∃ before after, front = before ++ after ∧ (t.project.findIdx? fun known =>
        decide (repo.url ∉ defaultUrls) && decide (known.url ∈ defaultUrls)).getD t.projectEnd =
          before.length ∧
      (∀ key ∈ before, key.1 ∈ defaultUrls → repo.url ∈ defaultUrls) ∧
      (repo.url ∈ defaultUrls → after = []) := by
  cases hfind : t.project.findIdx? fun known =>
      decide (repo.url ∉ defaultUrls) && decide (known.url ∈ defaultUrls) with
  | none =>
    refine ⟨front, [], by simp, by simpa using h.projectEnd, ?_, fun _ => rfl⟩
    intro key hkey hdefault
    rw [← h.map_project] at hkey
    obtain ⟨known, hknown, rfl⟩ := mem_map.mp hkey
    by_contra hrepo
    have hnone := findIdx?_eq_none_iff.mp hfind known hknown
    simp [hrepo, show known.url ∈ defaultUrls from hdefault] at hnone
  | some index =>
    obtain ⟨before, first, after, hfront, rfl, hfirst, -, hbefore⟩ := h.exists_front hfind
    simp only [Bool.and_eq_true, decide_eq_true_eq] at hfirst
    refine ⟨before, repoKey first :: after, hfront, rfl, ?_,
      fun hdefault => absurd hdefault hfirst.1⟩
    intro key hkey hdefault
    obtain ⟨known, rfl, hknown⟩ := hbefore key hkey
    simp [hfirst.1, show known.url ∈ defaultUrls from hdefault] at hknown

/-- A new repository of the project goes before the defaults. -/
theorem Listed.insertNew_project
    (hproject : declared.isDependency = false) (hnew : repoKey repo ∉ t.seen) :
    ∃ front', front' ~ repoKey repo :: front ∧
      Listed defaultUrls (t.insertNew defaultUrls declared repo) front' back := by
  obtain ⟨before, after, rfl, hposition, hbefore, hafter⟩ := h.exists_position repo
  rw [h.seen] at hnew
  refine ⟨before ++ repoKey repo :: after, perm_middle, ?_⟩
  simp only [insertNew, hproject, Bool.false_eq_true, if_false]
  refine ⟨?_, ?_, ?_, ?_, ?_, ?_, ?_⟩
  · change (t.entries.insertIdx _ repo).map repoKey = _
    rw [map_insertIdx, h.keys]
    change ((before ++ after) ++ back).insertIdx
      ((t.project.findIdx? _).getD t.projectEnd) (repoKey repo) = _
    rw [hposition]
    rw [append_assoc, insertIdx_length_append, append_assoc, cons_append]
  · change t.projectEnd + 1 = _
    rw [h.projectEnd]
    simp only [length_append, length_cons]
    omega
  · rw [append_assoc, cons_append, nodup_middle, nodup_cons, ← append_assoc]
    exact ⟨hnew, h.nodup⟩
  · intro key
    rw [Finset.mem_insert, h.seen, mem_middle]
  · intro key hkey
    rw [mem_middle]
    by_cases hprovisional : declared = .provisional
    · simp only [if_pos hprovisional, AList.mem_insert] at hkey
      exact hkey.imp_right (h.provisional key)
    · simp only [if_neg hprovisional] at hkey
      exact .inr (h.provisional key hkey)
  · intro key hkey
    rw [mem_middle]
    by_cases hlineage : declared = .lineage ∨ declared = .provisional
    · simp only [if_pos hlineage, Finset.mem_insert] at hkey
      exact hkey.imp_right (h.lineage key)
    · simp only [if_neg hlineage] at hkey
      exact .inr (h.lineage key hkey)
  · have hdefaults := h.defaults
    rw [pairwise_append] at hdefaults ⊢
    obtain ⟨hfirst, hlast, hacross⟩ := hdefaults
    refine ⟨hfirst, pairwise_cons.mpr ⟨?_, hlast⟩, ?_⟩
    · intro key hkey hdefault
      rw [hafter hdefault] at hkey
      cases hkey
    · intro key hkey other hother hdefault
      rcases mem_cons.mp hother with rfl | hother
      · exact hbefore key hkey hdefault
      · exact hacross key hkey other hother hdefault

theorem Listed.meetListed : Listed defaultUrls (t.meetListed declared repo) front back := by
  unfold RepoTables.meetListed
  extract_lets key
  split
  · exact h
  split
  · exact h
  rename_i index hfind
  obtain ⟨before, found, after, hentries, rfl, hfound, -⟩ := exists_append_of_findIdx? hfind
  have hkey : repoKey found = key := by simpa using hfound
  have hlisted : key ∈ front ++ back := by
    rw [← h.keys, hentries, ← hkey]
    simp
  split
  · rename_i outside houtside
    refine ⟨?_, h.projectEnd, h.nodup, h.seen, ?_, h.lineage, h.defaults⟩
    · rw [← h.keys]
      refine map_modify_of_eq fun entry hentry => ?_
      rw [repoKey_foldl_merge]
      rw [hentries, getElem?_append_right (Nat.le_refl _), Nat.sub_self] at hentry
      cases hentry
      exact hkey.symm
    · exact fun key' hkey' => h.provisional key' (AList.mem_erase.mp hkey').2
  · refine ⟨?_, h.projectEnd, h.nodup, h.seen, ?_, h.lineage, h.defaults⟩
    · change (if repo.hasStrictChecksumPolicy = true then _ else _ : List Repository).map _ = _
      rw [← h.keys]
      split
      · exact map_modify_of_eq fun entry _ =>
          repoKey_eq_of_stricter (declared.stricter_merge entry repo)
      · rfl
    · intro key' hkey'
      dsimp only at hkey'
      split at hkey'
      · split at hkey'
        · rcases (AList.mem_insert _).mp hkey' with rfl | hkey'
          · exact hlisted
          · exact h.provisional key' hkey'
        · exact h.provisional key' hkey'
      · exact h.provisional key' hkey'

/-! ## One declaration -/

theorem Listed.of_tables {t' : RepoTables}
    (hentries : t'.entries = t.entries) (hend : t'.projectEnd = t.projectEnd)
    (hseen : t'.seen = t.seen) (hprovisional : t'.provisional = t.provisional)
    (hlineage : t'.lineage = t.lineage) : Listed defaultUrls t' front back where
  keys := hentries ▸ h.keys
  projectEnd := hend ▸ h.projectEnd
  nodup := h.nodup
  seen := hseen ▸ h.seen
  provisional := hprovisional ▸ h.provisional
  lineage := hlineage ▸ h.lineage
  defaults := h.defaults

theorem Listed.releaseId : Listed defaultUrls (t.releaseId declared repo) front back := by
  unfold RepoTables.releaseId
  split
  · split
    · exact h.of_tables rfl rfl rfl rfl rfl
    · exact h
  · exact h

theorem Listed.useId : Listed defaultUrls (t.useId declared repo) front back := by
  unfold RepoTables.useId
  split
  · split
    · exact h
    · exact h.of_tables rfl rfl rfl rfl rfl
  · exact h

/-- The repository that a declaration of the project replaces: a default, or else
another one under its id. -/
theorem Listed.replaced_cases
    (hproject : declared.isDependency = false) (hid : usedId repo = some id) :
    let NoDefault := repo.url ∉ defaultUrls → declared ≠ .provisional →
      ∀ key ∈ front, key.2 = some id → key.1 ∉ defaultUrls
    (∃ before known after, front = before ++ repoKey known :: after ∧
      t.entries[before.length]? = some known ∧ known.id = some id ∧
      t.replaced defaultUrls declared repo = some (some before.length) ∧
      ((known.url ∈ defaultUrls ∧ repo.url ∉ defaultUrls ∧ declared ≠ .provisional) ∨
        (known.url ∉ defaultUrls ∧ NoDefault))) ∨
    NoDefault ∧ (t.replaced defaultUrls declared repo = none ∨
      t.replaced defaultUrls declared repo = some none ∧
        ∀ key ∈ front, key.2 = some id → key.1 ∉ defaultUrls → key.1 = repo.url) := by
  intro NoDefault
  simp only [replaced, hid, hproject, Bool.false_eq_true, if_false]
  cases hfirst : (if repo.url ∉ defaultUrls ∧ declared ≠ .provisional then t.project.findIdx?
    fun known => known.id = some id && decide (known.url ∈ defaultUrls) = true else none) with
  | some index =>
    split at hfirst
    · rename_i hown
      obtain ⟨before, known, after, hfront, rfl, hknown, hentry, -⟩ := h.exists_front hfirst
      simp only [Bool.and_eq_true, decide_eq_true_eq] at hknown
      exact .inl ⟨before, known, after, hfront, hentry, hknown.1, rfl, .inl ⟨hknown.2, hown⟩⟩
    · cases hfirst
  | none =>
    have hnone : NoDefault := by
      intro hurl hprovisional key hkey hkeyId
      rw [if_pos ⟨hurl, hprovisional⟩, findIdx?_eq_none_iff] at hfirst
      rw [← h.map_project] at hkey
      obtain ⟨known, hknown, rfl⟩ := mem_map.mp hkey
      change known.id = some id at hkeyId
      change known.url ∉ defaultUrls
      simpa [hkeyId] using hfirst known hknown
    cases hother : t.project.findIdx? fun known =>
      (known.id = some id && decide (known.url ∈ defaultUrls) = false) && known.url ≠ repo.url with
    | none =>
      refine .inr ⟨hnone, .inr ⟨rfl, fun key hkey hkeyId hurl => ?_⟩⟩
      rw [← h.map_project] at hkey
      obtain ⟨known, hknown, rfl⟩ := mem_map.mp hkey
      change known.id = some id at hkeyId
      change known.url ∉ defaultUrls at hurl
      change known.url = repo.url
      simpa [hkeyId, hurl] using findIdx?_eq_none_iff.mp hother known hknown
    | some index =>
      obtain ⟨before, known, after, hfront, rfl, hknown, hentry, -⟩ := h.exists_front hother
      simp only [Bool.and_eq_true, decide_eq_true_eq, decide_eq_false_iff_not] at hknown
      dsimp only
      split
      · exact .inr ⟨hnone, .inl rfl⟩
      · exact .inl ⟨before, known, after, hfront, hentry, hknown.1.1, rfl, .inr ⟨hknown.1.2, hnone⟩⟩

omit h

def ownUnder (defaultUrls : Finset Text) (id : Text) (key : RepoKey) : Bool :=
  key.2 = some id && key.1 ∉ defaultUrls

/-- Under each id, at most one key has a URL that is no default. -/
def OnePerId (defaultUrls : Finset Text) (keys : List RepoKey) : Prop :=
  ∀ id ≠ [], keys.countP (ownUnder defaultUrls id) ≤ 1

/-- A new declaration of the project replaces a default while another URL that is
no default is listed under its id. -/
structure Clash (defaultUrls : Finset Text) (declared : Declared) (t : RepoTables)
    (repo : Repository) (id : Text) : Prop where
  used : usedId repo = some id
  project : declared.isDependency = false
  provisional : declared ≠ .provisional
  held : ¬ (id ∈ t.held ∧ declared = .lineage)
  own : repo.url ∉ defaultUrls
  fresh : repoKey repo ∉ t.seen
  default : ∃ known ∈ t.project, known.id = some id ∧ known.url ∈ defaultUrls
  other : ∃ known ∈ t.project, known.id = some id ∧ known.url ∉ defaultUrls

theorem OnePerId.sublist (h : OnePerId defaultUrls keys) (hsub : keys' <+ keys) :
    OnePerId defaultUrls keys' :=
  fun id hne => hsub.countP_le.trans (h id hne)

theorem onePerId_cons (hperm : keys' ~ key :: keys) (h : OnePerId defaultUrls keys) :
    OnePerId defaultUrls keys' ↔
      ∀ id ≠ [], ownUnder defaultUrls id key → keys.countP (ownUnder defaultUrls id) = 0 := by
  simp only [OnePerId, hperm.countP_eq, countP_cons]
  constructor
  · intro hone id hne hown
    have hle := hone id hne
    rw [if_pos hown] at hle
    omega
  · intro hzero id hne
    split
    · rename_i hown
      rw [hzero id hne hown]
    · exact h id hne

theorem ownUnder_iff : ownUnder defaultUrls id key ↔ key.2 = some id ∧ key.1 ∉ defaultUrls := by
  simp [ownUnder]

theorem usedId_eq_some : usedId repo = some id ↔ repo.id = some id ∧ id ≠ [] := by
  simp [usedId, Option.filter_eq_some_iff]

include h in
theorem Listed.join_project
    (hproject : declared.isDependency = false) (repo : Repository) :
    ∃ front', Listed defaultUrls (if repoKey repo ∈ t.seen then t.meetListed declared repo
        else t.insertNew defaultUrls declared repo) front' back ∧
      (repoKey repo ∈ t.seen ∧ front' = front ∨
        repoKey repo ∉ t.seen ∧ front' ~ repoKey repo :: front) := by
  split
  · rename_i hseen
    exact ⟨front, h.meetListed, .inl ⟨hseen, rfl⟩⟩
  · rename_i hnew
    obtain ⟨front', hperm, h'⟩ := h.insertNew_project hproject hnew
    exact ⟨front', h', .inr ⟨hnew, hperm⟩⟩

/-- The keys that a default leaves have no other under the id of the new
repository exactly when the declaration does not clash. -/
theorem Listed.countP_eq_zero_iff {known : Repository}
    (h : Listed defaultUrls t (before ++ repoKey known :: after) back) (hid : usedId repo = some id)
    (hknown : known.id = some id) (hurl : known.url ∈ defaultUrls)
    (hproject : declared.isDependency = false) (hprovisional : declared ≠ .provisional)
    (hheld : ¬ (id ∈ t.held ∧ declared = .lineage)) (hown : repo.url ∉ defaultUrls)
    (hnew : repoKey repo ∉ (before ++ after) ++ back) :
    (before ++ after).countP (ownUnder defaultUrls id) = 0 ↔
      ¬ Clash defaultUrls declared t repo id := by
  have hmap := h.map_project
  rw [countP_eq_zero]
  constructor
  · intro hzero hclash
    obtain ⟨other, hother, hotherId, hotherUrl⟩ := hclash.other
    have hmem : repoKey other ∈ before ++ repoKey known :: after := hmap ▸ mem_map_of_mem hother
    rw [mem_append, mem_cons] at hmem
    refine hzero (repoKey other) (mem_append.mpr (hmem.imp_right fun hmem =>
      hmem.resolve_left fun heq => ?_)) (ownUnder_iff.mpr ⟨hotherId, hotherUrl⟩)
    rw [show other.url = known.url from (Prod.mk.inj heq).1] at hotherUrl
    exact hotherUrl hurl
  · intro hclash key hkey hkeyOwn
    obtain ⟨other, hother, rfl⟩ : ∃ other ∈ t.project, repoKey other = key :=
      mem_map.mp (hmap ▸ ((sublist_cons_self _ _).append_left before).subset hkey)
    obtain ⟨found, hfound, heq⟩ : ∃ found ∈ t.project, repoKey found = repoKey known :=
      mem_map.mp (hmap ▸ mem_append_right _ mem_cons_self)
    obtain ⟨hfoundUrl, hfoundId⟩ := Prod.mk.inj heq
    refine hclash ⟨hid, hproject, hprovisional, hheld, hown, fun hseen => ?_,
      ⟨found, hfound, hfoundId.trans hknown, hfoundUrl ▸ hurl⟩,
      ⟨other, hother, ownUnder_iff.mp hkeyOwn⟩⟩
    have hne : repoKey repo ≠ repoKey known := fun heq => hown ((Prod.mk.inj heq).1 ▸ hurl)
    rw [h.seen, mem_middle] at hseen
    exact hnew (hseen.resolve_left hne)

include h in
/-- A declaration of the project leaves one repository under each id, unless it
clashes. -/
theorem Listed.appendRepo_project
    (hproject : declared.isDependency = false) (repo : Repository) :
    ∃ front', Listed defaultUrls (appendRepo defaultUrls declared t repo) front' back ∧
      (OnePerId defaultUrls front →
        (OnePerId defaultUrls front' ↔ ∀ id, ¬ Clash defaultUrls declared t repo id)) := by
  unfold appendRepo
  split
  · rename_i hheld
    refine ⟨front, h, fun hone => iff_of_true hone fun id hclash => ?_⟩
    have hmem : id ∈ t.held := by simpa [hclash.used] using hheld.1
    exact hclash.held ⟨hmem, hheld.2.resolve_right hclash.provisional⟩
  rename_i hheld
  extract_lets released used
  rw [if_neg (by simp [shadows_project hproject])]
  have hused : Listed defaultUrls used front back := h.releaseId.useId
  cases hid : usedId repo with
  | none =>
    have hreplaced : used.replaced defaultUrls declared repo = some none := by
      rw [replaced, hid]
    rw [hreplaced]
    obtain ⟨front', h', hjoin⟩ := hused.join_project hproject repo
    refine ⟨front', h',
      fun hone => iff_of_true ?_ fun id hclash => by cases hid.symm.trans hclash.used⟩
    rcases hjoin with ⟨-, rfl⟩ | ⟨-, hperm⟩
    · exact hone
    · refine (onePerId_cons hperm hone).mpr fun id hne hown => ?_
      cases hid.symm.trans (usedId_eq_some.mpr ⟨(ownUnder_iff.mp hown).1, hne⟩)
  | some id =>
    obtain ⟨hrepoId, hne⟩ := usedId_eq_some.mp hid
    have hclashId : ∀ {id'}, Clash defaultUrls declared t repo id' → id' = id :=
      fun hclash => Option.some.inj (hclash.used.symm.trans hid)
    have hownId : ∀ {id'}, ownUnder defaultUrls id' (repoKey repo) → id' = id :=
      fun hown => Option.some.inj ((ownUnder_iff.mp hown).1.symm.trans hrepoId)
    -- where no default is listed under the id, there is no clash
    have hnoClash : (repo.url ∉ defaultUrls → declared ≠ .provisional → ∀ key ∈ front,
        key.2 = some id → key.1 ∉ defaultUrls) → ∀ id',
          ¬ Clash defaultUrls declared t repo id' := by
      intro hdefault id' hclash
      obtain rfl := hclashId hclash
      obtain ⟨known, hknown, hknownId, hurl⟩ := hclash.default
      exact hdefault hclash.own hclash.provisional (repoKey known)
        (h.map_project ▸ mem_map_of_mem hknown) hknownId hurl
    rcases hused.replaced_cases hproject hid with
      ⟨before, known, after, rfl, hentry, hknown, hreplaced, hcase⟩ | ⟨hdefault, hreplaced⟩
    · rw [hreplaced]
      have hroom := hused.removeAt hentry
      obtain ⟨front', h', hjoin⟩ := hroom.join_project hproject repo
      have hsub : before ++ after <+ before ++ repoKey known :: after :=
        (sublist_cons_self _ _).append_left before
      refine ⟨front', h', fun hone => ?_⟩
      have hkept := hone.sublist hsub
      rw [hroom.seen] at hjoin
      rcases hjoin with ⟨hseen, rfl⟩ | ⟨hnew, hperm⟩
      · refine iff_of_true hkept fun id' hclash => hclash.fresh ?_
        exact (h.seen _).mpr ((hsub.append_right back).subset hseen)
      rw [onePerId_cons hperm hkept]
      rcases hcase with ⟨hurl, hown, hprovisional⟩ | ⟨hurl, hdefault⟩
      · have hiff := h.countP_eq_zero_iff hid hknown hurl hproject hprovisional
          (fun hlineage => hheld ⟨by simpa [hid] using hlineage.1, .inl hlineage.2⟩) hown hnew
        constructor
        · intro hzero id' hclash
          obtain rfl := hclashId hclash
          exact hiff.mp (hzero id' hne (ownUnder_iff.mpr ⟨hrepoId, hown⟩)) hclash
        · intro hclash id' _ hownRepo
          obtain rfl := hownId hownRepo
          exact hiff.mpr (hclash id')
      · refine iff_of_true (fun id' _ hownRepo => ?_) (hnoClash hdefault)
        obtain rfl := hownId hownRepo
        have hle := hone id' hne
        rw [countP_append, countP_cons_of_pos (ownUnder_iff.mpr ⟨hknown, hurl⟩)] at hle
        rw [countP_append]
        omega
    · rcases hreplaced with hreplaced | ⟨hreplaced, hother⟩
      · rw [hreplaced]
        exact ⟨front, hused, fun hone => iff_of_true hone (hnoClash hdefault)⟩
      rw [hreplaced]
      obtain ⟨front', h', hjoin⟩ := hused.join_project hproject repo
      refine ⟨front', h', fun hone => iff_of_true ?_ (hnoClash hdefault)⟩
      rcases hjoin with ⟨-, rfl⟩ | ⟨hnew, hperm⟩
      · exact hone
      refine (onePerId_cons hperm hone).mpr fun id' _ hownRepo => ?_
      obtain rfl := hownId hownRepo
      refine countP_eq_zero.mpr fun key hkey hkeyOwn => hnew ?_
      obtain ⟨hkeyId, hurl⟩ := ownUnder_iff.mp hkeyOwn
      have heq : repoKey repo = key :=
        Prod.ext (hother key hkey hkeyId hurl).symm (hrepoId.trans hkeyId.symm)
      rw [hused.seen, heq]
      exact mem_append_left _ hkey

theorem appendRepo_of_dependency (hdependency : declared.isDependency = true) :
    appendRepo defaultUrls declared t repo =
      if t.shadows declared repo ∧ repoKey repo ∉ t.seen then t
      else if repoKey repo ∈ t.seen then t.meetListed declared repo
      else t.insertNew defaultUrls declared repo := by
  have hlineage : ¬ (declared = .lineage ∨ declared = .provisional) := by
    rintro (rfl | rfl) <;> cases hdependency
  have heffective : declared ≠ .effective := by
    rintro rfl
    cases hdependency
  have hreleased : t.releaseId declared repo = t := by
    unfold releaseId
    cases usedId repo with
    | none => rfl
    | some id => exact if_neg heffective
  have hused : t.useId declared repo = t := by
    unfold useId
    cases usedId repo with
    | none => rfl
    | some id => exact if_pos hdependency
  unfold appendRepo
  rw [if_neg fun h => hlineage h.2, hreleased]
  dsimp only
  rw [hused, replaced_dependency hdependency]
  rfl

theorem stricter_meetListed (hdeclared : declared ≠ .effective) :
    List.Forall₂ Repository.Stricter t.project (t.meetListed declared repo).project := by
  have hrefl : List.Forall₂ Repository.Stricter t.entries t.entries :=
    forall₂_same.mpr fun entry _ => .refl entry
  unfold meetListed project
  extract_lets key
  split
  · exact forall₂_take _ hrefl
  split
  · exact forall₂_take _ hrefl
  dsimp only
  split
  · exact forall₂_take _ (forall₂_modify hrefl _ fun entry entry' hentry =>
      hentry.trans (declared.stricter_merge entry' repo))
  · exact forall₂_take _ hrefl

theorem meetListed_tables (t : RepoTables) (declared : Declared) (repo : Repository) :
    (t.meetListed declared repo).rootIds = t.rootIds ∧ (t.meetListed declared repo).held = t.held ∧
      (t.meetListed declared repo).seen = t.seen := by
  unfold meetListed
  extract_lets key
  split
  · exact ⟨rfl, rfl, rfl⟩
  split
  · exact ⟨rfl, rfl, rfl⟩
  split <;> exact ⟨rfl, rfl, rfl⟩

include h in
theorem Listed.project_insertNew
    (hdependency : declared.isDependency = true) :
    (t.insertNew defaultUrls declared repo).project = t.project := by
  simp only [insertNew, hdependency, if_true, project, insertIdx_length_self]
  exact take_append_of_le_length h.projectEnd_le

/-- What the declarations of a dependency leave of the tables: the project's part
up to stricter policies, and new entries with no id that the project uses when
they are of a fetched POM. -/
structure Extends (defaultUrls : Finset Text) (declared : Declared) (front : List RepoKey)
    (t t' : RepoTables) : Prop where
  listed : ∃ back', Listed defaultUrls t' front back'
  rootIds : t'.rootIds = t.rootIds
  project : List.Forall₂ Repository.Stricter t.project t'.project
  fresh : declared = .fetched → ∀ key ∈ t'.seen,
    key ∈ t.seen ∨ ∀ id, key.2 = some id → id ≠ [] → id ∉ t.rootIds

include h in
theorem Listed.extends_self : Extends defaultUrls declared front t t where
  listed := ⟨back, h⟩
  rootIds := rfl
  project := forall₂_same.mpr fun entry _ => .refl entry
  fresh := fun _ _ hkey => .inl hkey

theorem Extends.trans (h₁₂ : Extends defaultUrls declared front t₁ t₂)
    (h₂₃ : Extends defaultUrls declared front t₂ t₃) :
    Extends defaultUrls declared front t₁ t₃ where
  listed := h₂₃.listed
  rootIds := h₂₃.rootIds.trans h₁₂.rootIds
  project := forall₂_trans (fun _ _ _ hab hbc => hab.trans hbc) h₁₂.project h₂₃.project
  fresh := by
    intro hfetched key hkey
    rcases h₂₃.fresh hfetched key hkey with hkey | hid
    · exact h₁₂.fresh hfetched key hkey
    · exact .inr (h₁₂.rootIds ▸ hid)

include h

theorem Listed.extends_appendRepo
    (hdependency : declared.isDependency = true) (repo : Repository) :
    Extends defaultUrls declared front t (appendRepo defaultUrls declared t repo) := by
  rw [appendRepo_of_dependency hdependency]
  split
  · exact h.extends_self
  rename_i hkept
  split
  · obtain ⟨hroot, -, hseen⟩ := meetListed_tables t declared repo
    refine ⟨⟨back, h.meetListed⟩, hroot, stricter_meetListed ?_, fun _ key hkey => .inl ?_⟩
    · rintro rfl
      cases hdependency
    · rwa [hseen] at hkey
  rename_i hnew
  have hinserted := h.insertNew_dependency hdependency hnew
  refine ⟨⟨_, hinserted⟩, by simp [insertNew, hdependency], ?_, ?_⟩
  · rw [h.project_insertNew hdependency]
    exact forall₂_same.mpr fun entry _ => .refl entry
  rintro rfl key hkey
  rw [hinserted.seen, ← append_assoc, mem_append, ← h.seen, mem_singleton] at hkey
  refine hkey.imp_right ?_
  rintro rfl id hid hne hroot
  -- an id that the project uses would have hidden the declaration
  have hused : usedId repo = some id := by
    have hid : repo.id = some id := hid
    simp [usedId, hid, hne]
  exact hkept ⟨by simp [shadows, hused, hroot], hnew⟩

theorem Listed.extends_appendRepos
    (hdependency : declared.isDependency = true) (repos : List Repository) :
    Extends defaultUrls declared front t (t.appendRepos defaultUrls repos declared) := by
  unfold appendRepos
  split
  · exact h.extends_self
  have hraised : Listed defaultUrls { t with generation := t.generation + 1 } front back :=
    h.of_tables rfl rfl rfl rfl rfl
  have hextends := foldlRecOn repos (appendRepo defaultUrls declared)
    (motive := Extends defaultUrls declared front _) hraised.extends_self fun t' ht' repo _ => by
      obtain ⟨back', h'⟩ := ht'.listed
      exact ht'.trans (h'.extends_appendRepo hdependency repo)
  exact ⟨hextends.listed, hextends.rootIds, hextends.project, hextends.fresh⟩

theorem Listed.retire {fuel : ℕ} :
    ∃ front', front' <+ front ∧ Listed defaultUrls (t.retire id fuel) front' back := by
  induction fuel generalizing t front with
  | zero => exact ⟨front, .refl _, h⟩
  | succ fuel ih =>
    unfold RepoTables.retire
    split
    · exact ⟨front, .refl _, h⟩
    rename_i index hfind
    obtain ⟨before, removed, after, rfl, rfl, -, hentry, -⟩ := h.exists_front hfind
    obtain ⟨front', hsub, h'⟩ := ih (h.removeAt hentry)
    exact ⟨front', hsub.trans ((sublist_cons_self _ _).append_left before), h'⟩

theorem Listed.holdRefusedId (repo : Repository) :
    ∃ front', front' <+ front ∧ Listed defaultUrls (holdRefusedId declared t repo) front' back := by
  unfold RepoTables.holdRefusedId
  split
  · exact ⟨front, .refl _, h⟩
  split
  · obtain ⟨front', hsub, h'⟩ := h.retire
    exact ⟨front', hsub, h'.of_tables rfl rfl rfl rfl rfl⟩
  · exact ⟨front, .refl _, h.of_tables rfl rfl rfl rfl rfl⟩

/-! ## The ids of the project -/

omit h

/-- The project uses every id that a refused declaration holds. -/
def HeldUsed (t : RepoTables) : Prop :=
  t.held ⊆ t.rootIds

def ids (t : RepoTables) : Finset Text × Finset Text :=
  (t.rootIds, t.held)

theorem ids_removeAt (t : RepoTables) (index : ℕ) : (t.removeAt index).ids = t.ids := by
  unfold RepoTables.removeAt
  cases t.entries[index]? <;> rfl

theorem ids_insertNew (t : RepoTables) (defaultUrls : Finset Text) (declared : Declared)
    (repo : Repository) : (t.insertNew defaultUrls declared repo).ids = t.ids := by
  unfold insertNew
  extract_lets key t'
  split <;> rfl

theorem ids_retire (t : RepoTables) (id : Text) (fuel : ℕ) : (t.retire id fuel).ids = t.ids := by
  induction fuel generalizing t with
  | zero => rfl
  | succ fuel ih =>
    unfold RepoTables.retire
    split
    · rfl
    · exact (ih _).trans (ids_removeAt t _)

theorem ids_releaseId (t : RepoTables) (declared : Declared) (repo : Repository) :
    (t.releaseId declared repo).rootIds = t.rootIds ∧
      (t.releaseId declared repo).held ⊆ t.held := by
  unfold RepoTables.releaseId
  split
  · split
    · exact ⟨rfl, Finset.erase_subset _ _⟩
    · exact ⟨rfl, Finset.Subset.refl _⟩
  · exact ⟨rfl, Finset.Subset.refl _⟩

theorem ids_useId (t : RepoTables) (declared : Declared) (repo : Repository) :
    t.rootIds ⊆ (t.useId declared repo).rootIds ∧ (t.useId declared repo).held = t.held ∧
      (declared.isDependency = false → ∀ id, usedId repo = some id →
        id ∈ (t.useId declared repo).rootIds) := by
  unfold RepoTables.useId
  cases hid : usedId repo with
  | none => exact ⟨Finset.Subset.refl _, rfl, fun _ id hid => by cases hid⟩
  | some used =>
    dsimp only
    split
    · rename_i hdependency
      exact ⟨Finset.Subset.refl _, rfl, fun hproject => by simp [hproject] at hdependency⟩
    · refine ⟨Finset.subset_insert _ _, rfl, fun _ id hid => ?_⟩
      cases hid
      exact Finset.mem_insert_self _ _

/-- After a declaration the ids are those after its own was recorded, unless it
was passed over before. -/
theorem ids_appendRepo (t : RepoTables) (defaultUrls : Finset Text) (declared : Declared)
    (repo : Repository) :
    let t' := appendRepo defaultUrls declared t repo
    let used := (t.releaseId declared repo).useId declared repo
    t'.ids = used.ids ∨
      (t' = t ∧ ∀ id, usedId repo = some id → id ∈ t.held) ∨
      (t' = t.releaseId declared repo ∧ declared.isDependency = true) := by
  intro t' used
  simp only [t', appendRepo]
  split
  · rename_i hheld
    refine .inr (.inl ⟨rfl, fun id hid => ?_⟩)
    simpa [hid] using hheld.1
  split
  · rename_i hshadows
    refine .inr (.inr ⟨rfl, ?_⟩)
    cases hdependency : declared.isDependency with
    | true => rfl
    | false =>
      rw [shadows_project hdependency] at hshadows
      cases hshadows.1
  left
  split
  · rfl
  rename_i index hreplaced
  have hroom : (index.elim used used.removeAt).ids = used.ids := by
    cases index with
    | none => rfl
    | some index => exact ids_removeAt used index
  split
  · obtain ⟨hroot, hheld, -⟩ := meetListed_tables (index.elim used used.removeAt) declared repo
    exact (Prod.ext hroot hheld).trans hroom
  · exact (ids_insertNew _ defaultUrls declared repo).trans hroom

structure IdsGrow (t t' : RepoTables) : Prop where
  held : t'.HeldUsed
  mono : t.rootIds ⊆ t'.rootIds

theorem IdsGrow.trans (h₁₂ : IdsGrow t₁ t₂) (h₂₃ : IdsGrow t₂ t₃) : IdsGrow t₁ t₃ :=
  ⟨h₂₃.held, h₁₂.mono.trans h₂₃.mono⟩

theorem idsGrow_foldl {P : Prop} {f : RepoTables → Repository → RepoTables}
    (hone : ∀ (t : RepoTables) (repo : Repository), t.HeldUsed → IdsGrow t (f t repo) ∧
      (P → ∀ id, usedId repo = some id → id ∈ (f t repo).rootIds))
    (h : t.HeldUsed) (repos : List Repository) :
    IdsGrow t (repos.foldl f t) ∧
      (P → ∀ repo ∈ repos, ∀ id, usedId repo = some id → id ∈ (repos.foldl f t).rootIds) := by
  induction repos generalizing t with
  | nil => exact ⟨⟨h, Finset.Subset.refl _⟩, by simp⟩
  | cons repo repos ih =>
    obtain ⟨hgrow, hid⟩ := hone t repo h
    obtain ⟨hrest, hids⟩ := ih hgrow.held
    refine ⟨hgrow.trans hrest, fun hP other hother id hused => ?_⟩
    rcases mem_cons.mp hother with rfl | hother
    · exact hrest.mono (hid hP id hused)
    · exact hids hP other hother id hused

theorem idsGrow_appendRepo (defaultUrls : Finset Text) (declared : Declared) (t : RepoTables)
    (repo : Repository) (h : t.HeldUsed) :
    IdsGrow t (appendRepo defaultUrls declared t repo) ∧
      (declared.isDependency = false → ∀ id, usedId repo = some id →
        id ∈ (appendRepo defaultUrls declared t repo).rootIds) := by
  obtain ⟨hreleased, hreleasedHeld⟩ := ids_releaseId t declared repo
  obtain ⟨huse, huseHeld, hused⟩ := ids_useId (t.releaseId declared repo) declared repo
  rw [hreleased] at huse
  rcases ids_appendRepo t defaultUrls declared repo with
    hids | ⟨heq, hid⟩ | ⟨heq, hdependency⟩
  · obtain ⟨hroot, hheld⟩ := Prod.mk.inj hids
    refine ⟨⟨?_, ?_⟩, fun hproject id hid => ?_⟩
    · rw [HeldUsed, hheld, hroot, huseHeld]
      exact hreleasedHeld.trans (h.trans huse)
    · rw [hroot]
      exact huse
    · rw [hroot]
      exact hused hproject id hid
  · rw [heq]
    exact ⟨⟨h, Finset.Subset.refl _⟩, fun _ id hused => h (hid id hused)⟩
  · rw [heq]
    refine ⟨⟨?_, ?_⟩, fun hproject => by simp [hproject] at hdependency⟩
    · rw [HeldUsed, hreleased]
      exact hreleasedHeld.trans h
    · rw [hreleased]

theorem idsGrow_holdRefusedId (declared : Declared) (t : RepoTables) (repo : Repository)
    (h : t.HeldUsed) :
    IdsGrow t (holdRefusedId declared t repo) ∧
      (True → ∀ id, usedId repo = some id → id ∈ (holdRefusedId declared t repo).rootIds) := by
  unfold holdRefusedId
  cases hid : usedId repo with
  | none => exact ⟨⟨h, Finset.Subset.refl _⟩, fun _ id hid => by cases hid⟩
  | some used =>
    dsimp only
    generalize hretired :
      (if declared = .effective then t.retire used t.projectEnd else t) = retired
    have hids : retired.ids = t.ids := by
      subst hretired
      split
      · exact ids_retire t used _
      · rfl
    obtain ⟨hroot, hheld⟩ := Prod.mk.inj hids
    refine ⟨⟨?_, ?_⟩, fun _ id hid => ?_⟩
    · rw [HeldUsed, hroot, hheld]
      exact Finset.insert_subset_insert _ h
    · rw [hroot]
      exact Finset.subset_insert _ _
    · cases hid
      exact Finset.mem_insert_self _ _

end RepoTables

/-! ## Histories -/

inductive RepoEvent where
  | append (repos : List Repository) (declared : Declared)
  | hold (refused : List Repository) (declared : Declared)

namespace RepoEvent

def declared : RepoEvent → Declared
  | append _ declared | hold _ declared => declared

def projectRepos : RepoEvent → List Repository
  | append repos declared => if declared.isDependency then [] else repos
  | hold refused _ => refused

def apply (defaultUrls : Finset Text) (t : RepoTables) : RepoEvent → RepoTables
  | append repos declared => t.appendRepos defaultUrls repos declared
  | hold refused declared => t.holdRefusedIds refused declared

/-- The keys before and after the boundary that an event may leave: a dependency's declarations
keep those before it, the project's those after it, and refusals only take some out. -/
inductive Moves (front back : List RepoKey) : RepoEvent → List RepoKey → List RepoKey → Prop where
  | project {repos : List Repository} {declared : Declared} {front' : List RepoKey}
      (hproject : declared.isDependency = false) :
      Moves front back (append repos declared) front' back
  | dependency {repos : List Repository} {declared : Declared} {back' : List RepoKey}
      (hdependency : declared.isDependency = true) :
      Moves front back (append repos declared) front back'
  | hold {refused : List Repository} {declared : Declared} {front' : List RepoKey}
      (hsub : front' <+ front) : Moves front back (hold refused declared) front' back

variable {defaultUrls : Finset Text} {t : RepoTables} {front back : List RepoKey}

theorem moves_apply (h : t.Listed defaultUrls front back) (event : RepoEvent) :
    ∃ front' back', Moves front back event front' back' ∧
      (event.apply defaultUrls t).Listed defaultUrls front' back' := by
  have hraised : { t with generation := t.generation + 1 }.Listed defaultUrls front back :=
    h.of_tables rfl rfl rfl rfl rfl
  cases event with
  | hold refused declared =>
    obtain ⟨front', hsub, h'⟩ := foldlRecOn refused (RepoTables.holdRefusedId declared)
      (motive := fun t => ∃ front', front' <+ front ∧ RepoTables.Listed defaultUrls t front' back)
      ⟨front, .refl _, hraised⟩ (by
        rintro t ⟨front', hsub, h⟩ repo -
        obtain ⟨front'', hsub', h'⟩ := h.holdRefusedId repo
        exact ⟨front'', hsub'.trans hsub, h'⟩)
    exact ⟨front', back, .hold hsub, h'⟩
  | append repos declared =>
    cases hdeclared : declared.isDependency with
    | true =>
      obtain ⟨back', h'⟩ := (h.extends_appendRepos hdeclared repos).listed
      exact ⟨front, back', .dependency hdeclared, h'⟩
    | false =>
      rw [apply, RepoTables.appendRepos]
      split
      · exact ⟨front, back, .project hdeclared, h⟩
      obtain ⟨front', h'⟩ := foldlRecOn repos (RepoTables.appendRepo defaultUrls declared)
        (motive := fun t => ∃ front', RepoTables.Listed defaultUrls t front' back)
        ⟨front, hraised⟩ (by
          rintro t ⟨front', h⟩ repo -
          obtain ⟨front'', h', -⟩ := h.appendRepo_project hdeclared repo
          exact ⟨front'', h'⟩)
      exact ⟨front', back, .project hdeclared, h'⟩

variable (defaultUrls) in
theorem idsGrow_apply (h : t.HeldUsed) (event : RepoEvent) :
    t.IdsGrow (event.apply defaultUrls t) ∧ ∀ repo ∈ event.projectRepos, ∀ id,
      usedId repo = some id → id ∈ (event.apply defaultUrls t).rootIds := by
  have hraised : { t with generation := t.generation + 1 }.HeldUsed := h
  cases event with
  | hold refused declared =>
    obtain ⟨hgrow, hids⟩ :=
      RepoTables.idsGrow_foldl (RepoTables.idsGrow_holdRefusedId declared) hraised refused
    exact ⟨⟨hgrow.held, hgrow.mono⟩, hids trivial⟩
  | append repos declared =>
    rw [apply, RepoTables.appendRepos]
    split
    · rename_i hempty
      rw [isEmpty_iff.mp hempty]
      exact ⟨⟨h, Finset.Subset.refl _⟩, by simp [projectRepos]⟩
    obtain ⟨hgrow, hids⟩ :=
      RepoTables.idsGrow_foldl (RepoTables.idsGrow_appendRepo defaultUrls declared) hraised repos
    refine ⟨⟨hgrow.held, hgrow.mono⟩, fun repo hrepo => ?_⟩
    rw [projectRepos] at hrepo
    split at hrepo
    · cases hrepo
    · rename_i hproject
      exact hids (Bool.not_eq_true _ ▸ hproject) repo hrepo

end RepoEvent

/-- The tables, with the kind of declaration that added each listed key. -/
structure RepoHistory where
  tables : RepoTables
  addedBy : RepoKey → Option Declared

namespace RepoHistory

def step (defaultUrls : Finset Text) (history : RepoHistory) (event : RepoEvent) : RepoHistory where
  tables := event.apply defaultUrls history.tables
  addedBy key :=
    if key ∈ history.tables.seen then history.addedBy key else some event.declared

def run (defaultUrls : Finset Text) (events : List RepoEvent) : RepoHistory :=
  events.foldl (step defaultUrls) ⟨.empty, fun _ => none⟩

def UsedByProject (events : List RepoEvent) (id : Text) : Prop :=
  ∃ event ∈ events, ∃ repo ∈ event.projectRepos, usedId repo = some id

structure Arranged (defaultUrls : Finset Text) (history : RepoHistory) : Prop where
  distinct : (history.tables.entries.map repoKey).Nodup
  seen : ∀ key, key ∈ history.tables.seen ↔ key ∈ history.tables.entries.map repoKey
  provisional : ∀ key ∈ history.tables.provisional, key ∈ history.tables.entries.map repoKey
  lineage : ∀ key ∈ history.tables.lineage, key ∈ history.tables.entries.map repoKey
  parts : history.tables.entries = history.tables.project ++ history.tables.dependencies
  project : ∀ repo ∈ history.tables.project, ∃ declared,
    history.addedBy (repoKey repo) = some declared ∧ declared.isDependency = false
  dependencies : ∀ repo ∈ history.tables.dependencies, ∃ declared,
    history.addedBy (repoKey repo) = some declared ∧ declared.isDependency = true
  defaults : history.tables.project.Pairwise fun earlier later =>
    earlier.url ∈ defaultUrls → later.url ∈ defaultUrls

structure Valid (defaultUrls : Finset Text) (events : List RepoEvent) (history : RepoHistory)
    (front back : List RepoKey) : Prop where
  listed : history.tables.Listed defaultUrls front back
  front : ∀ key ∈ front, ∃ declared,
    history.addedBy key = some declared ∧ declared.isDependency = false
  back : ∀ key ∈ back, ∃ declared,
    history.addedBy key = some declared ∧ declared.isDependency = true
  held : history.tables.HeldUsed
  used : ∀ id, UsedByProject events id → id ∈ history.tables.rootIds

variable {defaultUrls : Finset Text} {events : List RepoEvent} {history : RepoHistory}
  {front back : List RepoKey} {event : RepoEvent} {declared : Declared} {key : RepoKey}
  {repos : List Repository}

theorem Valid.start : Valid defaultUrls [] ⟨.empty, fun _ => none⟩ [] [] where
  listed := by
    refine ⟨rfl, rfl, nodup_nil, ?_, ?_, ?_, .nil⟩
    · simp [RepoTables.empty]
    · intro key hkey
      exact absurd hkey (AList.notMem_empty key)
    · simp [RepoTables.empty]
  front := by simp
  back := by simp
  held := Finset.Subset.refl _
  used := by
    rintro id ⟨event, hevent, -⟩
    cases hevent

theorem usedByProject_concat {id : Text} (h : UsedByProject (events ++ [event]) id) :
    UsedByProject events id ∨ ∃ repo ∈ event.projectRepos, usedId repo = some id := by
  obtain ⟨event', hevent', hused⟩ := h
  rcases mem_append.mp hevent' with hold | hnew
  · exact .inl ⟨event', hold, hused⟩
  · rw [mem_singleton] at hnew
    exact .inr (hnew ▸ hused)

theorem addedBy_step_of_mem (h : history.tables.Listed defaultUrls front back)
    (hkey : key ∈ front ++ back) :
    (history.step defaultUrls event).addedBy key = history.addedBy key :=
  if_pos ((h.seen key).mpr hkey)

theorem addedBy_step_of_notMem (h : history.tables.Listed defaultUrls front back)
    (hkey : key ∉ front ++ back) :
    (history.step defaultUrls event).addedBy key = some event.declared :=
  if_neg fun hseen => hkey ((h.seen key).mp hseen)

variable (h : Valid defaultUrls events history front back)

include h

/-- After one more event the boundary still parts the project's keys from those of dependencies. -/
theorem Valid.step (event : RepoEvent) :
    ∃ front' back', Valid defaultUrls (events ++ [event]) (history.step defaultUrls event)
      front' back' := by
  obtain ⟨front', back', hmoves, hlisted⟩ := event.moves_apply h.listed
  obtain ⟨hgrow, hids⟩ := event.idsGrow_apply defaultUrls h.held
  have hapart := (nodup_append.mp hlisted.nodup).2.2
  refine ⟨front', back', hlisted, fun key hkey => ?_, fun key hkey => ?_, hgrow.held,
    fun id hid => ?_⟩
  · by_cases hold : key ∈ front ++ back
    · rw [addedBy_step_of_mem h.listed hold]
      refine h.front key ?_
      cases hmoves with
      | project =>
        exact (mem_append.mp hold).resolve_right fun hback => hapart key hkey key hback rfl
      | dependency => exact hkey
      | hold hsub => exact hsub.subset hkey
    · refine ⟨_, addedBy_step_of_notMem h.listed hold, ?_⟩
      cases hmoves with
      | project hproject => exact hproject
      | dependency => exact absurd (mem_append_left _ hkey) hold
      | hold hsub => exact absurd (mem_append_left _ (hsub.subset hkey)) hold
  · by_cases hold : key ∈ front ++ back
    · rw [addedBy_step_of_mem h.listed hold]
      refine h.back key ?_
      cases hmoves with
      | dependency =>
        exact (mem_append.mp hold).resolve_left fun hfront => hapart key hfront key hkey rfl
      | project | hold => exact hkey
    · refine ⟨_, addedBy_step_of_notMem h.listed hold, ?_⟩
      cases hmoves with
      | dependency hdependency => exact hdependency
      | project | hold => exact absurd (mem_append_right _ hkey) hold
  · rcases usedByProject_concat hid with hold | ⟨repo, hrepo, hused⟩
    · exact hgrow.mono (h.used id hold)
    · exact hids repo hrepo id hused

theorem Valid.arranged : Arranged defaultUrls history where
  distinct := h.listed.keys ▸ h.listed.nodup
  seen := h.listed.keys ▸ h.listed.seen
  provisional := h.listed.keys ▸ h.listed.provisional
  lineage := h.listed.keys ▸ h.listed.lineage
  parts := (take_append_drop _ _).symm
  project := fun repo hrepo =>
    h.front _ (h.listed.map_project ▸ mem_map_of_mem hrepo)
  dependencies := fun repo hrepo =>
    h.back _ (h.listed.map_dependencies ▸ mem_map_of_mem hrepo)
  defaults := by
    have hdefaults := h.listed.defaults
    rw [← h.listed.map_project, pairwise_map] at hdefaults
    exact hdefaults

omit h

theorem valid_run (defaultUrls : Finset Text) (events : List RepoEvent) :
    ∃ front back, Valid defaultUrls events (run defaultUrls events) front back := by
  induction events using List.reverseRecOn with
  | nil => exact ⟨[], [], .start⟩
  | append_singleton events event ih =>
    obtain ⟨front, back, h⟩ := ih
    rw [run, foldl_concat]
    exact h.step event

/-- The list after every sequence of declarations and refusals, and what the
declarations of fetched and reactor POMs then change. -/
theorem run_arranged (defaultUrls : Finset Text) (events : List RepoEvent) :
    Arranged defaultUrls (run defaultUrls events) ∧
      (∀ repos declared, declared.isDependency = true →
        List.Forall₂ Repository.Stricter (run defaultUrls events).tables.project
          ((run defaultUrls events).tables.appendRepos defaultUrls repos declared).project) ∧
      ∀ repos, ∀ repo ∈
          ((run defaultUrls events).tables.appendRepos defaultUrls repos .fetched).entries,
        repoKey repo ∈ (run defaultUrls events).tables.seen ∨
          ∀ id, repo.id = some id → id ≠ [] → ¬ UsedByProject events id := by
  obtain ⟨front, back, h⟩ := valid_run defaultUrls events
  refine ⟨h.arranged, fun repos declared hdependency => ?_, fun repos repo hrepo => ?_⟩
  · exact (h.listed.extends_appendRepos hdependency repos).project
  · have hdependency : Declared.fetched.isDependency = true := rfl
    have hextends := h.listed.extends_appendRepos hdependency repos
    obtain ⟨back', hlisted⟩ := hextends.listed
    have hkey : repoKey repo ∈
        ((run defaultUrls events).tables.appendRepos defaultUrls repos .fetched).seen := by
      rw [hlisted.seen, ← hlisted.keys]
      exact mem_map_of_mem hrepo
    refine (hextends.fresh rfl _ hkey).imp_right fun hfresh id hid hne hused => ?_
    exact hfresh id hid hne (h.used id hused)

/-- The project replaces nothing, `central` stays last, and a fetched POM adds a
repository under its own id but none under `corp`. -/
theorem run_arranged_corp : let repo (id url : String) : Repository :=
      ⟨some id.toList, url.toList, true, false, .interval 60, .daily, .warn, .warn, .localPom⟩
    let defaultUrls : Finset Text := {"https://central/".toList}
    let events : List RepoEvent :=
      [.append [repo "central" "https://central/"] .outside,
        .append [repo "corp" "https://corp/"] .lineage]
    let tables := (run defaultUrls events).tables
    tables.project = [repo "corp" "https://corp/", repo "central" "https://central/"] ∧
      (tables.appendRepos defaultUrls
        [repo "corp" "https://evil/", repo "dep" "https://dep/"] .fetched).entries =
          [repo "corp" "https://corp/", repo "central" "https://central/",
            repo "dep" "https://dep/"] ∧
      Arranged defaultUrls (run defaultUrls events) := by
  intro repo defaultUrls events tables
  exact ⟨by decide +kernel, by decide +kernel, (run_arranged defaultUrls events).1⟩

/-! ## One repository under an id -/

inductive RepoStep where
  | declare (declared : Declared) (repo : Repository)
  | refuse (declared : Declared) (repo : Repository)

namespace RepoStep

def apply (defaultUrls : Finset Text) (t : RepoTables) : RepoStep → RepoTables
  | declare declared repo => RepoTables.appendRepo defaultUrls declared t repo
  | refuse declared repo => RepoTables.holdRefusedId declared t repo

def Clashes (defaultUrls : Finset Text) (t : RepoTables) : RepoStep → Prop
  | declare declared repo => ∃ id, RepoTables.Clash defaultUrls declared t repo id
  | refuse _ _ => False

def state (defaultUrls : Finset Text) (steps : List RepoStep) : RepoTables :=
  steps.foldl (apply defaultUrls) .empty

theorem listed_apply {t : RepoTables} (h : t.Listed defaultUrls front back) (step : RepoStep) :
    ∃ front' back', (step.apply defaultUrls t).Listed defaultUrls front' back' ∧
      (RepoTables.OnePerId defaultUrls front →
        (RepoTables.OnePerId defaultUrls front' ↔ ¬ step.Clashes defaultUrls t)) := by
  cases step with
  | declare declared repo =>
    cases hdeclared : declared.isDependency with
    | false =>
      obtain ⟨front', h', hone⟩ := h.appendRepo_project hdeclared repo
      exact ⟨front', back, h', fun hfront => (hone hfront).trans not_exists.symm⟩
    | true =>
      obtain ⟨back', h'⟩ := (h.extends_appendRepo hdeclared repo).listed
      refine ⟨front, back', h', fun hone => iff_of_true hone ?_⟩
      rintro ⟨id, hclash⟩
      cases hdeclared.symm.trans hclash.project
  | refuse declared repo =>
    obtain ⟨front', hsub, h'⟩ := h.holdRefusedId repo
    exact ⟨front', back, h', fun hone => iff_of_true (hone.sublist hsub) id⟩

theorem listed_state (defaultUrls : Finset Text) (steps : List RepoStep) :
    ∃ front back, (state defaultUrls steps).Listed defaultUrls front back := by
  induction steps using List.reverseRecOn with
  | nil => exact ⟨[], [], Valid.start.listed⟩
  | append_singleton steps step ih =>
    obtain ⟨front, back, h⟩ := ih
    obtain ⟨front', back', h', -⟩ := listed_apply h step
    rw [state, foldl_concat]
    exact ⟨front', back', h'⟩

theorem onePerId_concat (defaultUrls : Finset Text) (steps : List RepoStep) (step : RepoStep)
    (h : RepoTables.OnePerId defaultUrls ((state defaultUrls steps).project.map repoKey)) :
    RepoTables.OnePerId defaultUrls ((state defaultUrls (steps ++ [step])).project.map repoKey) ↔
      ¬ step.Clashes defaultUrls (state defaultUrls steps) := by
  obtain ⟨front, back, hlisted⟩ := listed_state defaultUrls steps
  obtain ⟨front', back', hlisted', hone⟩ := listed_apply hlisted step
  have hstate :
      state defaultUrls (steps ++ [step]) = step.apply defaultUrls (state defaultUrls steps) :=
    foldl_concat _ _ _ _
  rw [hlisted.map_project] at h
  rw [hstate, hlisted'.map_project]
  exact hone h

/-- The project has one repository under each id in every state exactly when no
declaration clashes with the state it meets. -/
theorem onePerId_iff (defaultUrls : Finset Text) (steps : List RepoStep) :
    (∀ before, before <+: steps →
      RepoTables.OnePerId defaultUrls ((state defaultUrls before).project.map repoKey)) ↔
    ∀ before step, before ++ [step] <+: steps →
      ¬ step.Clashes defaultUrls (state defaultUrls before) := by
  constructor
  · intro hone before step hprefix
    have hbefore := hone before (IsPrefix.trans ⟨[step], rfl⟩ hprefix)
    exact (onePerId_concat defaultUrls before step hbefore).mp (hone _ hprefix)
  · intro hclash before
    induction before using List.reverseRecOn with
    | nil => exact fun _ _ _ => Nat.zero_le 1
    | append_singleton before step ih =>
      intro hprefix
      have hbefore := ih (IsPrefix.trans ⟨[step], rfl⟩ hprefix)
      exact (onePerId_concat defaultUrls before step hbefore).mpr (hclash before step hprefix)

end RepoStep

/-- A provisional repository stands beside the default `central`; the next
declaration replaces only the default. -/
theorem two_under_central : let repo (url : String) : Repository :=
      ⟨some "central", url.toList, true, false, .interval 60, .daily, .warn, .warn, .localPom⟩
    let defaultUrls : Finset Text := {"https://central/".toList}
    let tables := (run defaultUrls [.append [repo "https://central/"] .outside,
      .append [repo "https://one/"] .provisional, .append [repo "https://two/"] .lineage]).tables
    tables.project = [repo "https://one/", repo "https://two/"] ∧
      ¬ RepoTables.OnePerId defaultUrls (tables.project.map repoKey) := by
  intro repo defaultUrls tables
  have hproject : tables.project = [repo "https://one/", repo "https://two/"] := by decide +kernel
  refine ⟨hproject, fun hone => ?_⟩
  have hle := hone "central" (by decide)
  rw [hproject] at hle
  revert hle
  decide +kernel

/-! ## The operations of a resolution -/

theorem tables_run_append (events events' : List RepoEvent) :
    (run defaultUrls (events ++ events')).tables =
      events'.foldl (RepoEvent.apply defaultUrls) (run defaultUrls events).tables := by
  rw [run, foldl_append]
  exact (foldl_hom RepoHistory.tables fun _ _ => rfl).symm

section Operations

variable [UrlParser]

/-- The repositories that the lineage of the root declares: the ids of the refused ones are held
before the others join. -/
def rootEvents (config : Config) (extra : List Repository) (declared : Declared) :
    List RepoEvent :=
  let (admitted, refused) := admitRootLineage config extra
  (if refused.isEmpty then [] else [.hold refused declared]) ++ [.append admitted declared]

theorem appendRootRepos_run (config : Config) (extra : List Repository) :
    appendRootRepos config defaultUrls (run defaultUrls events).tables extra declared =
      (run defaultUrls (events ++ rootEvents config extra declared)).tables := by
  rw [tables_run_append, appendRootRepos, rootEvents]
  dsimp only
  split <;> rfl

theorem extendRepos_run (config : Config) (extra : List Repository) :
    extendRepos config defaultUrls (run defaultUrls events).tables extra =
      (run defaultUrls
        (events ++ [.append (screen config extra .transitive).admitted .fetched])).tables := by
  rw [tables_run_append]
  rfl

end Operations

theorem joinContext_run (parent admitted : List Repository) :
    (joinContext defaultUrls (run defaultUrls events).tables parent admitted declared).2 =
      (run defaultUrls (events ++ [.append admitted declared])).tables := by
  rw [tables_run_append, joinContext]
  split
  · rename_i hempty
    rw [isEmpty_iff.mp hempty]
    rfl
  · rfl

def stepsOf : RepoEvent → List RepoStep
  | .append repos declared => repos.map (.declare declared)
  | .hold refused declared => refused.map (.refuse declared)

theorem apply_eq_foldl_stepsOf (event : RepoEvent) (t : RepoTables) :
    ∃ n : ℕ, event.apply defaultUrls t =
      (stepsOf event).foldl (RepoStep.apply defaultUrls) { t with generation := n } := by
  cases event with
  | hold refused declared =>
    refine ⟨t.generation + 1, ?_⟩
    rw [stepsOf, foldl_map]
    rfl
  | append repos declared =>
    simp only [stepsOf, foldl_map]
    cases repos with
    | nil => exact ⟨t.generation, rfl⟩
    | cons repo repos => exact ⟨t.generation + 1, rfl⟩

end RepoHistory

end Raeva.Resolver
