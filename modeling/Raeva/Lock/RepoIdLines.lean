import Raeva.Lock.Merge

/-!
# Lines of repository ids

The block of `origin<TAB>id` lines in which a lockfile records its repository
ids, and the reader of such a block, `rv-lock/src/lock_origin.rs`.
-/

namespace Raeva.Lock

open List

def decodeRepoIdLine (map : RepoIds) (line : Text) : Except LockError RepoIds :=
  match Text.splitOnce line '\t' with
  | none => .error (.malformedRepoIdLine line)
  | some (origin, id) =>
    if origin.isEmpty || !isRecordableRepoId origin || !isRecordableRepoId id then
      .error (.malformedRepoIdLine origin)
    else if ((map.lookup origin).getD .empty).contains id then
      .error (.duplicateRepoIdLine origin)
    else .ok (map.insertLine (origin, id))

def blockLines (encoded : Text) : List Text :=
  if encoded.isEmpty then [] else Text.split encoded '\n'

def decodeRepoIdLines (encoded : Text) : Except LockError RepoIds :=
  (blockLines encoded).foldlM decodeRepoIdLine .empty

/-! ## Lines and maps -/

def lineText (line : Text × Text) : Text :=
  line.1 ++ '\t' :: line.2

/-- A line whose origin is named and whose fields can be recorded. -/
def WellFormed (line : Text × Text) : Prop :=
  line.1 ≠ [] ∧ isRecordableRepoId line.1 = true ∧ isRecordableRepoId line.2 = true

variable {ids map : RepoIds} {line : Text × Text} {text : Text} {texts : List Text}
  {origin o : Text} {lines : List (Text × Text)} {map' : RepoIds}

theorem wellFormed_iff {id : Text} : WellFormed (origin, id) ↔
    (origin.isEmpty || !isRecordableRepoId origin || !isRecordableRepoId id) = false := by
  simp [WellFormed, and_assoc]

/-- No map of repositories to ids lists a repository without an id. -/
def RepoIds.Named (ids : RepoIds) : Prop :=
  ∀ entry ∈ ids.entries, entry.2.entries ≠ []

theorem mem_lookup_getD {id : Text} :
    id ∈ ((map.lookup origin).getD .empty).entries ↔ (origin, id) ∈ repoIdLines map := by
  rw [mem_repoIdLines]
  cases hlookup : map.lookup origin with
  | none =>
    constructor
    · intro h
      cases h
    · rintro ⟨set, hset, -⟩
      rw [OrderedMap.lookup_eq_some_iff.mpr hset] at hlookup
      cases hlookup
  | some set =>
    constructor
    · exact fun h => ⟨set, OrderedMap.lookup_eq_some_iff.mp hlookup, h⟩
    rintro ⟨set', hset', h⟩
    rw [OrderedMap.lookup_eq_some_iff.mpr hset'] at hlookup
    cases hlookup
    exact h

theorem mem_repoIdLines_insertLine {l : Text × Text} :
    line ∈ repoIdLines (ids.insertLine l) ↔ line = l ∨ line ∈ repoIdLines ids := by
  obtain ⟨origin, id⟩ := line
  rw [mem_repoIdLines]
  simp only [RepoIds.insertLine, Ordered.mem_insert]
  constructor
  · rintro ⟨set, hentry | ⟨hentry, -⟩, hid⟩
    · obtain ⟨rfl, rfl⟩ := Prod.mk.inj hentry
      rcases Ordered.mem_insertNew.mp hid with hid | ⟨rfl, -⟩
      · exact .inr (mem_lookup_getD.mp hid)
      · exact .inl rfl
    · exact .inr (mem_repoIdLines.mpr ⟨set, hentry, hid⟩)
  · intro h
    by_cases horigin : origin = l.1
    · subst horigin
      refine ⟨_, .inl rfl, Ordered.mem_insertNew.mpr ?_⟩
      by_cases hid : id ∈ ((ids.lookup l.1).getD .empty).entries
      · exact .inl hid
      rcases h with h | h
      · obtain rfl : id = l.2 := congrArg Prod.snd h
        refine .inr ⟨rfl, fun other hother heq => hid ?_⟩
        obtain rfl : other = l.2 := heq
        exact hother
      · exact absurd (mem_lookup_getD.mpr h) hid
    · rcases h with rfl | h
      · exact absurd rfl horigin
      · obtain ⟨set, hentry, hid⟩ := mem_repoIdLines.mp h
        exact ⟨set, .inr ⟨hentry, horigin⟩, hid⟩

theorem mem_repoIdLines_foldl :
    line ∈ repoIdLines (lines.foldl RepoIds.insertLine ids) ↔
      line ∈ lines ∨ line ∈ repoIdLines ids := by
  induction lines generalizing ids with
  | nil => simp
  | cons l lines ih =>
    rw [foldl_cons, ih, mem_repoIdLines_insertLine, mem_cons]
    tauto

theorem mem_repoIdLines_of_lines :
    line ∈ repoIdLines (lines.foldl RepoIds.insertLine .empty) ↔ line ∈ lines := by
  rw [mem_repoIdLines_foldl]
  exact or_iff_left fun hmem => by cases hmem

theorem RepoIds.Named.insertLine (h : ids.Named) (line : Text × Text) :
    (ids.insertLine line).Named := by
  intro entry hentry
  rcases Ordered.mem_insert.mp hentry with rfl | ⟨hentry, -⟩
  · have hline : line ∈ repoIdLines (ids.insertLine line) :=
      mem_repoIdLines_insertLine.mpr (.inl rfl)
    obtain ⟨set, hset, hid⟩ := mem_repoIdLines.mp hline
    cases Ordered.eq_of_key_eq hset hentry rfl
    exact ne_nil_of_mem hid
  · exact h entry hentry

theorem RepoIds.named_of_lines : RepoIds.Named (lines.foldl RepoIds.insertLine .empty) :=
  foldlRecOn lines _ (motive := RepoIds.Named) (fun _ hentry => by cases hentry)
    fun _ h line _ => h.insertLine line

/-- The lines determine a map without empty entries. -/
theorem RepoIds.Named.ext {a b : RepoIds} (ha : a.Named) (hb : b.Named)
    (h : ∀ line, line ∈ repoIdLines a ↔ line ∈ repoIdLines b) : a = b := by
  have hmem : ∀ {a b : RepoIds}, (∀ line, line ∈ repoIdLines a ↔ line ∈ repoIdLines b) →
      ∀ {origin set id}, (origin, set) ∈ a.entries → id ∈ set.entries →
        ∃ set', (origin, set') ∈ b.entries ∧ id ∈ set'.entries := fun h origin _ id hentry hid =>
    mem_repoIdLines.mp ((h (origin, id)).mp (mem_repoIdLines.mpr ⟨_, hentry, hid⟩))
  have hsub : ∀ {a b : RepoIds}, a.Named → (∀ line, line ∈ repoIdLines a ↔ line ∈ repoIdLines b) →
      ∀ entry ∈ a.entries, entry ∈ b.entries := by
    intro a b ha h entry hentry
    obtain ⟨origin, set⟩ := entry
    obtain ⟨id, hid⟩ := exists_mem_of_ne_nil _ (ha _ hentry)
    obtain ⟨set', hentry', -⟩ := hmem h hentry hid
    have hsets : set = set' := by
      apply Ordered.ext_mem
      intro id
      constructor
      · intro hid
        obtain ⟨other, hother, hid⟩ := hmem h hentry hid
        cases Ordered.eq_of_key_eq hother hentry' rfl
        exact hid
      · intro hid
        obtain ⟨other, hother, hid⟩ := hmem (fun line => (h line).symm) hentry' hid
        cases Ordered.eq_of_key_eq hother hentry rfl
        exact hid
    subst hsets
    exact hentry'
  apply Ordered.ext_mem
  exact fun entry => ⟨hsub ha h entry, hsub hb (fun line => (h line).symm) entry⟩

/-! ## The order of the lines -/

theorem tab_lt (h : isRecordableRepoId text = true) {c : Char} (hc : c ∈ text) : '\t' < c := by
  have hsafe : ¬c.toNat < 0x20 := fun hlt => notMem_of_isTerminalSafe h hlt hc
  rw [Char.lt_def, UInt32.lt_iff_toNat_lt]
  simp only [Char.toNat] at hsafe
  have htab : '\t'.val.toNat = 9 := rfl
  omega

theorem tab_notMem (h : isRecordableRepoId text = true) : '\t' ∉ text :=
  fun hmem => absurd (tab_lt h hmem) (lt_irrefl _)

theorem newline_notMem (h : isRecordableRepoId text = true) : '\n' ∉ text :=
  notMem_of_isTerminalSafe h (by decide)

theorem append_tab_lt {o' : Text} (h : o < o') (ho' : ∀ c ∈ o', '\t' < c) (s t : Text) :
    o ++ '\t' :: s < o' ++ '\t' :: t := by
  induction o generalizing o' with
  | nil =>
    cases o' with
    | nil => exact absurd h (lt_irrefl _)
    | cons c o' => exact cons_lt_cons_iff.mpr (.inl (ho' c mem_cons_self))
  | cons a o ih =>
    cases o' with
    | nil => exact absurd h (not_lt_nil _)
    | cons c o' =>
      rcases cons_lt_cons_iff.mp h with hlt | ⟨rfl, hlt⟩
      · exact cons_lt_cons_iff.mpr (.inl hlt)
      · refine cons_lt_cons_iff.mpr (.inr ⟨rfl, ih hlt fun c hc => ?_⟩)
        exact ho' c (mem_cons_of_mem _ hc)

theorem append_lt_append {s t : Text} (h : s < t) : o ++ s < o ++ t := by
  induction o with
  | nil => exact h
  | cons c o ih => exact cons_lt_cons_iff.mpr (.inr ⟨rfl, ih⟩)

theorem lineText_inj {a b : Text × Text} (ha : WellFormed a) (hb : WellFormed b)
    (h : lineText a = lineText b) : a = b := by
  obtain ⟨horigin, hid⟩ := Text.cut_inj (tab_notMem ha.2.1) (tab_notMem hb.2.1) h
  exact Prod.ext horigin hid

theorem newline_notMem_lineText (h : WellFormed line) : '\n' ∉ lineText line := by
  simp only [lineText, mem_append, mem_cons, not_or]
  exact ⟨newline_notMem h.2.1, by decide, newline_notMem h.2.2⟩

theorem lineText_sorted (h : ∀ line ∈ repoIdLines ids, WellFormed line) :
    ((repoIdLines ids).map lineText).Pairwise (· < ·) := by
  rw [pairwise_map, repoIdLines, pairwise_flatMap]
  constructor
  · rintro ⟨origin, set⟩ -
    rw [pairwise_map]
    refine set.sorted.imp fun hlt => append_lt_append ?_
    exact cons_lt_cons_iff.mpr (.inr ⟨rfl, hlt⟩)
  · refine ids.sorted.imp_of_mem ?_
    rintro ⟨origin, set⟩ ⟨origin', set'⟩ - hentry' hlt a ha b hb
    obtain ⟨id, -, rfl⟩ := mem_map.mp ha
    obtain ⟨id', hid', rfl⟩ := mem_map.mp hb
    have hline := h (origin', id') (mem_repoIdLines.mpr ⟨set', hentry', hid'⟩)
    exact append_tab_lt hlt (fun c hc => tab_lt hline.2.1 hc) _ _

theorem nodup_repoIdLines (h : ∀ line ∈ repoIdLines ids, WellFormed line) :
    (repoIdLines ids).Nodup := by
  have hsorted : ((repoIdLines ids).map lineText).Nodup := (lineText_sorted h).imp fun hlt => hlt.ne
  exact hsorted.of_map _

theorem encodeRepoIdLines_eq_ok_iff :
    encodeRepoIdLines ids = .ok text ↔ (∀ line ∈ repoIdLines ids, WellFormed line) ∧
      Text.join ['\n'] ((repoIdLines ids).map lineText) = text := by
  have hline : ∀ (line : Text × Text) (text : Text),
      (if line.1.isEmpty || !isRecordableRepoId line.1 || !isRecordableRepoId line.2 then
        (.error (.repoId line.1 line.2) : Except LockError Text)
      else .ok (lineText line)) = .ok text ↔ WellFormed line ∧ lineText line = text := by
    intro line text
    rw [wellFormed_iff]
    cases line.1.isEmpty || !isRecordableRepoId line.1 || !isRecordableRepoId line.2 <;> simp
  constructor
  · intro h
    obtain ⟨texts, htexts, h⟩ := bind_eq_ok h
    cases h
    obtain ⟨hformed, rfl⟩ := (mapM_eq_ok_iff hline).mp htexts
    exact ⟨hformed, rfl⟩
  · rintro ⟨hformed, rfl⟩
    exact congrArg (· >>= _) ((mapM_eq_ok_iff hline).mpr ⟨hformed, rfl⟩)

/-! ## Reading -/

theorem contains_lookup_getD {id : Text} :
    ((map.lookup origin).getD .empty).contains id = true ↔ (origin, id) ∈ repoIdLines map := by
  rw [Ordered.contains_iff, ← mem_lookup_getD]
  exact ⟨fun ⟨_, ha, heq⟩ => heq ▸ ha, fun h => ⟨id, h, rfl⟩⟩

theorem decodeRepoIdLine_eq_ok_iff :
    decodeRepoIdLine map text = .ok map' ↔
      ∃ line, WellFormed line ∧ lineText line = text ∧ line ∉ repoIdLines map ∧
        map.insertLine line = map' := by
  rw [decodeRepoIdLine]
  constructor
  · intro h
    cases hsplit : Text.splitOnce text '\t' with
    | none =>
      rw [hsplit] at h
      cases h
    | some parts =>
      obtain ⟨origin, id⟩ := parts
      rw [hsplit] at h
      dsimp only at h
      split_ifs at h with hbad hdup
      cases h
      refine ⟨(origin, id), wellFormed_iff.mpr (by simpa using hbad),
        (Text.splitOnce_eq hsplit).1.symm, fun hmem => hdup (contains_lookup_getD.mpr hmem), rfl⟩
  · rintro ⟨⟨origin, id⟩, hline, rfl, hnew, rfl⟩
    have hdup : ¬((map.lookup origin).getD .empty).contains id = true :=
      fun hmem => hnew (contains_lookup_getD.mp hmem)
    rw [lineText, Text.splitOnce_append (tab_notMem hline.2.1)]
    dsimp only
    rw [wellFormed_iff.mp hline, if_neg Bool.false_ne_true, if_neg hdup]

theorem foldlM_decodeRepoIdLine_eq_ok_iff :
    texts.foldlM decodeRepoIdLine map = .ok map' ↔
      ∃ lines : List (Text × Text), (∀ line ∈ lines, WellFormed line) ∧
        lines.map lineText = texts ∧ lines.Nodup ∧
        (∀ line ∈ lines, line ∉ repoIdLines map) ∧ lines.foldl RepoIds.insertLine map = map' := by
  induction texts generalizing map with
  | nil =>
    constructor
    · intro h
      cases h
      exact ⟨[], by simp⟩
    · rintro ⟨lines, -, hlines, -, -, rfl⟩
      obtain rfl := map_eq_nil_iff.mp hlines
      rfl
  | cons text texts ih =>
    rw [foldlM_cons]
    constructor
    · intro h
      obtain ⟨next, hnext, hrest⟩ := bind_eq_ok h
      obtain ⟨line, hline, rfl, hnew, rfl⟩ := decodeRepoIdLine_eq_ok_iff.mp hnext
      obtain ⟨lines, hlines, rfl, hnodup, hfresh, rfl⟩ := ih.mp hrest
      have hmem : ∀ l ∈ lines, l ≠ line ∧ l ∉ repoIdLines map := by
        intro l hl
        have hout := hfresh l hl
        rw [mem_repoIdLines_insertLine, not_or] at hout
        exact hout
      refine ⟨line :: lines, ?_, rfl, ?_, ?_, rfl⟩
      · exact forall_mem_cons.mpr ⟨hline, hlines⟩
      · exact nodup_cons.mpr ⟨fun hl => (hmem line hl).1 rfl, hnodup⟩
      · exact forall_mem_cons.mpr ⟨hnew, fun l hl => (hmem l hl).2⟩
    · rintro ⟨lines, hlines, htexts, hnodup, hfresh, rfl⟩
      cases lines with
      | nil => cases htexts
      | cons line lines =>
        obtain ⟨rfl, rfl⟩ := List.cons.inj htexts
        obtain ⟨hline, hlines⟩ := forall_mem_cons.mp hlines
        obtain ⟨hnew, hfresh⟩ := forall_mem_cons.mp hfresh
        obtain ⟨hnotMem, hnodup⟩ := nodup_cons.mp hnodup
        have hnext := decodeRepoIdLine_eq_ok_iff.mpr ⟨line, hline, rfl, hnew, rfl⟩
        rw [hnext, ok_bind]
        refine ih.mpr ⟨lines, hlines, rfl, hnodup, fun l hl => ?_, rfl⟩
        rw [mem_repoIdLines_insertLine, not_or]
        refine ⟨?_, hfresh l hl⟩
        rintro rfl
        exact hnotMem hl

theorem exists_lines (h : ∀ text ∈ texts, ∃ line, WellFormed line ∧ lineText line = text) :
    ∃ lines : List (Text × Text), (∀ line ∈ lines, WellFormed line) ∧
      lines.map lineText = texts := by
  induction texts with
  | nil => exact ⟨[], by simp⟩
  | cons text texts ih =>
    obtain ⟨⟨line, hline, rfl⟩, htexts⟩ := forall_mem_cons.mp h
    obtain ⟨lines, hlines, rfl⟩ := ih htexts
    exact ⟨line :: lines, forall_mem_cons.mpr ⟨hline, hlines⟩, rfl⟩

theorem exists_decodeRepoIdLines_iff {encoded : Text} :
    (∃ map, decodeRepoIdLines encoded = .ok map) ↔
      (∀ text ∈ blockLines encoded, ∃ line, WellFormed line ∧ lineText line = text) ∧
        (blockLines encoded).Nodup := by
  rw [decodeRepoIdLines]
  generalize blockLines encoded = texts
  constructor
  · rintro ⟨map, h⟩
    obtain ⟨lines, hlines, rfl, hnodup, -, -⟩ := foldlM_decodeRepoIdLine_eq_ok_iff.mp h
    constructor
    · exact forall_mem_map.mpr fun line hline => ⟨line, hlines line hline, rfl⟩
    · exact hnodup.map_on fun a ha b hb heq => lineText_inj (hlines a ha) (hlines b hb) heq
  · rintro ⟨htexts, hnodup⟩
    obtain ⟨lines, hlines, rfl⟩ := exists_lines htexts
    refine ⟨_, foldlM_decodeRepoIdLine_eq_ok_iff.mpr ⟨lines, hlines, rfl, hnodup.of_map _, ?_, rfl⟩⟩
    intro line _ hmem
    cases hmem

/-! ## There and back -/

theorem blockLines_join (h : ∀ text ∈ texts, text ≠ [] ∧ '\n' ∉ text) :
    blockLines (Text.join ['\n'] texts) = texts := by
  by_cases hnil : texts = []
  · subst hnil
    rfl
  have hjoin : Text.join ['\n'] texts ≠ [] := fun hempty =>
    hnil (Text.join_eq_nil (fun text htext => (h text htext).1) hempty)
  rw [blockLines, if_neg (by simpa using hjoin), Text.split, Text.join]
  exact splitOn_intercalate '\n' (fun text htext => (h text htext).2) hnil

/-- Reading what was written gives the map without the repositories that have no
id, which have no line. -/
theorem decodeRepoIdLines_encode (h : ∀ line ∈ repoIdLines map, WellFormed line) :
    decodeRepoIdLines (Text.join ['\n'] ((repoIdLines map).map lineText)) =
      .ok ((repoIdLines map).foldl RepoIds.insertLine .empty) := by
  have hblock : blockLines (Text.join ['\n'] ((repoIdLines map).map lineText)) =
      (repoIdLines map).map lineText := by
    refine blockLines_join (forall_mem_map.mpr fun line hline => ?_)
    exact ⟨by simp [lineText], newline_notMem_lineText (h line hline)⟩
  rw [decodeRepoIdLines, hblock]
  refine foldlM_decodeRepoIdLine_eq_ok_iff.mpr ⟨_, h, rfl, nodup_repoIdLines h, ?_, rfl⟩
  intro line _ hmem
  cases hmem

/-- The lines of repository ids and the maps they record: what is written reads
back as the map exactly where every repository has an id; what is read is
written as its sorted lines; only fields that would read back as another record
are refused, and only blocks with a malformed or a repeated line. -/
theorem repoIdLines_codec :
    (∀ map : RepoIds, (∀ line ∈ repoIdLines map, WellFormed line) →
      ∃ text, encodeRepoIdLines map = .ok text ∧ (decodeRepoIdLines text = .ok map ↔ map.Named)) ∧
    (∀ map : RepoIds, (∃ fault, encodeRepoIdLines map = .error fault) ↔
      ∃ line ∈ repoIdLines map, ¬WellFormed line) ∧
    (∀ (encoded : Text) (map : RepoIds), decodeRepoIdLines encoded = .ok map →
      encodeRepoIdLines map = .ok (Text.join ['\n'] (sortBy id (blockLines encoded)))) ∧
    ∀ encoded : Text, (∃ fault, decodeRepoIdLines encoded = .error fault) ↔
      (∃ text ∈ blockLines encoded, ∀ line, WellFormed line → lineText line ≠ text) ∨
        ¬(blockLines encoded).Nodup := by
  refine ⟨fun map h => ?_, fun map => ?_, fun encoded map h => ?_, fun encoded => ?_⟩
  · refine ⟨_, encodeRepoIdLines_eq_ok_iff.mpr ⟨h, rfl⟩, ?_⟩
    rw [decodeRepoIdLines_encode h, Except.ok.injEq]
    constructor
    · intro heq
      rw [← heq]
      exact RepoIds.named_of_lines
    · intro hnamed
      exact RepoIds.named_of_lines.ext hnamed fun _ => mem_repoIdLines_of_lines
  · cases hencode : encodeRepoIdLines map with
    | ok text =>
      have hformed := (encodeRepoIdLines_eq_ok_iff.mp hencode).1
      simpa using hformed
    | error fault =>
      simp only [Except.error.injEq, exists_eq', true_iff]
      by_contra hformed
      push Not at hformed
      rw [encodeRepoIdLines_eq_ok_iff.mpr ⟨hformed, rfl⟩] at hencode
      cases hencode
  · obtain ⟨lines, hlines, htexts, hnodup, -, hmap⟩ := foldlM_decodeRepoIdLine_eq_ok_iff.mp h
    have hmem (line : Text × Text) : line ∈ repoIdLines map ↔ line ∈ lines := by
      rw [← hmap, mem_repoIdLines_of_lines]
    have hformed : ∀ line ∈ repoIdLines map, WellFormed line :=
      fun line hline => hlines line ((hmem line).mp hline)
    rw [encodeRepoIdLines_eq_ok_iff]
    refine ⟨hformed, congrArg _ ?_⟩
    -- Both are the lines in the order of their texts.
    have hperm : (repoIdLines map).Perm lines :=
      (perm_ext_iff_of_nodup (nodup_repoIdLines hformed) hnodup).mpr hmem
    have hsorted : sortBy id ((repoIdLines map).map lineText) = (repoIdLines map).map lineText :=
      sortBy_eq_self ((lineText_sorted hformed).imp le_of_lt)
    rw [← htexts, ← hsorted]
    exact sortBy_eq_of_perm (hperm.map lineText) fun a _ b _ heq => heq
  · cases hdecode : decodeRepoIdLines encoded with
    | ok map =>
      obtain ⟨hformed, hnodup⟩ := exists_decodeRepoIdLines_iff.mp ⟨map, hdecode⟩
      simp only [reduceCtorEq, exists_false, false_iff, not_or, not_not]
      refine ⟨?_, hnodup⟩
      rintro ⟨text, htext, hbad⟩
      obtain ⟨line, hline, heq⟩ := hformed text htext
      exact hbad line hline heq
    | error fault =>
      simp only [Except.error.injEq, exists_eq', true_iff]
      by_contra hgood
      push Not at hgood
      obtain ⟨map, hmap⟩ := exists_decodeRepoIdLines_iff.mpr
        ⟨fun text htext => (hgood.1 text htext).imp fun _ h => h, hgood.2⟩
      rw [hmap] at hdecode
      cases hdecode

end Raeva.Lock
