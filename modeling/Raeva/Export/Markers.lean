import Mathlib.Data.Finset.Dedup
import Raeva.Library.Utf16
import Raeva.Maven.SnapshotRoundTrip
import Raeva.Model.Paths

/-!
# Marker files of an exported directory

`_remote.repositories` has one line per file and repository id, both escaped as
the keys of Java's properties files.  The reader splits a line at its last `>`
before it undoes the escapes, so an id may not hold that character.
-/

namespace Raeva.Export

open List
open Model (upperHexDigit)

/-- `str::lines`. -/
def lines : Text → List Text
  | [] => []
  | c :: t =>
    if c = '\n' then [] :: lines t
    else if c = '\r' ∧ t.head? = some '\n' then lines t
    else
      match lines t with
      | [] => [[c]]
      | line :: rest => (c :: line) :: rest

def hexValue (c : Char) : Option ℕ :=
  if '0' ≤ c ∧ c ≤ '9' then some (c.toNat - 48)
  else if 'a' ≤ c ∧ c ≤ 'f' then some (c.toNat - 87)
  else if 'A' ≤ c ∧ c ≤ 'F' then some (c.toNat - 55)
  else none

/-- `u16::from_str_radix` in base 16, which takes a sign. -/
def parseHex16 (text : Text) : Option ℕ := do
  let digits := if text.head? = some '+' then text.tail else text
  let values ← digits.mapM hexValue
  let value := values.foldl (16 * · + ·) 0
  if values ≠ [] ∧ value < 2 ^ 16 then some value else none

def hex4 (unit : ℕ) : Text :=
  [unit / 4096, unit / 256 % 16, unit / 16 % 16, unit % 16].map upperHexDigit

def escapePropertiesChar (c : Char) : Text :=
  if c = '\\' then "\\\\"
  else if "=:#!> ".toList.elem c then ['\\', c]
  else if c = '\t' then "\\t"
  else if c = '\n' then "\\n"
  else if c = '\r' then "\\r"
  else if c = Char.ofNat 0xC then "\\f"
  else if ' ' ≤ c ∧ c ≤ '~' then [c]
  else (Utf16.units c).flatMap fun unit => '\\' :: 'u' :: hex4 unit

def escapePropertiesKey (key : Text) : Text :=
  key.flatMap escapePropertiesChar

/-- The units of an escaped key; `skip` characters belong to the escape before. -/
def unescapedUnits : ℕ → Text → List ℕ
  | _, [] => []
  | skip + 1, _ :: rest => unescapedUnits skip rest
  | 0, c :: rest =>
    if c = '\\' then
      match rest with
      | [] => Utf16.units '\\'
      | e :: after =>
        if e = 'u' then
          let hex := after.take 4
          let units := match parseHex16 hex with
            | some unit => if Text.byteLen hex = 4 then [unit] else Utf16.encode ("\\u" ++ hex)
            | none => Utf16.encode ("\\u" ++ hex)
          units ++ unescapedUnits 5 rest
        else
          let plain := if e = 't' then '\t' else if e = 'n' then '\n' else if e = 'r' then '\r'
            else if e = 'f' then Char.ofNat 0xC else e
          Utf16.units plain ++ unescapedUnits 1 rest
    else Utf16.units c ++ unescapedUnits 0 rest

def unescapePropertiesKey (key : Text) : Text :=
  Utf16.decodeLossy (unescapedUnits 0 key)

def parseEntry (line : Text) : Option (Text × Text) := do
  let line := Text.trim line
  if line = [] ∨ line.head? = some '#' then none
  let body ← Text.stripSuffix line ['=']
  let (before, after) ← Text.rsplitOnce body '>'
  let filename := unescapePropertiesKey before
  if filename = [] then none
  some (filename, unescapePropertiesKey after)

def parseRemoteRepositories (contents : Text) : Finset (Text × Text) :=
  ((lines contents).filterMap parseEntry).toFinset

def noteLine : Text :=
  ("#NOTE: This is a Maven Resolver internal implementation file, " ++
    "its format can be changed without prior notice.").toList

def dateLine : Text :=
  "#Thu Jan 01 00:00:00 UTC 1970"

def entryLine (entry : Text × Text) : Text :=
  escapePropertiesKey entry.1 ++ '>' :: escapePropertiesKey entry.2 ++ ['=']

def renderRemoteRepositories (entries : List (Text × Text)) : Text :=
  noteLine ++ '\n' :: dateLine ++ '\n' :: entries.flatMap fun entry => entryLine entry ++ ['\n']

/-! ## Escapes -/

variable {c d : Char} {unit : ℕ} {entries : List (Text × Text)}

theorem parseHex16_hex4 (h : unit < 2 ^ 16) : parseHex16 (hex4 unit) = some unit := by
  have hvalue : ∀ d < 16, hexValue (upperHexDigit d) = some d := by decide
  have hplus : ∀ d < 16, upperHexDigit d ≠ '+' := by decide
  have hhead : (hex4 unit).head? ≠ some '+' := by
    simpa [hex4] using hplus (unit / 4096) (by omega)
  have hsum : 16 * (16 * (16 * (unit / 4096) + unit / 256 % 16) + unit / 16 % 16) + unit % 16 =
      unit := by omega
  rw [parseHex16, if_neg hhead]
  simp [hex4, hvalue (unit / 4096) (by omega), hvalue (unit / 256 % 16) (Nat.mod_lt _ (by decide)),
    hvalue (unit / 16 % 16) (Nat.mod_lt _ (by decide)),
    hvalue (unit % 16) (Nat.mod_lt _ (by decide)), hsum]
  exact h

theorem byteLen_hex4 (unit : ℕ) (h : unit < 2 ^ 16) : Text.byteLen (hex4 unit) = 4 := by
  have hsize : ∀ d < 16, (upperHexDigit d).utf8Size = 1 := by decide
  simp [hex4, Text.byteLen, hsize (unit / 4096) (by omega), hsize (unit / 256 % 16) (by omega),
    hsize (unit / 16 % 16) (by omega), hsize (unit % 16) (by omega)]

theorem unescapedUnits_hex4 (h : unit < 2 ^ 16) (rest : Text) :
    unescapedUnits 0 ('\\' :: 'u' :: hex4 unit ++ rest) = unit :: unescapedUnits 0 rest := by
  have htake : (hex4 unit ++ rest).take 4 = hex4 unit := rfl
  have hskip : unescapedUnits 5 ('u' :: hex4 unit ++ rest) = unescapedUnits 0 rest := rfl
  rw [cons_append, unescapedUnits.eq_def]
  simp only [cons_append, if_pos, htake, parseHex16_hex4 h, byteLen_hex4 unit h]
  exact congrArg _ hskip

theorem units_lt (c : Char) : ∀ unit ∈ Utf16.units c, unit < 2 ^ 16 := by
  have hc := Utf16.toNat_cases c
  intro unit hunit
  rw [Utf16.units] at hunit
  split at hunit <;> simp at hunit <;> omega

theorem unescapedUnits_escape_units {units : List ℕ} (h : ∀ unit ∈ units, unit < 2 ^ 16)
    (rest : Text) :
    unescapedUnits 0 ((units.flatMap fun unit => '\\' :: 'u' :: hex4 unit) ++ rest) =
      units ++ unescapedUnits 0 rest := by
  induction units with
  | nil => rfl
  | cons unit units ih =>
    rw [flatMap_cons, append_assoc, unescapedUnits_hex4 (h unit mem_cons_self),
      ih fun u hu => h u (mem_cons_of_mem unit hu)]
    rfl

theorem special_cases {c : Char} (h : "=:#!> ".toList.elem c = true) :
    c = '=' ∨ c = ':' ∨ c = '#' ∨ c = '!' ∨ c = '>' ∨ c = ' ' := by
  simpa using h

theorem unescapedUnits_escapeChar (c : Char) (rest : Text) :
    unescapedUnits 0 (escapePropertiesChar c ++ rest) = Utf16.units c ++ unescapedUnits 0 rest := by
  rw [escapePropertiesChar]
  split_ifs with hslash hspecial htab hline hreturn hfeed hplain
  · rw [hslash]
    rfl
  · rcases special_cases hspecial with rfl | rfl | rfl | rfl | rfl | rfl <;> rfl
  · rw [htab]
    rfl
  · rw [hline]
    rfl
  · rw [hreturn]
    rfl
  · rw [hfeed]
    rfl
  · rw [singleton_append, unescapedUnits.eq_def]
    exact if_neg hslash
  · exact unescapedUnits_escape_units (units_lt c) rest

theorem unescape_escape (key : Text) : unescapePropertiesKey (escapePropertiesKey key) = key := by
  have hunits : unescapedUnits 0 (escapePropertiesKey key) = Utf16.encode key := by
    induction key with
    | nil => rfl
    | cons c key ih =>
      rw [escapePropertiesKey, flatMap_cons, unescapedUnits_escapeChar, ← escapePropertiesKey, ih]
      rfl
  rw [unescapePropertiesKey, hunits, Utf16.decodeLossy_encode]

/-! ## Lines -/

theorem lines_append {line : Text} (hline : '\n' ∉ line) (hreturn : '\r' ∉ line) (rest : Text) :
    lines (line ++ '\n' :: rest) = line :: lines rest := by
  induction line with
  | nil => simp [lines]
  | cons c line ih =>
    rw [mem_cons, not_or] at hline hreturn
    rw [cons_append, lines, if_neg (Ne.symm hline.1), if_neg fun h => hreturn.1 h.1.symm,
      ih hline.2 hreturn.2]

theorem lines_flatMap {parts : List Text} (h : ∀ part ∈ parts, '\n' ∉ part ∧ '\r' ∉ part) :
    lines (parts.flatMap (· ++ ['\n'])) = parts := by
  induction parts with
  | nil => rfl
  | cons part parts ih =>
    obtain ⟨hpart, hparts⟩ := forall_mem_cons.mp h
    rw [flatMap_cons, append_assoc, singleton_append, lines_append hpart.1 hpart.2, ih hparts]

/-- No escape holds a line end, and only the separator's holds the separator. -/
theorem mem_escapeChar (h : d ∈ escapePropertiesChar c) :
    d = '>' ∧ c = '>' ∨ d ≠ '\n' ∧ d ≠ '\r' ∧ d ≠ '>' := by
  have hletter : ∀ {e : Char}, d ∈ ['\\', e] → e ∈ "\\tnrf".toList →
      d ≠ '\n' ∧ d ≠ '\r' ∧ d ≠ '>' := by
    intro e hd he
    have hall : ∀ e ∈ "\\tnrf".toList, e ≠ '\n' ∧ e ≠ '\r' ∧ e ≠ '>' := by simp
    rcases mem_pair.mp hd with rfl | rfl
    · decide
    · exact hall d he
  have hhex :
      ∀ k < 16, upperHexDigit k ≠ '\n' ∧ upperHexDigit k ≠ '\r' ∧ upperHexDigit k ≠ '>' := by
    decide
  rw [escapePropertiesChar] at h
  split_ifs at h with hslash hspecial htab hline hreturn hfeed hplain
  · exact .inr (hletter h (by decide))
  · rcases mem_pair.mp h with rfl | rfl
    · exact .inr (by decide)
    · rcases special_cases hspecial with rfl | rfl | rfl | rfl | rfl | rfl <;> decide
  · exact .inr (hletter h (by decide))
  · exact .inr (hletter h (by decide))
  · exact .inr (hletter h (by decide))
  · exact .inr (hletter h (by decide))
  · obtain rfl := mem_singleton.mp h
    have hsep : d ≠ '>' := by
      rintro rfl
      exact hspecial rfl
    exact .inr ⟨hline, hreturn, hsep⟩
  · obtain ⟨unit, hunit, hd⟩ := mem_flatMap.mp h
    have hlt := units_lt c unit hunit
    rcases mem_cons.mp hd with rfl | hd
    · exact .inr (by decide)
    rcases mem_cons.mp hd with rfl | hd
    · exact .inr (by decide)
    obtain ⟨k, hk, rfl⟩ := mem_map.mp hd
    refine .inr (hhex k ?_)
    simp only [mem_cons, not_mem_nil, or_false] at hk
    omega

theorem mem_escape {key : Text} (h : d ∈ escapePropertiesKey key) :
    d ≠ '\n' ∧ d ≠ '\r' ∧ (d = '>' → '>' ∈ key) := by
  obtain ⟨c, hc, hd⟩ := mem_flatMap.mp h
  rcases mem_escapeChar hd with ⟨rfl, rfl⟩ | ⟨hline, hreturn, hsep⟩
  · exact ⟨by decide, by decide, fun _ => hc⟩
  · exact ⟨hline, hreturn, fun heq => absurd heq hsep⟩

theorem escapeChar_head (c : Char) :
    ∃ d rest, escapePropertiesChar c = d :: rest ∧ d ≠ '#' ∧ Text.isWhitespace d = false := by
  have hslash : '\\' ≠ '#' ∧ Text.isWhitespace '\\' = false := by decide
  rw [escapePropertiesChar]
  split_ifs with hc hspecial htab hline hreturn hfeed hplain
  iterate 6 exact ⟨_, _, rfl, hslash⟩
  · have hne : c ≠ '#' ∧ c ≠ ' ' := by
      constructor <;> rintro rfl <;> exact hspecial rfl
    have hlow : ' '.toNat ≤ c.toNat := hplain.1
    have hhigh : c.toNat ≤ '~'.toNat := hplain.2
    have hgap : c.toNat ≠ ' '.toNat := fun heq => hne.2 (Char.toNat_inj.mp heq)
    have hspace : ' '.toNat = 0x20 := rfl
    have htilde : '~'.toNat = 0x7E := rfl
    exact ⟨c, [], rfl, hne.1, Text.isWhitespace_eq_false (by omega) (by omega)⟩
  · rw [Utf16.units]
    split <;> exact ⟨_, _, rfl, hslash⟩

/-! ## What a line is read as -/

theorem parseEntry_line {name last : Text} (before : Text) (hlast : '>' ∉ last)
    (hline : escapePropertiesChar c ++ name = before ++ '>' :: escapePropertiesKey last) :
    parseEntry (escapePropertiesChar c ++ name ++ ['=']) =
      if unescapePropertiesKey before = [] then none
      else some (unescapePropertiesKey before, last) := by
  obtain ⟨d, rest, hd, hhash, hspace⟩ := escapeChar_head c
  have htrim : Text.trim (escapePropertiesChar c ++ name ++ ['=']) =
      escapePropertiesChar c ++ name ++ ['='] := by
    refine Text.trim_eq_self ?_ ?_
    · simpa [hd] using hspace
    · simp
      decide
  have hsplit : Text.rsplitOnce (escapePropertiesChar c ++ name) '>' =
      some (before, escapePropertiesKey last) := by
    rw [hline]
    exact Text.rsplitOnce_append fun hmem => hlast ((mem_escape hmem).2.2 rfl)
  have hstart : ¬(escapePropertiesChar c ++ name ++ ['='] = [] ∨
      (escapePropertiesChar c ++ name ++ ['=']).head? = some '#') := by
    simpa [hd] using hhash
  rw [parseEntry, htrim, if_neg hstart, Text.stripSuffix_eq_some.mpr rfl]
  simp only [hsplit, unescape_escape, Option.bind_eq_bind, Option.bind_some]
  split <;> rfl

/-- A line names its entry, unless the id holds the separator; then it names one
whose id does not. -/
theorem parseEntry_entryLine {entry : Text × Text} (hname : entry.1 ≠ []) :
    ('>' ∉ entry.2 → parseEntry (entryLine entry) = some entry) ∧
      ∀ read, parseEntry (entryLine entry) = some read → '>' ∉ read.2 := by
  obtain ⟨name, id⟩ := entry
  obtain ⟨c, rest, rfl⟩ := exists_cons_of_ne_nil hname
  have hline : entryLine (c :: rest, id) =
      escapePropertiesChar c ++ (escapePropertiesKey rest ++ '>' :: escapePropertiesKey id) ++
        ['='] := by
    simp [entryLine, escapePropertiesKey]
  rw [hline]
  by_cases hsep : '>' ∈ id
  · refine ⟨fun h => absurd hsep h, fun read hread => ?_⟩
    -- The line is split at the last separator of the id.
    obtain ⟨after, before, hid, hafter⟩ := eq_append_cons_of_mem (mem_reverse.mpr hsep)
    obtain rfl : id = before.reverse ++ '>' :: after.reverse := by
      simpa using congrArg List.reverse hid
    have hlast : '>' ∉ after.reverse := by simpa using hafter
    rw [parseEntry_line (escapePropertiesKey (c :: rest) ++ '>' ::
      escapePropertiesKey before.reverse ++ ['\\']) hlast
      (by simp [escapePropertiesKey, escapePropertiesChar])] at hread
    split at hread
    · cases hread
    · cases hread
      exact hlast
  · have hread := parseEntry_line (c := c) (escapePropertiesKey (c :: rest)) hsep
      (append_assoc _ _ _).symm
    rw [unescape_escape, if_neg hname] at hread
    exact ⟨fun _ => hread, fun read h => by cases hread.symm.trans h; exact hsep⟩

theorem lines_render :
    lines (renderRemoteRepositories entries) = noteLine :: dateLine :: entries.map entryLine := by
  have hparts : renderRemoteRepositories entries =
      (noteLine :: dateLine :: entries.map entryLine).flatMap (· ++ ['\n']) := by
    simp [renderRemoteRepositories, flatMap_map]
  rw [hparts]
  refine lines_flatMap fun part hpart => ?_
  rcases mem_cons.mp hpart with rfl | hpart
  · decide +kernel
  rcases mem_cons.mp hpart with rfl | hpart
  · decide +kernel
  obtain ⟨entry, -, rfl⟩ := mem_map.mp hpart
  have hescape : ∀ (key : Text) {d : Char}, d = '\n' ∨ d = '\r' → d ∉ escapePropertiesKey key := by
    intro key d hd hmem
    have hne := mem_escape hmem
    tauto
  simp [entryLine, hescape]

theorem mem_parse_render {read : Text × Text} :
    read ∈ parseRemoteRepositories (renderRemoteRepositories entries) ↔
      ∃ entry ∈ entries, parseEntry (entryLine entry) = some read := by
  have hnote : parseEntry noteLine = none := by decide +kernel
  have hdate : parseEntry dateLine = none := by decide +kernel
  simp [parseRemoteRepositories, lines_render, hnote, hdate]

/-- Reading a written file gives the entries back exactly when no repository id
holds the separator. -/
theorem parse_render_eq_iff (entries : List (Text × Text))
    (hnames : ∀ entry ∈ entries, entry.1 ≠ []) :
    parseRemoteRepositories (renderRemoteRepositories entries) = entries.toFinset ↔
      ∀ entry ∈ entries, '>' ∉ entry.2 := by
  constructor
  · intro h entry hentry
    obtain ⟨written, hwritten, hread⟩ :=
      mem_parse_render.mp (h ▸ mem_toFinset.mpr hentry)
    exact (parseEntry_entryLine (hnames written hwritten)).2 entry hread
  · intro hids
    have hread : ∀ entry ∈ entries, parseEntry (entryLine entry) = some entry := fun entry hentry =>
      (parseEntry_entryLine (hnames entry hentry)).1 (hids entry hentry)
    ext read
    rw [mem_parse_render, mem_toFinset]
    constructor
    · rintro ⟨entry, hentry, h⟩
      cases (hread entry hentry).symm.trans h
      exact hentry
    · exact fun hentry => ⟨read, hentry, hread read hentry⟩

theorem parse_render_escaped_id :
    parseRemoteRepositories (renderRemoteRepositories [("a b.jar", "x=é")]) =
      [("a b.jar".toList, "x=é".toList)].toFinset :=
  (parse_render_eq_iff [("a b.jar", "x=é")] (by decide)).mpr (by decide)

theorem parse_render_separator_in_id :
    parseRemoteRepositories (renderRemoteRepositories [("a.jar", "x>y")]) =
        [("a.jar>x\\".toList, "y".toList)].toFinset ∧
      parseRemoteRepositories (renderRemoteRepositories [("a.jar", "x>y")]) ≠
        [("a.jar".toList, "x>y".toList)].toFinset := by
  decide +kernel

end Raeva.Export
