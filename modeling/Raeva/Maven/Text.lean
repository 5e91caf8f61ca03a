import Mathlib.Algebra.GroupWithZero.Nat
import Mathlib.Data.List.DropRight
import Mathlib.Data.List.Infix

/-!
# Texts

Strings as lists of characters, with the operations of the Rust standard
library that the modelled code uses.  Comparing such lists lexicographically
by code point is comparing the UTF-8 encodings byte by byte.
-/

namespace Raeva

open List

abbrev Text := List Char

instance : Coe String Text :=
  ⟨String.toList⟩

instance : LawfulBEq Text := inferInstance

/-- Unicode's lower-casing of a text, `str::to_lowercase`.  Its table is the
standard library's; what is proved depends on it at most through
`AsciiLowercase`. -/
class Lowercase where
  toLowercase : Text → Text

@[reducible] def asciiLowercase : Lowercase :=
  ⟨fun text => text.map Char.toLower⟩

/-- Unicode's table agrees with the ASCII one on ASCII texts. -/
class AsciiLowercase [Lowercase] : Prop where
  toLowercase_ascii : ∀ text : Text, (∀ c ∈ text, c.toNat < 128) →
    Lowercase.toLowercase text = text.map Char.toLower

namespace Text

def byteLen (t : Text) : ℕ :=
  (t.map fun c => c.utf8Size).sum

variable {t pat : Text} {c sep : Char} {parts parts' : List Text}
  {rest part before after a b s : Text}

theorem byteLen_append (s t : Text) : byteLen (s ++ t) = byteLen s + byteLen t := by
  simp [byteLen]

def isWhitespace (c : Char) : Bool :=
  let n := c.toNat
  (9 ≤ n && n ≤ 13) || n == 0x20 || n == 0x85 || n == 0xA0 || n == 0x1680 ||
    (0x2000 ≤ n && n ≤ 0x200A) || n == 0x2028 || n == 0x2029 || n == 0x202F ||
    n == 0x205F || n == 0x3000

def isAsciiDigit (c : Char) : Bool :=
  '0' ≤ c && c ≤ '9'

def trim (t : Text) : Text :=
  (t.dropWhile isWhitespace).rdropWhile isWhitespace

def startsWith (t pat : Text) : Bool :=
  pat.isPrefixOf t

def endsWith (t pat : Text) : Bool :=
  pat.isSuffixOf t

def stripPrefix (t pat : Text) : Option Text :=
  if pat.isPrefixOf t then some (t.drop pat.length) else none

def stripSuffix (t pat : Text) : Option Text :=
  if pat.isSuffixOf t then some (t.take (t.length - pat.length)) else none

def find (pat t : Text) : Option ℕ :=
  (List.range (t.length + 1)).find? fun i => pat.isPrefixOf (t.drop i)

def rfind (pat t : Text) : Option ℕ :=
  (List.range (t.length + 1)).reverse.find? fun i => pat.isPrefixOf (t.drop i)

def contains (t pat : Text) : Bool :=
  (find pat t).isSome

def eqIgnoreAsciiCase (a b : Text) : Bool :=
  a.map Char.toLower == b.map Char.toLower

def toAsciiLowercase (t : Text) : Text :=
  t.map Char.toLower

def ofNat (n : ℕ) : Text :=
  Nat.toDigits 10 n

def parseU32 (t : Text) : Option ℕ :=
  let digits := if t.head? = some '+' then t.tail else t
  if !digits.isEmpty && digits.all isAsciiDigit then
    let n := Nat.ofDigitChars 10 digits 0
    if n < 2 ^ 32 then some n else none
  else none

def split (t : Text) (sep : Char) : List Text :=
  t.splitOn sep

def join (sep : Text) (parts : List Text) : Text :=
  sep.intercalate parts

def splitOnce (t : Text) (sep : Char) : Option (Text × Text) :=
  let before := t.takeWhile (· ≠ sep)
  match t.dropWhile (· ≠ sep) with
  | [] => none
  | _ :: after => some (before, after)

theorem contains_of_isInfix (h : pat <:+: t) : contains t pat = true := by
  obtain ⟨before, after, rfl⟩ := h
  rw [contains, find, find?_isSome]
  refine ⟨before.length, mem_range.mpr ?_, ?_⟩
  · rw [length_append, length_append]
    omega
  rw [append_assoc, drop_left]
  exact isPrefixOf_iff_prefix.mpr ⟨after, rfl⟩

/-! ## Stripping -/

theorem stripPrefix_eq_some : stripPrefix t pat = some rest ↔ t = pat ++ rest := by
  rw [stripPrefix]
  constructor
  · intro h
    split at h
    · rename_i hpre
      cases h
      obtain ⟨rest, rfl⟩ := isPrefixOf_iff_prefix.mp hpre
      rw [drop_left]
    · cases h
  · rintro rfl
    have hpre : pat.isPrefixOf (pat ++ rest) = true := isPrefixOf_iff_prefix.mpr ⟨rest, rfl⟩
    rw [if_pos hpre, drop_left]

theorem stripPrefix_append (pat rest : Text) : stripPrefix (pat ++ rest) pat = some rest :=
  stripPrefix_eq_some.mpr rfl

theorem stripPrefix_nil (t : Text) : stripPrefix t [] = some t :=
  stripPrefix_append [] t

theorem stripPrefix_cons_cons (c d : Char) (t pat : Text) :
    stripPrefix (c :: t) (d :: pat) = if d = c then stripPrefix t pat else none := by
  by_cases h : d = c <;> simp [stripPrefix, h]

theorem stripPrefix_append_append (common t pat : Text) :
    stripPrefix (common ++ t) (common ++ pat) = stripPrefix t pat := by
  cases h : stripPrefix t pat with
  | some rest =>
    rw [stripPrefix_eq_some] at h ⊢
    rw [h, append_assoc]
  | none =>
    cases h' : stripPrefix (common ++ t) (common ++ pat) with
    | none => rfl
    | some rest =>
      rw [stripPrefix_eq_some, append_assoc, append_cancel_left_eq] at h'
      rw [stripPrefix_eq_some.mpr h'] at h
      cases h

theorem stripSuffix_eq_some : stripSuffix t pat = some rest ↔ t = rest ++ pat := by
  rw [stripSuffix]
  constructor
  · intro h
    split at h
    · rename_i hsuffix
      obtain ⟨before, rfl⟩ := isSuffixOf_iff_suffix.mp hsuffix
      simpa using h
    · cases h
  · rintro rfl
    rw [if_pos (isSuffixOf_iff_suffix.mpr (suffix_append _ _))]
    simp

/-! ## Trimming and splitting -/

theorem trim_isInfix (t : Text) : trim t <:+: t := by
  have hstart := rdropWhile_prefix isWhitespace (t.dropWhile isWhitespace)
  exact hstart.isInfix.trans (dropWhile_suffix _).isInfix

theorem mem_of_mem_trim (h : c ∈ trim t) : c ∈ t :=
  (trim_isInfix t).subset h

theorem trim_eq_self (hhead : ∀ c ∈ t.head?, isWhitespace c = false)
    (hlast : ∀ c ∈ t.getLast?, isWhitespace c = false) : trim t = t := by
  have hdrop : t.dropWhile isWhitespace = t := by
    cases t with
    | nil => rfl
    | cons c t => simp [hhead c rfl]
  rw [trim, hdrop, rdropWhile_eq_self_iff]
  intro hne
  have hend := hlast _ (getLast?_eq_some_getLast hne)
  simpa using hend

theorem head?_trim : ∀ c ∈ (trim t).head?, isWhitespace c = false := by
  intro c hc
  have hstart : trim t <+: t.dropWhile isWhitespace := rdropWhile_prefix _ _
  obtain ⟨rest, hrest⟩ := hstart
  have hhead : (t.dropWhile isWhitespace).head? = some c := by
    rw [← hrest, head?_append, hc]
    rfl
  have hnot := head?_dropWhile_not isWhitespace t
  rw [hhead] at hnot
  simpa using hnot

theorem getLast?_trim : ∀ c ∈ (trim t).getLast?, isWhitespace c = false := by
  intro c hc
  have hne : trim t ≠ [] := by
    rintro hnil
    rw [hnil] at hc
    cases hc
  have hnot := rdropWhile_last_not isWhitespace (t.dropWhile isWhitespace) hne
  have hlast : (trim t).getLast hne = c := by
    rw [getLast?_eq_some_getLast hne] at hc
    exact Option.some.inj hc
  rw [← hlast]
  exact Bool.not_eq_true _ ▸ hnot

@[simp] theorem trim_trim (t : Text) : trim (trim t) = trim t :=
  trim_eq_self head?_trim getLast?_trim

theorem rdropWhile_map (f : Char → Char) (p : Char → Bool) (t : Text) :
    (t.map f).rdropWhile p = (t.rdropWhile (p ∘ f)).map f := by
  rw [List.rdropWhile, List.rdropWhile, ← map_reverse, dropWhile_map, map_reverse]

theorem toLower_cases (c : Char) :
    c.toLower = c ∨ 65 ≤ c.toNat ∧ c.toNat ≤ 90 ∧ c.toLower.toNat = c.toNat + 32 := by
  unfold Char.toLower
  split
  · rename_i hupper
    right
    simp only [Char.toNat]
    have hlow := UInt32.le_iff_toNat_le.mp hupper.1
    have hhigh := UInt32.le_iff_toNat_le.mp hupper.2
    have hA : 'A'.val.toNat = 65 := rfl
    have hZ : 'Z'.val.toNat = 90 := rfl
    have hshift : ('a'.val - 'A'.val).toNat = 32 := rfl
    refine ⟨by omega, by omega, ?_⟩
    rw [UInt32.toNat_add, hshift]
    omega
  · exact .inl rfl

theorem isWhitespace_eq_false (hlow : 0x20 < c.toNat) (hhigh : c.toNat < 0x80) :
    isWhitespace c = false := by
  simp only [isWhitespace, Bool.or_eq_false_iff, Bool.and_eq_false_iff, decide_eq_false_iff_not,
    beq_eq_false_iff_ne]
  omega

theorem isWhitespace_toLower (c : Char) : isWhitespace c.toLower = isWhitespace c := by
  rcases toLower_cases c with hsame | ⟨hlow, hhigh, hlower⟩
  · rw [hsame]
  · rw [isWhitespace_eq_false (by omega) (by omega), isWhitespace_eq_false (by omega) (by omega)]

theorem trim_toAsciiLowercase (t : Text) :
    trim (toAsciiLowercase t) = toAsciiLowercase (trim t) := by
  have hspace : isWhitespace ∘ Char.toLower = isWhitespace := funext isWhitespace_toLower
  rw [trim, trim, toAsciiLowercase, toAsciiLowercase, dropWhile_map, hspace, rdropWhile_map, hspace]

@[simp] theorem toAsciiLowercase_idem (t : Text) :
    toAsciiLowercase (toAsciiLowercase t) = toAsciiLowercase t := by
  rw [toAsciiLowercase, toAsciiLowercase, map_map]
  refine map_congr_left fun c _ => ?_
  rcases toLower_cases c with hsame | ⟨hlow, hhigh, hlower⟩
  · simp [hsame]
  · rcases toLower_cases c.toLower with hsame | ⟨hlow', hhigh', -⟩
    · exact hsame
    · omega

/-- A part between separators holds no separator and only characters of the
text. -/
theorem mem_split (h : part ∈ split t sep) : sep ∉ part ∧ ∀ c ∈ part, c ∈ t := by
  have key : ∀ (t part : Text), part ∈ t.splitOnP (· == sep) → sep ∉ part ∧ ∀ c ∈ part, c ∈ t := by
    intro t
    induction t with
    | nil =>
      intro part hpart
      rw [splitOnP_nil, mem_singleton] at hpart
      subst hpart
      simp
    | cons c t ih =>
      intro part hpart
      rw [splitOnP_cons_eq_if_modifyHead] at hpart
      split at hpart
      · rcases mem_cons.mp hpart with rfl | hpart
        · simp
        · obtain ⟨hsep, hsub⟩ := ih part hpart
          exact ⟨hsep, fun d hd => mem_cons_of_mem c (hsub d hd)⟩
      rename_i hc
      cases hsplit : t.splitOnP (· == sep) with
      | nil => simp [hsplit] at hpart
      | cons first rest =>
        rw [hsplit, modifyHead_cons] at hpart
        rcases mem_cons.mp hpart with rfl | hpart
        · obtain ⟨hsep, hsub⟩ := ih first (by simp [hsplit])
          refine ⟨?_, fun d hd => ?_⟩
          · intro hmem
            rcases mem_cons.mp hmem with rfl | hmem
            · simp at hc
            · exact hsep hmem
          · rcases mem_cons.mp hd with rfl | hd
            · exact mem_cons_self
            · exact mem_cons_of_mem c (hsub d hd)
        · obtain ⟨hsep, hsub⟩ := ih part (by simp [hsplit, hpart])
          exact ⟨hsep, fun d hd => mem_cons_of_mem c (hsub d hd)⟩
  exact key t part h

theorem splitOnce_eq (h : splitOnce t sep = some (before, after)) :
    t = before ++ sep :: after ∧ sep ∉ before := by
  rw [splitOnce] at h
  split at h
  · cases h
  rename_i c rest hdrop
  cases h
  obtain rfl : c = sep := by
    have := head?_dropWhile_not (fun d : Char => decide (d ≠ sep)) t
    rw [hdrop] at this
    simpa using this
  refine ⟨?_, fun hmem => ?_⟩
  · rw [← hdrop, takeWhile_append_dropWhile]
  · have := mem_takeWhile_imp hmem
    simp at this

theorem splitOnce_append (h : sep ∉ before) :
    splitOnce (before ++ sep :: after) sep = some (before, after) := by
  have hbefore : ∀ c ∈ before, decide (c ≠ sep) = true := by
    intro c hc
    simpa using fun heq : c = sep => h (heq ▸ hc)
  rw [splitOnce, takeWhile_append_of_pos hbefore, dropWhile_append_of_pos hbefore]
  simp

theorem splitOnce_eq_none : splitOnce t sep = none ↔ sep ∉ t := by
  constructor
  · intro h hmem
    obtain ⟨before, after, rfl, hbefore⟩ := eq_append_cons_of_mem hmem
    rw [splitOnce_append hbefore] at h
    cases h
  · intro h
    cases hsplit : splitOnce t sep with
    | none => rfl
    | some parts =>
      obtain ⟨rfl, -⟩ := splitOnce_eq hsplit
      exact absurd (by simp) h

theorem span_inj {p : Char → Bool} {x y : Char} (ha : ∀ c ∈ a, p c = true)
    (hb : ∀ c ∈ b, p c = true) (hx : p x = false) (hy : p y = false)
    (h : a ++ x :: s = b ++ y :: t) : a = b ∧ x = y ∧ s = t := by
  induction a generalizing b with
  | nil =>
    cases b with
    | nil => simpa using h
    | cons c b =>
      have hc := hb c mem_cons_self
      simp only [nil_append, cons_append, List.cons.injEq] at h
      rw [h.1, hc] at hx
      cases hx
  | cons c a ih =>
    cases b with
    | nil =>
      have hc := ha c mem_cons_self
      simp only [nil_append, cons_append, List.cons.injEq] at h
      rw [← h.1, hc] at hy
      cases hy
    | cons d b =>
      simp only [cons_append, List.cons.injEq] at h
      obtain ⟨hab, hxy, hst⟩ := ih (fun e he => ha e (mem_cons_of_mem c he))
        (fun e he => hb e (mem_cons_of_mem d he)) h.2
      exact ⟨by rw [h.1, hab], hxy, hst⟩

theorem cut_inj (ha : c ∉ a) (hb : c ∉ b) (h : a ++ c :: s = b ++ c :: t) : a = b ∧ s = t := by
  have hne : ∀ a : Text, c ∉ a → ∀ d ∈ a, (d != c) = true := by
    intro a ha d hd
    exact bne_iff_ne.mpr fun hdc => ha (hdc ▸ hd)
  obtain ⟨hab, -, hst⟩ := span_inj (hne a ha) (hne b hb) (by simp) (by simp) h
  exact ⟨hab, hst⟩

/-! ## Joining -/

theorem join_inj (hsep : ∀ part ∈ parts, sep ∉ part) (hsep' : ∀ part ∈ parts', sep ∉ part)
    (hne : parts ≠ []) (hne' : parts' ≠ []) (h : join [sep] parts = join [sep] parts') :
    parts = parts' := by
  rw [← splitOn_intercalate sep hsep hne, ← splitOn_intercalate sep hsep' hne']
  exact congrArg (List.splitOn sep) h

theorem join_append {rest : List Text} (hparts : parts ≠ []) (hrest : rest ≠ []) :
    join [sep] (parts ++ rest) = join [sep] parts ++ sep :: join [sep] rest := by
  induction parts with
  | nil => exact absurd rfl hparts
  | cons part parts ih =>
    cases parts with
    | nil =>
      rw [singleton_append, join, intercalate_cons_of_ne_nil hrest]
      simp [join]
    | cons next parts =>
      have htail := ih (cons_ne_nil next parts)
      rw [cons_append] at htail ⊢
      simp only [join, cons_append, intercalate_cons_cons] at htail ⊢
      rw [htail]
      simp

theorem map_join (f : Char → Char) (sep : Char) (parts : List Text) :
    (join [sep] parts).map f = join [f sep] (parts.map (List.map f)) := by
  induction parts with
  | nil => rfl
  | cons part parts ih =>
    cases parts with
    | nil => simp [join]
    | cons next parts =>
      simp only [join, map_cons, intercalate_cons_cons, map_append, map_nil] at ih ⊢
      rw [ih]

theorem split_ne_nil (t : Text) (sep : Char) : split t sep ≠ [] := by
  intro hnil
  have hjoin : join [sep] (split t sep) = t := intercalate_splitOn sep
  have hself : split t sep = [[]] := by
    rw [hnil] at hjoin
    rw [← hjoin]
    exact splitOn_nil sep
  rw [hself] at hnil
  cases hnil

theorem nil_mem_split (h : [] ∈ split t sep) :
    t = [] ∨ [sep] <+: t ∨ [sep] <:+ t ∨ [sep, sep] <:+: t := by
  have hjoin : join [sep] (split t sep) = t := intercalate_splitOn sep
  obtain ⟨before, after, hsplit⟩ := append_of_mem h
  rw [hsplit] at hjoin
  by_cases hbefore : before = []
  · subst hbefore
    by_cases hafter : after = []
    · subst hafter
      exact .inl hjoin.symm
    · rw [nil_append, join, intercalate_cons_of_ne_nil hafter] at hjoin
      exact .inr (.inl ⟨_, hjoin⟩)
  · rw [join_append hbefore (cons_ne_nil _ _)] at hjoin
    by_cases hafter : after = []
    · subst hafter
      exact .inr (.inr (.inl ⟨_, hjoin⟩))
    rw [join, join, intercalate_cons_of_ne_nil hafter] at hjoin
    refine .inr (.inr (.inr ⟨join [sep] before, join [sep] after, ?_⟩))
    rw [← hjoin]
    simp [join]

theorem join_cons_cons_ne {next : Text} : join [sep] (part :: next :: parts) ≠ [] := by
  simp [join, intercalate_cons_cons]

theorem join_eq_nil (hparts : ∀ part ∈ parts, part ≠ []) (h : join [sep] parts = []) :
    parts = [] := by
  cases parts with
  | nil => rfl
  | cons part parts =>
    have hpart := hparts part mem_cons_self
    cases parts with
    | nil => exact absurd (by simpa [join] using h) hpart
    | cons next parts => exact absurd h join_cons_cons_ne

theorem lines_inj (hparts : ∀ part ∈ parts, part ≠ [] ∧ sep ∉ part)
    (hparts' : ∀ part ∈ parts', part ≠ [] ∧ sep ∉ part) (h : join [sep] parts = join [sep] parts') :
    parts = parts' := by
  by_cases hne : parts = []
  · subst hne
    exact (join_eq_nil (fun part hpart => (hparts' part hpart).1) h.symm).symm
  by_cases hne' : parts' = []
  · subst hne'
    exact absurd (join_eq_nil (fun part hpart => (hparts part hpart).1) h) hne
  · exact join_inj (fun part hpart => (hparts part hpart).2)
      (fun part hpart => (hparts' part hpart).2) hne hne' h

theorem mem_join (h : c ∈ join [sep] parts) : c = sep ∨ ∃ part ∈ parts, c ∈ part := by
  induction parts with
  | nil => simp [join] at h
  | cons part parts ih =>
    cases parts with
    | nil =>
      have hc : c ∈ part := by simpa [join] using h
      exact .inr ⟨part, mem_singleton_self part, hc⟩
    | cons next parts =>
      rw [join, intercalate_cons_cons, mem_append, mem_append, mem_singleton] at h
      rcases h with (hc | hc) | hc
      · exact .inr ⟨part, mem_cons_self, hc⟩
      · exact .inl hc
      · rcases ih hc with hsep | ⟨other, hother, hmem⟩
        · exact .inl hsep
        · exact .inr ⟨other, mem_cons_of_mem part hother, hmem⟩

theorem rdropWhile_isEmpty_inj (hlength : parts.length = parts'.length)
    (h : parts.rdropWhile List.isEmpty = parts'.rdropWhile List.isEmpty) : parts = parts' := by
  have hpadded : ∀ parts : List Text, parts = parts.rdropWhile List.isEmpty ++
      List.replicate (parts.length - (parts.rdropWhile List.isEmpty).length) [] := by
    intro parts
    have hsplit : parts.rdropWhile List.isEmpty ++ parts.rtakeWhile List.isEmpty = parts :=
      rdropWhile_append_rtakeWhile
    have hlength := congrArg List.length hsplit
    rw [length_append] at hlength
    have hempty : parts.rtakeWhile List.isEmpty =
        List.replicate (parts.rtakeWhile List.isEmpty).length [] :=
      eq_replicate_iff.mpr ⟨rfl, fun part hpart =>
        List.isEmpty_iff.mp (mem_rtakeWhile_imp hpart)⟩
    nth_rewrite 1 [← hsplit, hempty]
    congr 2
    omega
  rw [hpadded parts, hpadded parts', h, hlength]

theorem ofNat_injective : Function.Injective ofNat := by
  intro m n h
  have hread : ∀ k, Nat.ofDigitChars 10 (ofNat k) 0 = k := fun k =>
    Nat.ofDigitChars_toDigits (by decide) (by decide)
  rw [← hread m, h, hread n]

theorem ofNat_ne_nil (n : ℕ) : ofNat n ≠ [] := by
  intro h
  have hlength : 0 < (ofNat n).length := Nat.length_toDigits_pos
  rw [h] at hlength
  exact Nat.lt_irrefl 0 hlength

theorem isDigit_of_mem_ofNat {n : ℕ} (h : c ∈ ofNat n) : c.isDigit = true :=
  Nat.isDigit_of_mem_toDigits (by decide) (by decide) h

end Text

end Raeva
