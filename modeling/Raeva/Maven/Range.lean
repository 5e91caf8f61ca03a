import Raeva.Library.Attempt
import Raeva.Maven.Version

/-!
# Version requirements

`VersionRange` and `VersionReq` of `rv-maven-types`.  The versions a bracketed
requirement names hold no comma and no closing bracket, so the text a
requirement is displayed as determines it.
-/

namespace Raeva

open List

structure VersionRange where
  lower : Option Version
  upper : Option Version
  includeLower : Bool
  includeUpper : Bool
  deriving DecidableEq

inductive VersionReq where
  | exact (version : Version)
  | soft (version : Version)
  | ranges (ranges : List VersionRange)
  deriving DecidableEq

def isOpening (c : Char) : Bool :=
  c == '[' || c == '('

def isClosing (c : Char) : Bool :=
  c == ']' || c == ')'

namespace VersionRange

def inner (trimmed : Text) : Option Text :=
  match trimmed with
  | [] => none
  | first :: rest =>
    if isOpening first && rest.getLast?.any isClosing then some rest.dropLast else none

def bound (range text : Text) : Except VersionError (Option Version) :=
  let text := Text.trim text
  if text.isEmpty then .ok none
  else
    match Version.parse text with
    | .ok version => .ok (some version)
    | .error _ => .error (.invalidRange range)

/-- The `P.` of a trimmed `P.*`. -/
def starPart (exact : Text) : Option Text :=
  if Text.endsWith exact ".*" then some exact.dropLast else none

variable [Lowercase]

def parse (s : Text) : Except VersionError VersionRange :=
  let trimmed := Text.trim s
  let includeLower := Text.startsWith trimmed "["
  let includeUpper := Text.endsWith trimmed "]"
  match inner trimmed with
  | none => .error (.invalidRange trimmed)
  | some inner =>
    match Text.split inner ',' with
    | [lower, upper] => do
        let lower ← bound trimmed lower
        let upper ← bound trimmed upper
        match lower, upper with
        | some l, some u =>
          if (l.cmp u).isGT then .error (.invalidRange trimmed)
          else .ok { lower, upper, includeLower, includeUpper }
        | _, _ => .ok { lower, upper, includeLower, includeUpper }
    | [exact] =>
      if includeLower && includeUpper then
        match starPart (Text.trim exact) with
        | some part => do
            let lower ← bound trimmed (part ++ "min")
            let upper ← bound trimmed (part ++ "max")
            .ok { lower, upper, includeLower, includeUpper }
        | none => do
            match ← bound trimmed exact with
            | none => .error (.invalidRange trimmed)
            | some exact =>
              .ok { lower := some exact, upper := some exact, includeLower, includeUpper }
      else .error (.invalidRange trimmed)
    | _ => .error (.invalidRange trimmed)

def isAbove (range : VersionRange) (v : Version) : Bool :=
  match range.lower with
  | none => true
  | some lower =>
    match v.cmp lower with
    | .lt => false
    | .eq => range.includeLower
    | .gt => true

def isBelow (range : VersionRange) (v : Version) : Bool :=
  match range.upper with
  | none => true
  | some upper =>
    match v.cmp upper with
    | .gt => false
    | .eq => range.includeUpper
    | .lt => true

def holds (range : VersionRange) (v : Version) : Bool :=
  range.isAbove v && range.isBelow v

def isExact (range : VersionRange) : Bool :=
  match range.lower, range.upper with
  | some l, some u => l.eq u && range.includeLower && range.includeUpper
  | _, _ => false

end VersionRange

def boundText (bound : Option Version) : Text :=
  bound.elim [] Version.original

def VersionRange.display (range : VersionRange) : Text :=
  (if range.includeLower then '[' else '(') :: (boundText range.lower ++ ',' ::
      (boundText range.upper ++ [if range.includeUpper then ']' else ')']))

def splitUnionRanges (input : Text) : ℕ → Text → Except VersionError (List Text)
  | 0, _ => .error (.invalidRange input)
  | fuel + 1, rest =>
    if rest.head?.any isOpening then
      let body := rest.takeWhile (!isClosing ·)
      match rest.dropWhile (!isClosing ·) with
      | [] => .error (.invalidRange input)
      | close :: after =>
        let range := body ++ [close]
        match Text.trim after with
        | [] => .ok [range]
        | ',' :: after =>
          let rest := Text.trim after
          if rest.isEmpty then .ok [range]
          else if rest.head?.any isOpening then do
            let ranges ← splitUnionRanges input fuel rest
            .ok (range :: ranges)
          else .error (.invalidRange input)
        | _ => .error (.invalidRange input)
    else .error (.invalidRange input)

namespace VersionReq

variable [Lowercase]

def parse (s : Text) : Except VersionError VersionReq :=
  let trimmed := Text.trim s
  if trimmed.isEmpty then .error (.invalidRange trimmed)
  else if trimmed.head?.any isOpening then do
    let ranges ← splitUnionRanges trimmed (trimmed.length + 1) trimmed
    let parsed ← ranges.mapM VersionRange.parse
    match ranges, parsed with
    | [range], [only] =>
      match only.lower with
      | some lower =>
        if !range.elem ',' && only.isExact then .ok (.exact lower)
        else .ok (.ranges parsed)
      | none => .ok (.ranges parsed)
    | _, _ => .ok (.ranges parsed)
  else if trimmed.any fun c => isOpening c || isClosing c || c == ',' then
    .error (.invalidRange trimmed)
  else do
    let version ← Version.parse trimmed
    .ok (.soft version)

def exactVersion : VersionReq → Option Version
  | exact version => some version
  | ranges [range] => if range.isExact then range.lower else none
  | ranges _ => none
  | soft _ => none

def holds (req : VersionReq) (v : Version) : Bool :=
  match req with
  | exact version | soft version => v.eq version
  | ranges rs => rs.any (·.holds v)

end VersionReq

def VersionReq.display : VersionReq → Text
  | exact version => '[' :: (version.original ++ [']'])
  | soft version => version.original
  | ranges rs => Text.join [','] (rs.map VersionRange.display)

/-! ## What a bracketed requirement names -/

/-- A version text that neither ends a bound nor a range. -/
def Version.Plain (v : Version) : Prop :=
  v.original ≠ [] ∧ ∀ c ∈ v.original, c ≠ ',' ∧ isClosing c = false

def VersionRange.Plain (range : VersionRange) : Prop :=
  (∀ v ∈ range.lower, v.Plain) ∧ ∀ v ∈ range.upper, v.Plain

def VersionReq.Bracketed : VersionReq → Prop
  | exact version => version.Plain
  | soft _ => False
  | ranges rs => ∀ range ∈ rs, range.Plain

theorem Version.parse_eq_ok {s : Text} {v : Version} :
    Version.parse s = .ok v ↔ v.original = Text.trim s ∧ v.original ≠ [] ∧
      Text.byteLen v.original ≤ maxComponentBytes ∧
      Text.contains v.original "$\x7b" = false := by
  obtain ⟨original⟩ := v
  constructor
  · intro h
    simp only [Version.parse] at h
    split_ifs at h with hempty hproperty
    cases h
    simp only [Bool.or_eq_true, decide_eq_true_eq, not_or, not_lt, List.isEmpty_iff] at hempty
    exact ⟨rfl, hempty.1, hempty.2, eq_false_of_ne_true hproperty⟩
  · rintro ⟨rfl, hne, hshort, hproperty⟩
    simpa [Version.parse, hne, not_lt.mpr hshort] using hproperty

def PlainText (t : Text) : Prop :=
  ∀ c ∈ t, c ≠ ',' ∧ isClosing c = false

theorem PlainText.trim {t : Text} (h : PlainText t) : PlainText (Text.trim t) :=
  fun c hc => h c (Text.mem_of_mem_trim hc)

namespace VersionRange

variable {s : Text} {range : VersionRange}

theorem bound_eq_ok {range text : Text} {v : Version}
    (h : VersionRange.bound range text = .ok (some v)) :
    Version.parse (Text.trim text) = .ok v := by
  unfold VersionRange.bound at h
  simp only at h
  split at h
  · cases h
  split at h
  · rename_i version hparse
    cases h
    exact hparse
  · cases h

theorem bound_plain {range text : Text} {bound : Option Version} (ht : PlainText text)
    (h : VersionRange.bound range text = .ok bound) : ∀ v ∈ bound, v.Plain := by
  rintro v rfl
  obtain ⟨htext, hne, -⟩ := Version.parse_eq_ok.mp (bound_eq_ok h)
  refine ⟨hne, fun c hc => ?_⟩
  rw [htext] at hc
  exact ht.trim.trim c hc

theorem mem_dropLast_of_isInfix {l : Text} (h : l <:+: s) {c : Char} (hc : c ∈ l.dropLast) :
    c ∈ s.dropLast := by
  obtain ⟨before, after, rfl⟩ := h
  have hl : l ≠ [] := by
    rintro rfl
    simp at hc
  rcases eq_nil_or_concat after with rfl | ⟨after, last, rfl⟩
  · rw [append_nil, dropLast_append_of_ne_nil hl]
    exact mem_append_right _ hc
  · rw [concat_eq_append, ← append_assoc, dropLast_concat]
    exact mem_append_left _ (mem_append_right _ (dropLast_subset l hc))

theorem inner_not_closing {inner : Text} (hs : ∀ c ∈ s.dropLast, isClosing c = false)
    (h : VersionRange.inner (Text.trim s) = some inner) : ∀ c ∈ inner, isClosing c = false := by
  unfold VersionRange.inner at h
  split at h
  · cases h
  rename_i first rest htrim
  split at h
  · cases h
    intro c hc
    refine hs c (mem_dropLast_of_isInfix (Text.trim_isInfix s) ?_)
    rw [htrim]
    cases rest with
    | nil => simp at hc
    | cons second rest => exact mem_cons_of_mem first hc
  · cases h

theorem parse_eq_ok [Lowercase] (h : VersionRange.parse s = .ok range) :
    ∃ inner, VersionRange.inner (Text.trim s) = some inner ∧
      ((∃ lower upper, Text.split inner ',' = [lower, upper] ∧
        bound (Text.trim s) lower = .ok range.lower ∧ bound (Text.trim s) upper = .ok range.upper ∧
        ∀ l ∈ range.lower, ∀ u ∈ range.upper, l.cmp u ≠ .gt) ∨
      ∃ exact, Text.split inner ',' = [exact] ∧
        range.includeLower = true ∧ range.includeUpper = true ∧
        ((∃ part, starPart (Text.trim exact) = some part ∧
          bound (Text.trim s) (part ++ "min") = .ok range.lower ∧
          bound (Text.trim s) (part ++ "max") = .ok range.upper) ∨
        starPart (Text.trim exact) = none ∧ ∃ v, bound (Text.trim s) exact = .ok (some v) ∧
          range.lower = some v ∧ range.upper = some v)) := by
  unfold VersionRange.parse at h
  simp only at h
  split at h
  · cases h
  rename_i inner hinner
  refine ⟨inner, hinner, ?_⟩
  split at h
  · rename_i lower upper hsplit
    obtain ⟨l, hbl, h⟩ := bind_eq_ok h
    obtain ⟨u, hbu, h⟩ := bind_eq_ok h
    refine .inl ⟨lower, upper, hsplit, ?_⟩
    cases l with
    | none =>
      cases h
      exact ⟨hbl, hbu, by simp⟩
    | some l =>
      cases u with
      | none =>
        cases h
        exact ⟨hbl, hbu, by simp⟩
      | some u =>
        simp only at h
        split at h
        · cases h
        · rename_i hgt
          cases h
          exact ⟨hbl, hbu, by simpa using hgt⟩
  · rename_i exact hsplit
    split at h
    · rename_i hinclude
      obtain ⟨hlower, hupper⟩ := Bool.and_eq_true_iff.mp hinclude
      refine .inr ⟨exact, hsplit, ?_⟩
      split at h
      · rename_i part hstar
        obtain ⟨l, hbl, h⟩ := bind_eq_ok h
        obtain ⟨u, hbu, h⟩ := bind_eq_ok h
        cases h
        exact ⟨hlower, hupper, .inl ⟨part, hstar, hbl, hbu⟩⟩
      · rename_i hstar
        obtain ⟨b, hb, h⟩ := bind_eq_ok h
        cases b with
        | none => cases h
        | some v =>
          cases h
          exact ⟨hlower, hupper, .inr ⟨hstar, v, hb, rfl, rfl⟩⟩
    · cases h
  · cases h

theorem starPart_eq {exact part : Text} (h : starPart exact = some part) :
    exact = part ++ ['*'] ∧ part.getLast? = some '.' := by
  unfold starPart at h
  split at h
  · rename_i hends
    obtain ⟨before, hbefore⟩ := isSuffixOf_iff_suffix.mp hends
    cases h
    have hexact : exact = before ++ ['.'] ++ ['*'] := by rw [← hbefore]; simp
    rw [hexact, dropLast_concat]
    simp
  · cases h

theorem parse_plain [Lowercase] (hs : ∀ c ∈ s.dropLast, isClosing c = false)
    (h : VersionRange.parse s = .ok range) : range.Plain := by
  obtain ⟨inner, hinner, hcases⟩ := parse_eq_ok h
  have hclosing := inner_not_closing hs hinner
  have hpart : ∀ part ∈ Text.split inner ',', PlainText part := by
    intro part hpart c hc
    obtain ⟨hsep, hsub⟩ := Text.mem_split hpart
    exact ⟨fun heq => hsep (heq ▸ hc), hclosing c (hsub c hc)⟩
  rcases hcases with ⟨lower, upper, hsplit, hbl, hbu, -⟩ | ⟨exact, hsplit, -, -, hexact⟩
  · exact ⟨bound_plain (hpart lower (by simp [hsplit])) hbl,
      bound_plain (hpart upper (by simp [hsplit])) hbu⟩
  have hplain := hpart exact (by simp [hsplit])
  rcases hexact with ⟨part, hstar, hbl, hbu⟩ | ⟨-, v, hb, hlower, hupper⟩
  · have hword : ∀ word : Text, PlainText word → PlainText (part ++ word) := by
      intro word hword c hc
      rcases mem_append.mp hc with hc | hc
      · refine hplain.trim c ?_
        rw [(starPart_eq hstar).1]
        exact mem_append_left _ hc
      · exact hword c hc
    have hmin : PlainText "min" := by simp [PlainText, isClosing]
    have hmax : PlainText "max" := by simp [PlainText, isClosing]
    exact ⟨bound_plain (hword _ hmin) hbl, bound_plain (hword _ hmax) hbu⟩
  · have hv := bound_plain hplain hb
    rw [Plain, hlower, hupper]
    exact ⟨hv, hv⟩

end VersionRange

theorem splitUnionRanges_not_closing {input : Text} {fuel : ℕ} {rest : Text} {ranges : List Text}
    (h : splitUnionRanges input fuel rest = .ok ranges) :
    ranges ≠ [] ∧ ∀ range ∈ ranges, ∀ c ∈ range.dropLast, isClosing c = false := by
  induction fuel generalizing rest ranges with
  | zero => cases h
  | succ fuel ih =>
    unfold splitUnionRanges at h
    simp only at h
    have hbody : ∀ close : Char, ∀ c ∈ (rest.takeWhile (!isClosing ·) ++ [close]).dropLast,
        isClosing c = false := by
      intro close c hc
      rw [dropLast_concat] at hc
      simpa using mem_takeWhile_imp hc
    split at h
    · split at h
      · cases h
      rename_i close after _
      split at h
      · cases h
        simpa using hbody close
      · split at h
        · cases h
          simpa using hbody close
        split at h
        · obtain ⟨more, hmore, hranges⟩ := bind_eq_ok h
          cases hranges
          refine ⟨cons_ne_nil _ _, fun range hrange => ?_⟩
          rcases mem_cons.mp hrange with rfl | hrange
          · exact hbody close
          · exact (ih hmore).2 range hrange
        · cases h
      · cases h
    · cases h

theorem VersionReq.parse_eq_ok [Lowercase] {s : Text} {req : VersionReq}
    (h : VersionReq.parse s = .ok req) :
    (∃ texts parsed, splitUnionRanges (Text.trim s) ((Text.trim s).length + 1) (Text.trim s) =
        .ok texts ∧ texts.mapM VersionRange.parse = .ok parsed ∧
      (req = .ranges parsed ∨ ∃ text only lower, texts = [text] ∧ parsed = [only] ∧
        only.lower = some lower ∧ ',' ∉ text ∧ only.isExact = true ∧ req = .exact lower)) ∨
    (Text.trim s).head?.any isOpening = false ∧
      (∀ c ∈ Text.trim s, (isOpening c || isClosing c || c == ',') = false) ∧
      ∃ v, Version.parse (Text.trim s) = .ok v ∧ req = .soft v := by
  unfold VersionReq.parse at h
  simp only at h
  split at h
  · cases h
  split at h
  · obtain ⟨texts, htexts, h⟩ := bind_eq_ok h
    obtain ⟨parsed, hparsed, h⟩ := bind_eq_ok h
    refine .inl ⟨texts, parsed, htexts, hparsed, ?_⟩
    split at h
    · rename_i text only _
      split at h
      · rename_i lower hlower
        split at h
        · rename_i hexact
          cases h
          simp only [Bool.and_eq_true, Bool.not_eq_true'] at hexact
          exact .inr ⟨text, only, lower, rfl, rfl, hlower, by simpa using hexact.1, hexact.2, rfl⟩
        · exact .inl (Except.ok.inj h).symm
      · exact .inl (Except.ok.inj h).symm
    · exact .inl (Except.ok.inj h).symm
  · rename_i hopen
    split at h
    · cases h
    rename_i hplain
    obtain ⟨v, hv, h⟩ := bind_eq_ok h
    simp only [any_eq_true, not_exists, not_and, Bool.not_eq_true] at hplain
    exact .inr ⟨Bool.not_eq_true _ ▸ hopen, hplain, v, hv, (Except.ok.inj h).symm⟩

theorem VersionReq.parse_bracketed [Lowercase] {s : Text} {req : VersionReq}
    (h : VersionReq.parse s = .ok req) : (∃ v, req = .soft v) ∨ req.Bracketed := by
  rcases VersionReq.parse_eq_ok h with ⟨texts, parsed, htexts, hparsed, hreq⟩ | ⟨-, -, v, -, hreq⟩
  · have hplain : ∀ range ∈ parsed, range.Plain := by
      intro range hrange
      obtain ⟨text, htext, hparse⟩ := mem_of_mapM_eq_ok hparsed range hrange
      exact VersionRange.parse_plain ((splitUnionRanges_not_closing htexts).2 text htext) hparse
    rcases hreq with rfl | ⟨_, only, lower, -, rfl, hlower, -, -, rfl⟩
    · exact .inr hplain
    · exact .inr ((hplain only mem_cons_self).1 lower hlower)
  · exact .inl ⟨v, hreq⟩

/-! ## The displayed text determines the requirement -/

/-- Neither a comma nor a closing bracket. -/
def isPlainChar (c : Char) : Bool :=
  c != ',' && !isClosing c

theorem Version.Plain.isPlainChar {v : Version} (h : v.Plain) :
    ∀ c ∈ v.original, isPlainChar c = true := by
  intro c hc
  obtain ⟨hcomma, hclosing⟩ := h.2 c hc
  simp [Raeva.isPlainChar, hcomma, hclosing]

theorem boundText_isPlainChar {bound : Option Version} (h : ∀ v ∈ bound, v.Plain) :
    ∀ c ∈ boundText bound, isPlainChar c = true := by
  cases bound with
  | none => simp [boundText]
  | some v => exact (h v rfl).isPlainChar

theorem boundText_inj {a b : Option Version} (ha : ∀ v ∈ a, v.Plain) (hb : ∀ v ∈ b, v.Plain)
    (h : boundText a = boundText b) : a = b := by
  cases a with
  | none =>
    cases b with
    | none => rfl
    | some w => exact absurd h.symm (hb w rfl).1
  | some v =>
    cases b with
    | none => exact absurd h (ha v rfl).1
    | some w =>
      obtain ⟨v⟩ := v
      obtain ⟨w⟩ := w
      exact congrArg (fun t => some (Version.mk t)) h

theorem opening_inj {a b : Bool} (h : (if a then '[' else '(') = if b then '[' else '(') :
    a = b := by
  cases a <;> cases b <;> simp_all

theorem closing_inj {a b : Bool} (h : (if a then ']' else ')') = if b then ']' else ')') :
    a = b := by
  cases a <;> cases b <;> simp_all

theorem isPlainChar_closing (a : Bool) : isPlainChar (if a then ']' else ')') = false := by
  cases a <;> decide

theorem VersionRange.display_append_inj {a b : VersionRange} (ha : a.Plain) (hb : b.Plain)
    {s t : Text} (h : a.display ++ s = b.display ++ t) : a = b ∧ s = t := by
  obtain ⟨alower, aupper, aopen, aclose⟩ := a
  obtain ⟨blower, bupper, bopen, bclose⟩ := b
  simp only [VersionRange.display, cons_append, append_assoc, List.cons.injEq, nil_append] at h
  obtain ⟨hopen, hbounds⟩ := h
  obtain ⟨hlower, -, hrest⟩ :=
    Text.span_inj (boundText_isPlainChar ha.1) (boundText_isPlainChar hb.1)
    (by decide) (by decide) hbounds
  obtain ⟨hupper, hclose, hst⟩ := Text.span_inj (boundText_isPlainChar ha.2)
    (boundText_isPlainChar hb.2) (isPlainChar_closing _) (isPlainChar_closing _) hrest
  obtain rfl := boundText_inj ha.1 hb.1 hlower
  obtain rfl := boundText_inj ha.2 hb.2 hupper
  obtain rfl := opening_inj hopen
  obtain rfl := closing_inj hclose
  exact ⟨rfl, hst⟩

theorem VersionReq.displayRanges_inj {as bs : List VersionRange} (ha : ∀ r ∈ as, r.Plain)
    (hb : ∀ r ∈ bs, r.Plain)
    (h : Text.join [','] (as.map VersionRange.display) =
      Text.join [','] (bs.map VersionRange.display)) : as = bs := by
  have hne : ∀ r : VersionRange, r.display ≠ [] := fun r => by simp [VersionRange.display]
  have hjoin : ∀ (r : VersionRange) (rs : List VersionRange),
      .join [','] ((r :: rs).map VersionRange.display) =
        r.display ++
          (if rs = [] then [] else ',' :: Text.join [','] (rs.map VersionRange.display)) := by
    intro r rs
    cases rs <;> simp [Text.join, List.intercalate]
  induction as generalizing bs with
  | nil =>
    cases bs with
    | nil => rfl
    | cons b bs =>
      rw [hjoin] at h
      exact absurd (append_eq_nil_iff.mp h.symm).1 (hne b)
  | cons a as ih =>
    cases bs with
    | nil =>
      rw [hjoin] at h
      exact absurd (append_eq_nil_iff.mp h).1 (hne a)
    | cons b bs =>
      rw [hjoin, hjoin] at h
      obtain ⟨hab, hrest⟩ :=
        VersionRange.display_append_inj (ha a (by simp)) (hb b (by simp)) h
      have htail : as = bs := by
        split at hrest
        · split at hrest
          · simp [*]
          · simp at hrest
        · split at hrest
          · simp at hrest
          · exact ih (fun r hr => ha r (mem_cons_of_mem a hr))
              (fun r hr => hb r (mem_cons_of_mem b hr)) (List.cons.inj hrest).2
      rw [hab, htail]

theorem VersionReq.display_exact_ne {v : Version} {rs : List VersionRange} (hv : v.Plain)
    (hrs : ∀ r ∈ rs, r.Plain) : (VersionReq.exact v).display ≠ (VersionReq.ranges rs).display := by
  intro h
  cases rs with
  | nil => simp [VersionReq.display, Text.join] at h
  | cons r rs =>
    -- The first bound of a range ends at a comma, the pinned version at a bracket.
    have hjoin : ∃ rest, (VersionReq.ranges (r :: rs)).display = r.display ++ rest := by
      cases rs with
      | nil => exact ⟨[], by simp [VersionReq.display, Text.join]⟩
      | cons r' rs => exact ⟨_, by simp [VersionReq.display, Text.join, List.intercalate]; rfl⟩
    obtain ⟨rest, hrest⟩ := hjoin
    rw [hrest] at h
    simp only [VersionReq.display, VersionRange.display, cons_append, append_assoc,
      List.cons.injEq] at h
    obtain ⟨-, hcomma, -⟩ :=
      Text.span_inj hv.isPlainChar (boundText_isPlainChar (hrs r (by simp)).1)
      (by decide) (by decide) h.2
    exact absurd hcomma (by decide)

theorem VersionReq.display_inj {a b : VersionReq} (ha : a.Bracketed) (hb : b.Bracketed)
    (h : a.display = b.display) : a = b := by
  cases a with
  | soft v => exact ha.elim
  | exact v =>
    cases b with
    | soft w => exact hb.elim
    | exact w =>
      obtain ⟨v⟩ := v
      obtain ⟨w⟩ := w
      simpa [VersionReq.display] using h
    | ranges rs => exact absurd h (VersionReq.display_exact_ne ha hb)
  | ranges rs =>
    cases b with
    | soft w => exact hb.elim
    | exact w => exact absurd h.symm (VersionReq.display_exact_ne hb ha)
    | ranges rs' => exact congrArg _ (VersionReq.displayRanges_inj ha hb h)

end Raeva
