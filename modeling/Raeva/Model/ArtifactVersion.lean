import Raeva.Library.Utf16
import Raeva.Maven.Version

/-!
# The order of maven-artifact

The versions of `artifact_version.rs`: trees of numbers, qualifiers and lists, as
maven-artifact's `ComparableVersion` reads them, with null items dropped from the end
of every list.
-/

namespace Raeva.Model.ArtifactVersion

def zeroes : List ℕ :=
  [0x30, 0x660, 0x6f0, 0x7c0, 0x966, 0x9e6, 0xa66, 0xae6, 0xb66, 0xbe6, 0xc66, 0xce6, 0xd66,
    0xde6, 0xe50, 0xed0, 0xf20, 0x1040, 0x1090, 0x17e0, 0x1810, 0x1946, 0x19d0, 0x1a80, 0x1a90,
    0x1b50, 0x1bb0, 0x1c40, 0x1c50, 0xa620, 0xa8d0, 0xa900, 0xa9d0, 0xa9f0, 0xaa50, 0xabf0,
    0xff10]

def digit (c : Char) : Option ℕ :=
  zeroes.findSome? fun start =>
    if start ≤ c.toNat ∧ c.toNat - start < 10 then some (c.toNat - start) else none

inductive Item where
  | number (kind : ℕ) (digits : Text)
  | string (value : Text)
  | list (items : List Item)

def stripZeros (t : Text) : Text :=
  t.dropWhile (· == '0')

/-- A number is kept with its Java type, which sorts first; an all-zero token keeps
its length when the type is chosen. -/
def Item.ofNumber (text : Text) : Item :=
  let stripped := if (stripZeros text).isEmpty then text else stripZeros text
  let kind := if stripped.length ≤ 9 then 0 else if stripped.length ≤ 18 then 1 else 2
  let digits := stripZeros (stripped.map fun c => Nat.digitChar ((digit c).getD 0))
  .number kind (if digits.isEmpty then "0" else digits)

def Item.ofString (text : Text) (followedByDigit : Bool) : Item :=
  .string <|
    if text = "a" && followedByDigit then "alpha"
    else if text = "b" && followedByDigit then "beta"
    else if text = "m" && followedByDigit then "milestone"
    else if text = "ga" || text = "final" || text = "release" then []
    else if text = "cr" then "rc"
    else text

def Item.ofToken (text : Text) (numeric : Bool) : Item :=
  if numeric then .ofNumber text else .ofString text false

def Item.isNull : Item → Bool
  | .number _ digits => digits = "0"
  | .string value => value.isEmpty
  | .list items => items.isEmpty

def Item.isList : Item → Bool
  | .list _ => true
  | _ => false

def qualifier (value : Text) : ℕ :=
  if value = "alpha" then 0
  else if value = "beta" then 1
  else if value = "milestone" then 2
  else if value = "rc" then 3
  else if value = "snapshot" then 4
  else if value = [] then 5
  else if value = "sp" then 6
  else 7

/-! ## Comparing -/

mutual

def Item.compareNone : Item → Ordering
  | .number _ digits => if digits = "0" then .eq else .gt
  | .string value => compare (qualifier value) (qualifier [])
  | .list items => compareNones items

def compareNones : List Item → Ordering
  | [] => .eq
  | item :: items => item.compareNone.then (compareNones items)

end

def nonesCompare : List Item → Ordering
  | [] => .eq
  | item :: items => item.compareNone.swap.then (nonesCompare items)

mutual

def Item.compareSome : Item → Item → Ordering
  | .number kind digits, .number kind' digits' =>
    (compare kind kind').then
      ((compare digits.length digits'.length).then (compare digits digits'))
  | .string value, .string value' =>
    (compare (qualifier value) (qualifier value')).then
      (compare (Utf16.encode value) (Utf16.encode value'))
  | .list items, .list items' => compareItems items items'
  | .number _ _, _ => .gt
  | .list _, .string _ => .gt
  | _, _ => .lt

def compareItems : List Item → List Item → Ordering
  | [], items' => nonesCompare items'
  | item :: items, [] => item.compareNone.then (compareNones items)
  | item :: items, item' :: items' => (item.compareSome item').then (compareItems items items')

end

def Item.compare (item : Item) : Option Item → Ordering
  | none => item.compareNone
  | some other => item.compareSome other

/-! ## Parsing -/

def maxNesting : ℕ := 256

/-- Where the parser is: the lists that are open, innermost first, the innermost
list, whether the last character was a digit, and the token so far. -/
structure Scan where
  stack : List (List Item)
  list : List Item
  numeric : Bool
  token : Text

def Scan.start : Scan :=
  ⟨[], [], false, []⟩

namespace Scan

/-- Open a list behind the items read so far. -/
def nest (scan : Scan) : Scan :=
  { scan with stack := scan.list :: scan.stack, list := [] }

def push (scan : Scan) (item : Item) : Scan :=
  { scan with list := scan.list ++ [item], token := [] }

def read (scan : Scan) (c : Char) : Scan :=
  if c = '.' || c = '-' then
    let scan := scan.push (if scan.token.isEmpty then .ofNumber "0"
      else .ofToken scan.token scan.numeric)
    if c = '-' then scan.nest else scan
  else if (digit c).isSome then
    let scan :=
      if !scan.numeric && !scan.token.isEmpty then
        let opened := if scan.list.isEmpty then scan else scan.nest
        (opened.push (.ofString scan.token true)).nest
      else scan
    { scan with token := scan.token ++ [c], numeric := true }
  else
    let scan :=
      if scan.numeric && !scan.token.isEmpty then (scan.push (.ofNumber scan.token)).nest else scan
    { scan with token := scan.token ++ [c], numeric := false }

def finish (scan : Scan) : Scan :=
  if scan.token.isEmpty then scan
  else
    let opened := if !scan.numeric && !scan.list.isEmpty then scan.nest else scan
    opened.push (.ofToken scan.token scan.numeric)

def limit (scan : Scan) : Option Scan :=
  if maxNesting < scan.stack.length then none else some scan

end Scan

def dropNulls : List Item → List Item
  | [] => []
  | item :: items =>
    if item.isNull then dropNulls items
    else if item.isList then item :: dropNulls items
    else item :: items

def normalize (list : List Item) : List Item :=
  (dropNulls list.reverse).reverse

def close : List (List Item) → List Item → Item
  | [], list => .list (normalize list)
  | parent :: stack, list => close stack (parent ++ [.list (normalize list)])

def parse [Lowercase] (version : Text) : Option Item :=
  if maxComponentBytes < Text.byteLen version then none
  else do
    let scan ← (Lowercase.toLowercase version).foldlM (fun scan c => (Scan.read scan c).limit)
      Scan.start
    let scan ← scan.finish.limit
    return close scan.stack scan.list

/-! ## Ranges -/

def trim (t : Text) : Text :=
  (t.dropWhile (·.toNat ≤ 0x20)).rdropWhile (·.toNat ≤ 0x20)

section Contains

variable [Lowercase]

def parseBound (t : Text) : Option (Option Item) :=
  if (trim t).isEmpty then some none else (parse (trim t)).map some

def parseBounds (inner : Text) (includeLower includeUpper : Bool) :
    Option (Option Item × Option Item) :=
  match Text.splitOnce inner ',' with
  | some (lower, upper) => do
      let lower ← parseBound lower
      let upper ← parseBound upper
      return (lower, upper)
  | none =>
    if includeLower && includeUpper then (parse inner).map fun exact => (some exact, some exact)
    else none

end Contains

/-- Bounds that cross, or that exclude the one version between them, are refused. -/
def crossed (lower upper : Option Item) (includeLower includeUpper : Bool) : Bool :=
  match lower, upper with
  | some lower, some upper =>
    match lower.compareSome upper with
    | .gt => true
    | .eq => !(includeLower && includeUpper)
    | .lt => false
  | _, _ => false

/-- A range has to start at the upper bound of the one before it or later. -/
def overlaps (previous lower : Option Item) : Bool :=
  match previous with
  | none => false
  | some previous => lower.all fun lower => lower.compareSome previous == .lt

def within (version : Item) (lower upper : Option Item) (includeLower includeUpper : Bool) : Bool :=
  (lower.all fun lower =>
    let order := lower.compareSome version
    order == .lt || (order == .eq && includeLower)) &&
  upper.all fun upper =>
    let order := upper.compareSome version
    order == .gt || (order == .eq && includeUpper)

section Contains

variable [Lowercase]

/-- One range, behind its opening bracket: whether the version lies in it, its upper
bound and what follows it. -/
def readRange (version : Item) (previousUpper : Option Item) (includeLower : Bool) (rest : Text) :
    Option (Bool × Option Item × Text) :=
  match rest.dropWhile fun c => c != ')' && c != ']' with
  | [] => none
  | closing :: after => do
      let includeUpper := closing == ']'
      let (lower, upper) ← parseBounds (trim (rest.takeWhile fun c => c != ')' && c != ']'))
        includeLower includeUpper
      guard (!crossed lower upper includeLower includeUpper && !overlaps previousUpper lower)
      let spec := trim after
      let spec := if spec.head? = some ',' then trim spec.tail else spec
      return (within version lower upper includeLower includeUpper, upper, spec)

/-- The ranges of a specification from some position on; each takes two characters. -/
def containsFrom (version : Item) :
    ℕ → (matched restricted : Bool) → (previousUpper : Option Item) → Text → Option Bool
  | 0, _, _, _, _ => none
  | fuel + 1, matched, restricted, previousUpper, spec =>
    if spec.head? = some '[' || spec.head? = some '(' then do
      let (found, upper, spec) ←
        readRange version previousUpper (spec.head? = some '[') spec.tail
      containsFrom version fuel (matched || found) true upper spec
    else if spec.isEmpty then some matched
    else if restricted then none
    -- A bare version recommends a version and allows every one.
    else some true

/-- Whether a version lies in the ranges of a specification; `none` if the
specification is refused. -/
def contains (version spec : Text) : Option Bool := do
  let version ← parse version
  containsFrom version (spec.length + 1) false false none spec

end Contains

end Raeva.Model.ArtifactVersion
