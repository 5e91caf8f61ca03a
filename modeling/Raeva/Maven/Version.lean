import Raeva.Maven.Text

/-!
# Versions

`Version` of `rv-maven-types`: a version is its text, from which its items are
split.  The order is maven-resolver's `GenericVersion`, which is no order on
all versions; `Raeva.Maven.VersionOrder` says where it is one.
-/

namespace Raeva

def maxComponentBytes : ℕ := 255

inductive Item where
  | min
  | qualifier (value : ℤ)
  | text (token : Text)
  | number (digits : Text)
  | max
  deriving DecidableEq

namespace Item

def isNumber : Item → Bool
  | min | number _ | max => true
  | qualifier _ | text _ => false

def cmpPadding : Item → Ordering
  | min => .lt
  | qualifier value => compare value 0
  | number digits => if digits = "0" then .eq else .gt
  | text _ | max => .gt

/-- Digits without leading zeros, so the longer number is the larger. -/
def cmpNumber (a b : Text) : Ordering :=
  (compare a.length b.length).then (compare a b)

def variant : Item → ℕ
  | min => 0
  | qualifier _ => 1
  | text _ => 2
  | number _ => 3
  | max => 4

def cmp : Item → Item → Ordering
  | qualifier a, qualifier b => compare a b
  | text a, text b => compare a b
  | number a, number b => cmpNumber a b
  | a, b => compare a.variant b.variant

end Item

/-! ## Splitting a text into items -/

/-- Where the tokenizer is: before the first character, in text, in leading
zeros or in a number. -/
inductive ScanState where
  | start
  | text
  | zeros
  | number
  deriving DecidableEq

def isSeparator (c : Char) : Bool :=
  c == '.' || c == '-' || c == '_'

/-- One token: the state it ended in, its characters, whether a digit ended a
text, and the rest of the input. -/
def scanToken : ScanState → Text → Text → ScanState × Text × Bool × Text
  | state, token, [] => (state, token, false, [])
  | state, token, ch :: rest =>
    if isSeparator ch then (state, token, false, rest)
    else if Text.isAsciiDigit ch then
      match state with
      | .text => (state, token, true, ch :: rest)
      -- The token starts after a leading zero.
      | .zeros => scanToken (if ch = '0' then .zeros else .number) [ch] rest
      | .start => scanToken (if ch = '0' then .zeros else .number) (token ++ [ch]) rest
      | .number => scanToken .number (token ++ [ch]) rest
    else
      match state with
      | .zeros | .number => (state, token, false, ch :: rest)
      | .start | .text => scanToken .text (token ++ [ch]) rest

section Parse

variable [Lowercase]

def textItem (token : Text) (last beforeDigit : Bool) : Item :=
  let token := Lowercase.toLowercase token
  if token = "min" && last then .min
  else if token = "max" && last then .max
  else if token = "a" && beforeDigit then .qualifier (-5)
  else if token = "b" && beforeDigit then .qualifier (-4)
  else if token = "m" && beforeDigit then .qualifier (-3)
  else if token = "alpha" then .qualifier (-5)
  else if token = "beta" then .qualifier (-4)
  else if token = "milestone" then .qualifier (-3)
  else if token = "cr" || token = "rc" then .qualifier (-2)
  else if token = "snapshot" then .qualifier (-1)
  else if token = "ga" || token = "final" || token = "release" then
    .qualifier 0
  else if token = "sp" then .qualifier 1
  else .text token

def tokenItem (state : ScanState) (token : Text) (last beforeDigit : Bool) : Item :=
  if token.isEmpty then .number "0"
  else
    match state with
    | .zeros | .number => .number token
    | .start | .text => textItem token last beforeDigit

def itemsFrom : ℕ → Text → List Item
  | 0, _ => []
  | fuel + 1, input =>
    if input.isEmpty then []
    else
      let (state, token, beforeDigit, rest) := scanToken .start [] input
      tokenItem state token rest.isEmpty beforeDigit :: itemsFrom fuel rest

end Parse

/-- What the backward pass of `trim_padding` knows after looking at the items
from some position on: the items kept, the kind of the run it is in, whether
everything of that run so far was dropped, and whether everything was. -/
structure TrimState where
  kept : List Item
  run : Option Bool
  atEnd : Bool
  tailDropped : Bool

def TrimState.init : TrimState :=
  { kept := [], run := none, atEnd := true, tailDropped := true }

def trimStep (before item : Item) (state : TrimState) : TrimState :=
  let number := item.isNumber
  let atEnd := if state.run = some number then state.atEnd else true
  if atEnd && (state.tailDropped || before.isNumber == number) && item.cmpPadding.isEq then
    { kept := state.kept, run := some number, atEnd := true, tailDropped := state.tailDropped }
  else
    { kept := item :: state.kept, run := some number, atEnd := false, tailDropped := false }

def trimAfter : Item → List Item → TrimState
  | _, [] => .init
  | before, item :: rest => trimStep before item (trimAfter item rest)

/-- Drop padding items from the end of each run of numbers or of text, keeping
the first item of a run unless nothing follows it, and always the first item. -/
def trimPadding : List Item → List Item
  | [] => []
  | first :: rest => first :: (trimAfter first rest).kept

def parseItems [Lowercase] (text : Text) : List Item :=
  trimPadding (itemsFrom text.length text)

/-! ## Versions and their order -/

/-- A version, as written without surrounding whitespace. -/
structure Version where
  original : Text
  deriving DecidableEq

inductive VersionError where
  | invalidVersion (text : Text)
  | invalidRange (text : Text)
  | invalidCoord (text : Text)
  | unresolvedProperty (text : Text)
  deriving DecidableEq

namespace Version

def parse (s : Text) : Except VersionError Version :=
  let trimmed := Text.trim s
  if trimmed.isEmpty || maxComponentBytes < Text.byteLen trimmed then
    .error (.invalidVersion s)
  else if Text.contains trimmed "$\x7b" then
    .error (.unresolvedProperty trimmed)
  else .ok ⟨trimmed⟩

def unresolved (s : Text) : Version :=
  ⟨Text.trim s⟩

variable [Lowercase]

/-- The items of a version; an over-long one, which `parse` refuses, is not
split. -/
def items (v : Version) : List Item :=
  if maxComponentBytes < Text.byteLen v.original then [] else parseItems v.original

/-- The first item, of the given kind if one is given, that differs from the
padding. -/
def comparePadding (items : List Item) (number : Option Bool) : Ordering :=
  ((items.filter fun item => number.all (item.isNumber == ·)).map Item.cmpPadding
    |>.find? Ordering.isNe).getD .eq

def cmpItems : Bool → List Item → List Item → Ordering
  | _, [], [] => .eq
  | _, [], those => (comparePadding those none).swap
  | _, these, [] => comparePadding these none
  | number, this :: these, that :: those =>
    if this.isNumber ≠ that.isNumber then
      if this.isNumber = number then comparePadding (this :: these) (some number)
      else (comparePadding (that :: those) (some number)).swap
    else
      match this.cmp that with
      | .eq => cmpItems this.isNumber these those
      | rel => rel

def cmp (a b : Version) : Ordering :=
  cmpItems true a.items b.items

def eq (a b : Version) : Bool :=
  (a.cmp b).isEq

def StartsWithNumber (v : Version) : Prop :=
  ∃ first, v.items.head? = some first ∧ first.isNumber = true

end Version

end Raeva
