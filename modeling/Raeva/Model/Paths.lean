import Raeva.Library.Utf8
import Raeva.Maven.Text

/-!
# Paths in models

Paths are texts with `/` between their names, as on Unix.
-/

namespace Raeva.Model

def joinPath (base path : Text) : Text :=
  if Text.startsWith path ['/'] then path
  else if base.isEmpty || Text.endsWith base ['/'] then base ++ path
  else base ++ '/' :: path

def pathNames (path : Text) : List Text :=
  (Text.split path '/').filter fun name => !(name.isEmpty || name == ['.'])

/-- `..` takes the name before it away; with none to take, it stays. -/
def resolveParents (names : List Text) : List Text :=
  names.foldl (fun kept name =>
    if name = "..".toList ∧ (kept.getLast?.any fun last => last ≠ "..".toList) then kept.dropLast
    else kept ++ [name]) []

/-- A path as Java's `File` keeps it: without repeated separators, and without
one at its end but for the root. -/
def javaFilePath (path : Text) : Text :=
  let names := (Text.split path '/').filter (!·.isEmpty)
  let joined := Text.join ['/'] names
  if Text.startsWith path ['/'] then '/' :: joined else joined

def alignToBaseDirectory (path basedir : Text) : Text :=
  let path := path.map fun c => if c = '\\' then '/' else c
  if Text.startsWith path ['/'] then javaFilePath path
  else
    let whole := joinPath basedir path
    let joined := Text.join ['/'] (resolveParents (pathNames whole))
    if Text.startsWith whole ['/'] then '/' :: joined else joined

def isUriByte (byte : UInt8) : Bool :=
  let c := Char.ofNat byte.toNat
  byte.toNat < 128 && (c.isAlphanum || "-_.!~*'():@&=+$,;/".toList.elem c)

def upperHexDigit (n : ℕ) : Char :=
  (Nat.digitChar n).toUpper

def directoryUri (path : Text) : Text :=
  let text := path.map fun c => if c = '\\' then '/' else c
  let start := "file://" ++ (if Text.startsWith text ['/'] then [] else ['/'])
  let uri := start ++ (utf8 text).flatMap fun byte =>
    if isUriByte byte then [Char.ofNat byte.toNat]
    else ['%', upperHexDigit (byte.toNat / 16), upperHexDigit (byte.toNat % 16)]
  if Text.endsWith uri ['/'] then uri else uri ++ ['/']

example : alignToBaseDirectory "../out//./classes" "/home/app" =
    "/home/out/classes".toList := by decide +kernel

example : directoryUri "/home/my app".toList = "file:///home/my%20app/".toList := by
  decide +kernel

end Raeva.Model
