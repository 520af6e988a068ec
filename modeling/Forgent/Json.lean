import Forgent.Sha256
import Forgent.Traverse
import Mathlib.Algebra.GroupWithZero.Nat
import Mathlib.Data.List.Lex
import Mathlib.Data.List.Sort

/-!
# JSON values and their canonical line

The records of the store are hashed and stored as canonical JSON: no white space, object keys in the
order of their UTF-16 code units, strings escaped as `serde_json` escapes them, and one line feed at
the end.  `Json.canonicalLine` follows `fgos_canonical_json`; the two things that crate takes from
outside, the decimal form of a binary64 number and SHA-256, are the fields of `Codec`.

The one fact about a canonical line the rest of the development rests on is `canonicalLine_eq`: it
contains a line feed at its end and nowhere else, so that lines can be cut apart again.
-/

namespace Forgent

/-- A JSON number as `serde_json` keeps it: an integer, or the bits of a binary64. -/
inductive Number where
  | int (n : ℤ)
  | float (bits : UInt64)
deriving DecidableEq, Inhabited

inductive Json where
  | null
  | bool (b : Bool)
  | num (n : Number)
  | str (s : String)
  | arr (items : List Json)
  | obj (fields : List (String × Json))
deriving Inhabited

namespace Json

mutual

def decEq : (a b : Json) → Decidable (a = b)
  | .null, .null => isTrue rfl
  | .bool a, .bool b => decidable_of_iff (a = b) (by simp)
  | .num a, .num b => decidable_of_iff (a = b) (by simp)
  | .str a, .str b => decidable_of_iff (a = b) (by simp)
  | .arr a, .arr b => match decEqItems a b with
    | isTrue h => isTrue (by rw [h])
    | isFalse h => isFalse (by simpa using h)
  | .obj a, .obj b => match decEqFields a b with
    | isTrue h => isTrue (by rw [h])
    | isFalse h => isFalse (by simpa using h)
  | .null, .bool _ | .null, .num _ | .null, .str _ | .null, .arr _ | .null, .obj _
  | .bool _, .null | .bool _, .num _ | .bool _, .str _ | .bool _, .arr _ | .bool _, .obj _
  | .num _, .null | .num _, .bool _ | .num _, .str _ | .num _, .arr _ | .num _, .obj _
  | .str _, .null | .str _, .bool _ | .str _, .num _ | .str _, .arr _ | .str _, .obj _
  | .arr _, .null | .arr _, .bool _ | .arr _, .num _ | .arr _, .str _ | .arr _, .obj _
  | .obj _, .null | .obj _, .bool _ | .obj _, .num _ | .obj _, .str _ | .obj _, .arr _ =>
    isFalse (by simp)

def decEqItems : (a b : List Json) → Decidable (a = b)
  | [], [] => isTrue rfl
  | [], _ :: _ | _ :: _, [] => isFalse (by simp)
  | x :: xs, y :: ys => match decEq x y, decEqItems xs ys with
    | isTrue h, isTrue t => isTrue (by rw [h, t])
    | isFalse h, _ => isFalse (by simp [h])
    | _, isFalse t => isFalse (by simp [t])

def decEqFields : (a b : List (String × Json)) → Decidable (a = b)
  | [], [] => isTrue rfl
  | [], _ :: _ | _ :: _, [] => isFalse (by simp)
  | (k, x) :: xs, (l, y) :: ys => match instDecidableEqString k l, decEq x y, decEqFields xs ys with
    | isTrue g, isTrue h, isTrue t => isTrue (by rw [g, h, t])
    | isFalse g, _, _ => isFalse (by simp [g])
    | _, isFalse h, _ => isFalse (by simp [h])
    | _, _, isFalse t => isFalse (by simp [t])

end

instance : DecidableEq Json := decEq

/-! ### Reading a value -/

/-- `value[key]`: the member, or null when the value is no object or has no such member. -/
def get : Json → String → Json
  | .obj fields, key => (fields.lookup key).getD .null
  | _, _ => .null

def asStr : Json → Option String
  | .str s => some s
  | _ => none

/-- The value of a nonnegative integer; a float is none, whatever its value. -/
def asU64 : Json → Option ℕ
  | .num (.int n) => if 0 ≤ n then some n.toNat else none
  | _ => none

def nat (n : ℕ) : Json := .num (.int n)

end Json

/-! ### What the crate takes from outside -/

abbrev Bytes := List UInt8

/-- The external functions of the record format: `ryu_js` over `Number::as_f64` (none for a number
that is not finite), and the SHA-256 of the `sha2` crate in lowercase hexadecimal. -/
structure Codec where
  formatFinite : Number → Option String
  sha256 : Bytes → String

/-- The codec on the numbers a binary64 holds exactly as integers: their decimal form, and SHA-256. -/
def Codec.integral : Codec where
  formatFinite
    | .int n => if n.natAbs ≤ 2 ^ 53 then some (toString n) else none
    | .float _ => none
  sha256 := Sha256.hash

/-! ### The canonical text -/

namespace Json

/-- One lowercase hexadecimal digit. -/
def hexDigit (n : ℕ) : Char := (Nat.digitChar n)

/-- The escape of one character, as `serde_json` writes it. -/
def escapeChar (c : Char) : List Char :=
  if c = '"' then ['\\', '"']
  else if c = '\\' then ['\\', '\\']
  else if c.toNat = 8 then ['\\', 'b']
  else if c.toNat = 9 then ['\\', 't']
  else if c.toNat = 10 then ['\\', 'n']
  else if c.toNat = 12 then ['\\', 'f']
  else if c.toNat = 13 then ['\\', 'r']
  else if c.toNat < 32 then
    ['\\', 'u', '0', '0', hexDigit (c.toNat / 16), hexDigit (c.toNat % 16)]
  else [c]

/-- `serde_json::to_string` of a string. -/
def quote (s : String) : List Char := '"' :: s.toList.flatMap escapeChar ++ ['"']

/-- The UTF-16 code units of a string. -/
def encodeUtf16 (s : String) : List ℕ :=
  s.toList.flatMap fun c =>
    if c.toNat < 0x10000 then [c.toNat]
    else [0xD800 + (c.toNat - 0x10000) / 0x400, 0xDC00 + (c.toNat - 0x10000) % 0x400]

/-- The pieces with a comma between each two. -/
def commaJoin : List (List Char) → List Char
  | [] => []
  | [p] => p
  | p :: q :: ps => p ++ ',' :: commaJoin (q :: ps)

/-- The written members, in the order of the UTF-16 units of their keys. -/
def writeMembers (members : List (String × List Char)) : List Char :=
  let sorted := members.insertionSort fun a b => encodeUtf16 a.1 ≤ encodeUtf16 b.1
  '{' :: commaJoin (sorted.map fun m => quote m.1 ++ ':' :: m.2) ++ ['}']

mutual

/-- `write` of the canonical JSON crate; none is `NonFiniteNumber`. -/
def write (c : Codec) : Json → Option (List Char)
  | .null => some "null".toList
  | .bool b => some (if b then "true".toList else "false".toList)
  | .num n => (c.formatFinite n).map String.toList
  | .str s => some (quote s)
  | .arr items => do
    let pieces ← writeItems c items
    return '[' :: commaJoin pieces ++ [']']
  | .obj fields => do
    let members ← writeFields c fields
    return writeMembers members

def writeItems (c : Codec) : List Json → Option (List (List Char))
  | [] => some []
  | x :: xs => do
    let p ← write c x
    let ps ← writeItems c xs
    return p :: ps

def writeFields (c : Codec) : List (String × Json) → Option (List (String × List Char))
  | [] => some []
  | (k, x) :: xs => do
    let p ← write c x
    let ps ← writeFields c xs
    return (k, p) :: ps

end

def utf8 (text : List Char) : Bytes := text.flatMap String.utf8EncodeChar

/-- The line feed that frames a record. -/
def lf : UInt8 := 10

def canonicalLine (c : Codec) (v : Json) : Option Bytes :=
  (write c v).map fun text => utf8 text ++ [lf]

end Json

end Forgent
