import Forgent.Json
import Std.Data.ExtTreeMap

/-!
# JSON values as the consumers read them

The folds of the consumers are JavaScript.  An absent member is `undefined` (here `none`), a member of
something that is no object is `undefined` too, conditions test for truth rather than for `true`, and a
value that is used as a property name is turned into a text first.  What the language does with numbers
that are not integers is left to `Host`.
-/

namespace Forgent

/-- The members of an object; setting a member to `undefined` and leaving it out read the same. -/
abbrev Fields := Std.ExtTreeMap String Json

/-- An object that is used as a table. -/
abbrev Table (α : Type) := Std.ExtTreeMap String α

/-- What the folds use of the language where a number is not an integer: its decimal form, `value + 1`
and `count >= value`. -/
structure Arithmetic where
  decimal : Number → String
  plusOne : Json → Json
  atLeast : ℕ → Json → Bool

namespace Json

/-- `value[key]`. -/
def field : Json → String → Option Json
  | .obj fields, key => fields.lookup key
  | _, _ => none

/-- `value?.[key]`. -/
def member (value : Option Json) (key : String) : Option Json := value.bind fun v => v.field key

def isZero : Number → Bool
  | .int n => n = 0
  | .float bits => bits = 0 || bits = 0x8000000000000000

/-- Whether a condition holds of the value. -/
def truthy : Option Json → Bool
  | none | some .null => false
  | some (.bool b) => b
  | some (.num n) => !isZero n
  | some (.str s) => s ≠ ""
  | some (.arr _) | some (.obj _) => true

/-- `a === b`: two objects that come from different records are never the same. -/
def same : Option Json → Option Json → Bool
  | none, none | some .null, some .null => true
  | some (.bool a), some (.bool b) => a = b
  | some (.num a), some (.num b) => a = b
  | some (.str a), some (.str b) => a = b
  | _, _ => false

/-- `array.includes(value)`. -/
def includes (items : List Json) (value : Json) : Bool := items.any fun v => same (some v) (some value)

/-- `a ?? b`. -/
def orElse (a b : Option Json) : Option Json :=
  match a with
  | none | some .null => b
  | some v => some v

/-- `a ?? null`. -/
def orNull (a : Option Json) : Json := a.getD .null

mutual

/-- The text a value becomes as a property name or inside a message. -/
def text (n : Arithmetic) : Json → String
  | .null => "null"
  | .bool b => if b then "true" else "false"
  | .num m => n.decimal m
  | .str s => s
  | .arr items => ",".intercalate (itemTexts n items)
  | .obj _ => "[object Object]"

/-- Inside an array, null reads as the empty text. -/
def itemTexts (n : Arithmetic) : List Json → List String
  | [] => []
  | .null :: rest => "" :: itemTexts n rest
  | v :: rest => text n v :: itemTexts n rest

end

/-- The property a value names. -/
def key (n : Arithmetic) (value : Option Json) : String := value.elim "undefined" (text n)

mutual

/-- `JSON.stringify`. -/
def stringify (n : Arithmetic) : Json → String
  | .null => "null"
  | .bool b => if b then "true" else "false"
  | .num m => n.decimal m
  | .str s => String.ofList (quote s)
  | .arr items => "[" ++ ",".intercalate (stringifyItems n items) ++ "]"
  | .obj fields => "\x7b" ++ ",".intercalate (stringifyFields n fields) ++ "\x7d"

def stringifyItems (n : Arithmetic) : List Json → List String
  | [] => []
  | v :: rest => stringify n v :: stringifyItems n rest

def stringifyFields (n : Arithmetic) : List (String × Json) → List String
  | [] => []
  | (k, v) :: rest => (String.ofList (quote k) ++ ":" ++ stringify n v) :: stringifyFields n rest

end

/-- `{ ...value }`. -/
def spread : Option Json → Fields
  | some (.obj fields) => Std.ExtTreeMap.ofList fields.reverse
  | some (.arr items) => Std.ExtTreeMap.ofList (items.zipIdx.map fun p => (toString p.2, p.1))
  | _ => ∅

end Json

namespace Fields

open Json

/-- `object.key = value`. -/
def set (f : Fields) (key : String) (value : Option Json) : Fields :=
  match value with
  | some v => f.insert key v
  | none => f.erase key

/-- `if (value !== undefined) object.key = value`. -/
def keep (f : Fields) (key : String) (value : Option Json) : Fields :=
  match value with
  | some v => f.insert key v
  | none => f

/-- `if (value) object.key = value`. -/
def keepTrue (f : Fields) (key : String) (value : Option Json) : Fields :=
  if truthy value then f.set key value else f

/-- The members of the payload under these names, where it has them. -/
def keepAll (f : Fields) (payload : Option Json) (keys : List String) : Fields :=
  keys.foldl (fun f k => f.keep k (member payload k)) f

/-- `Object.assign(object, other)`. -/
def assign (f other : Fields) : Fields := f.insertMany other.toList

end Fields

namespace Table

variable {α : Type}

/-- `table[key] = [...(table[key] ?? []), value]`. -/
def push (t : Table (List α)) (key : String) (value : α) : Table (List α) :=
  t.insert key (t.getD key [] ++ [value])

end Table

end Forgent
