import Mathlib.Algebra.Order.Floor.Defs
import Mathlib.Data.Rat.Floor

/-!
# JSON values

The `nlohmann::json` values the server works on (`json.hpp`).

* `Double` — a `double` by its bits; `Double.value` is the number it stands for.
* `Json` — `basic_json`, with its three kinds of numbers; the members of an
  object are in the order of their keys.
* `Json.find?`, `Json.getString`, `Json.getInt`, `Json.getSize`, `Json.value` —
  the accessors, with the texts of their exceptions.
-/

namespace Qw3

/-- A `double`. -/
structure Double where
  bits : BitVec 64
  deriving DecidableEq, Repr

namespace Double

def exponent (x : Double) : ℕ := (x.bits.extractLsb' 52 11).toNat

def fraction (x : Double) : ℕ := (x.bits.extractLsb' 0 52).toNat

/-- Neither infinite nor a NaN. -/
def isFinite (x : Double) : Bool := x.exponent ≠ 2047

/-- The number a finite double stands for. -/
def value (x : Double) : ℚ :=
  (if x.bits.msb then -1 else 1) *
    (if x.exponent = 0 then (x.fraction : ℚ) * 2 ^ (-1074 : ℤ)
    else (2 ^ 52 + x.fraction : ℚ) * 2 ^ ((x.exponent : ℤ) - 1075))

/-- `static_cast` to an integer type, which drops the fraction. -/
def truncate (x : Double) : ℤ := if x.bits.msb then -⌊-x.value⌋ else ⌊x.value⌋

end Double

/-- `nlohmann::json`. -/
inductive Json where
  | null
  | boolean (value : Bool)
  | integer (value : BitVec 64)
  | unsigned (value : BitVec 64)
  | float (value : Double)
  | string (value : String)
  | array (items : List Json)
  | object (members : List (String × Json))
  deriving Repr

namespace Json

/-- `type_name`. -/
def typeName : Json → String
  | null => "null"
  | boolean _ => "boolean"
  | integer _ | unsigned _ | float _ => "number"
  | string _ => "string"
  | array _ => "array"
  | object _ => "object"

/-- The text of a `type_error`. -/
def typeError (id : String) (message : String) : String :=
  "[json.exception.type_error." ++ id ++ "] " ++ message

def isObject : Json → Bool
  | object _ => true
  | _ => false

def isNull : Json → Bool
  | null => true
  | _ => false

/-- The member of an object. -/
def find? (key : String) : Json → Option Json
  | object members => members.lookup key
  | _ => none

/-- `contains`. -/
def contains (j : Json) (key : String) : Bool := (j.find? key).isSome

/-- The member of an object that is a string. -/
def findString? (key : String) (j : Json) : Option String :=
  match j.find? key with
  | some (string s) => some s
  | _ => none

/-- `get<std::string>()`. -/
def getString : Json → Except String String
  | string s => .ok s
  | j => .error (typeError "302" ("type must be string, but is " ++ j.typeName))

/-- `get<bool>()`. -/
def getBool : Json → Except String Bool
  | boolean b => .ok b
  | j => .error (typeError "302" ("type must be boolean, but is " ++ j.typeName))

/-- `get<int>()`. -/
def getInt : Json → Except String (BitVec 32)
  | integer n => .ok (n.setWidth 32)
  | unsigned n => .ok (n.setWidth 32)
  | float x => .ok (BitVec.ofInt 32 x.truncate)
  | boolean b => .ok (if b then 1 else 0)
  | j => .error (typeError "302" ("type must be number, but is " ++ j.typeName))

/-- `get<size_t>()`. -/
def getSize : Json → Except String (BitVec 64)
  | integer n => .ok n
  | unsigned n => .ok n
  | float x => .ok (BitVec.ofInt 64 x.truncate)
  | j => .error (typeError "302" ("type must be number, but is " ++ j.typeName))

/-- `value(key, missing)`, of the type that `get` reads. -/
def value {α : Type} (get : Json → Except String α) (key : String) (missing : α) (j : Json) :
    Except String α :=
  match j with
  | object members =>
      match members.lookup key with
      | some v => get v
      | none => .ok missing
  | j => .error (typeError "306" ("cannot use value() with " ++ j.typeName))

/-- `members[key] = value` in the order of the keys. -/
def insertMember (key : String) (v : Json) : List (String × Json) → List (String × Json)
  | [] => [(key, v)]
  | m :: members =>
      if key < m.1 then (key, v) :: m :: members
      else if key = m.1 then (key, v) :: members
      else m :: insertMember key v members

/-- `members[key] = value` for a key that is there. -/
def replaceMember (key : String) (v : Json) : List (String × Json) → List (String × Json)
  | [] => []
  | m :: members => if m.1 = key then (key, v) :: members else m :: replaceMember key v members

/-- An object with these members. -/
def ofMembers (members : List (String × Json)) : Json :=
  object (members.foldl (fun ms m => insertMember m.1 m.2 ms) [])

end Json

end Qw3
