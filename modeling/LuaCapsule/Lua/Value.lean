import LuaCapsule.Lua.Native
import LuaCapsule.Number.Exact
import LuaCapsule.Text.Bytes

/-! Values of the language and the keys of its tables. Objects are values by reference. A key
is a value other than nil and NaN, with every double that denotes a 64-bit integer replaced by
it; keys are ordered by kind, then as truth values, numbers, byte strings or references. -/

namespace LuaCapsule.Lua

/-- A value that is not a scalar. -/
inductive Ref where
  | table (id : Nat)
  | closure (id : Nat)
  | native (f : Native)
  /-- A standard stream, or a file opened by a script. -/
  | handle (id : Nat)
  /-- The identity of a variable shared by closures. -/
  | cell (id : Nat)
  | thread (id : Nat)
  deriving DecidableEq, Repr, Inhabited

namespace Ref

/-- Numbers that tell references apart. -/
def rank : Ref → Nat × Nat × Nat
  | table i => (0, i, 0)
  | closure i => (1, i, 0)
  | native f => (2, f.rank)
  | handle i => (3, i, 0)
  | cell i => (4, i, 0)
  | thread i => (5, i, 0)

def cmp (a b : Ref) : Ordering :=
  match a.rank, b.rank with
  | (k, i, j), (k', i', j') => (compare k k').then ((compare i i').then (compare j j'))

end Ref

/-- A value. -/
inductive Value where
  | nil
  | bool (b : Bool)
  | int (i : Int64)
  | float (x : Binary64)
  | str (s : Bytes)
  | ref (r : Ref)
  deriving DecidableEq, Inhabited

namespace Value

@[match_pattern] abbrev table (id : Nat) : Value := .ref (.table id)

@[match_pattern] abbrev closure (id : Nat) : Value := .ref (.closure id)

@[match_pattern] abbrev native (f : Native) : Value := .ref (.native f)

@[match_pattern] abbrev handle (id : Nat) : Value := .ref (.handle id)

@[match_pattern] abbrev thread (id : Nat) : Value := .ref (.thread id)

def text (s : String) : Value := .str (Bytes.ofString s)

def ofNat (n : Nat) : Value := .int (Int64.ofNat n)

/-- The object that a value is, if it is one. -/
def ref? : Value → Option Ref
  | ref r => some r
  | _ => none

/-- All values but nil and false count as true. -/
def truthy : Value → Bool
  | nil => false
  | bool b => b
  | _ => true

/-- The name of a value's type. -/
def typeName : Value → String
  | nil => "nil"
  | bool _ => "boolean"
  | int _ => "number"
  | float _ => "number"
  | str _ => "string"
  | ref (.table _) => "table"
  | ref (.closure _) => "function"
  | ref (.native _) => "function"
  | ref (.handle _) => "userdata"
  | ref (.cell _) => "userdata"
  | ref (.thread _) => "thread"

/-- Equality without metamethods: an integer equals the double of the same value. -/
def rawEq : Value → Value → Bool
  | nil, nil => true
  | bool a, bool b => a == b
  | int a, int b => a == b
  | float a, float b => a.beq b
  | int a, float b => !b.isNaN && b.compareInt a.toInt == .eq
  | float a, int b => !a.isNaN && a.compareInt b.toInt == .eq
  | str a, str b => a == b
  | ref a, ref b => a == b
  | _, _ => false

end Value

/-- A key of a table. -/
inductive Key where
  | bool (b : Bool)
  | int (i : Int64)
  | float (x : Binary64) (own : x.isKey = true)
  | str (s : Bytes)
  | ref (r : Ref)
  deriving DecidableEq, Inhabited

namespace Key

def text (s : String) : Key := .str (Bytes.ofString s)

def value : Key → Value
  | bool b => .bool b
  | int i => .int i
  | float x _ => .float x
  | str s => .str s
  | ref r => .ref r

/-- The key that a value denotes: nil and NaN denote none. -/
def ofValue? : Value → Option Key
  | .nil => none
  | .bool b => some (.bool b)
  | .int i => some (.int i)
  | .float x => if own : x.isKey then some (.float x own) else x.toInt64?.map .int
  | .str s => some (.str s)
  | .ref r => some (.ref r)

@[simp] theorem ofValue?_value (k : Key) : ofValue? k.value = some k := by
  cases k with
  | float x own => exact dif_pos own
  | _ => rfl

/-- The place of a key's kind in the order of keys. -/
def kind : Key → Nat
  | bool _ => 1
  | int _ => 2
  | float _ _ => 2
  | str _ => 3
  | ref _ => 4

/-- The order of keys. -/
def cmp : Key → Key → Ordering
  | bool a, bool b => compare a.toNat b.toNat
  | int a, int b => compare a.toInt b.toInt
  | float a _, float b _ => compare a.orderKey b.orderKey
  | int a, float b _ => (b.compareInt a.toInt).swap
  | float a _, int b => a.compareInt b.toInt
  | str a, str b => Bytes.cmp a b
  | ref a, ref b => Ref.cmp a b
  | a, b => compare a.kind b.kind

end Key

end LuaCapsule.Lua
