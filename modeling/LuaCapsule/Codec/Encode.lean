import LuaCapsule.Vm.Basic

/-! From structured values to values of the language. A mapping becomes a table; a list
becomes a table that is marked as a list, so that an empty one can be told from an empty
mapping. Null inside a container leaves no entry. -/

namespace LuaCapsule.Codec

open Lua

/-- A scalar as a value. An integer must fit in 64 bits. -/
def scalar : Datum → Except Fault Value
  | .null => .ok .nil
  | .bool b => .ok (.bool b)
  | .int i =>
    if isInt64 i then .ok (.int (Int64.ofInt i)) else .error .overflow
  | .float x => .ok (.float x)
  | .text s => .ok (.text s)
  | .bytes b => .ok (.str b)
  | d => .error (.encode d.typeName)

/-- Only scalars other than null are keys. -/
def keyFault? : Datum → Option Fault
  | .text _ => none
  | .bytes _ => none
  | .bool _ => none
  | .int _ => none
  | .float _ => none
  | d => some (.encode (d.typeName ++ " key"))

/-- A new table that is marked as a list. -/
def newSequence : VmM Nat := Vm.make (·.newTable { metatable := some Fixed.sequence })

/-- An item before it enters the interpreter: a scalar is checked only when it does. -/
inductive Item where
  | scalar (d : Datum)
  | made (v : Value)

/-- The value of an item. -/
def Item.value : Item → Except Fault Value
  | scalar d => Codec.scalar d
  | made v => .ok v

mutual

/-- Encodes a value up to the point where a scalar would enter the interpreter. -/
def item : Datum → VmM Item
  | .null => return .scalar .null
  | .bool b => return .scalar (.bool b)
  | .int i => return .scalar (.int i)
  | .float x => return .scalar (.float x)
  | .text s => return .scalar (.text s)
  | .bytes b => return .scalar (.bytes b)
  | .mapping entries => do
    let t ← Vm.make (·.newTable {})
    fields t entries
    return .made (.table t)
  | .list items => do
    let t ← newSequence
    listItems t 1 items
    return .made (.table t)
  | .tuple items => do
    let t ← newSequence
    listItems t 1 items
    return .made (.table t)
  | .host o => throw (.encode (Datum.host o).typeName)
  | .live v => throw (.encode (Datum.live v).typeName)

/-- Stores the entries of a mapping in a table. -/
def fields (t : Nat) : List (Datum × Datum) → VmM Unit
  | [] => return
  | (k, d) :: rest => do
    let v ← item d
    if let some f := keyFault? k then throw f
    let k ← VmM.ofExcept (scalar k)
    let v ← VmM.ofExcept v.value
    Vm.store (.table t) k v
    fields t rest

/-- Stores the items of a list in a table, from a position on. -/
def listItems (t : Nat) (i : Int) : List Datum → VmM Unit
  | [] => return
  | d :: rest => do
    let v ← item d
    let k ← VmM.ofExcept (scalar (.int i))
    let v ← VmM.ofExcept v.value
    Vm.store (.table t) k v
    listItems t (i + 1) rest

end

/-- Encodes a value and hands it to the interpreter. -/
def encode (d : Datum) : VmM Value := do
  let v ← item d
  VmM.ofExcept v.value

end LuaCapsule.Codec
