import LuaCapsule.Vm.Basic

/-! From values of the language to structured values. A table is a list when its keys are the
integers from 1 up to their number, or when it is marked as a list and all its keys are
integers; any other table is a mapping. No metamethod plays a part but one for equality, which is
heard about the mark of a table. -/

namespace LuaCapsule.Codec

open Lua

/-- The deepest nesting that is decoded when nothing else is said. -/
def maxDepth : Int := 64

/-- A scalar; a string must be text. -/
def scalar? : Value → Option Datum
  | .nil => some .null
  | .bool b => some (.bool b)
  | .int i => some (.int i.toInt)
  | .float x => some (.float x)
  | .str b => b.toText?.map .text
  | .ref _ => none

def isText : Value → Bool
  | .str b => b.toText?.isSome
  | _ => true

def isInt : Key → Bool
  | .int _ => true
  | _ => false

/-- Are these all the integers from 1 up to their number? -/
def isRange (keys : List Key) : Bool :=
  !keys.isEmpty && keys.all fun k =>
    match k with
    | .int i => 1 ≤ i.toInt && i.toInt ≤ keys.length
    | _ => false

def nestingFault (limit : Int) : Fault := .decode "table" s!"nesting exceeds {limit} levels"

def textFault : Fault := .decode "string" "not valid UTF-8"

/-- Refuses entries whose strings are not all text or whose keys are not all scalars. -/
def checkEntries (h : Heap) (entries : List (Key × Value)) : Except Fault Unit :=
  if entries.any fun e => !isText e.1.value || !isText e.2 then .error textFault
  else
    match entries.findSome? fun e => Vm.kind? h e.1.value with
    | some kind => .error (.decode kind "table keys must be scalars")
    | none => .ok ()

/-- Decodes a value that is no table. -/
def leaf (h : Heap) (v : Value) : Except Fault Datum :=
  match scalar? v, Vm.kind? h v with
  | some d, _ => .ok d
  | none, some kind => .error (.decode kind "")
  | none, none => .error textFault

/-- Decodes a value in which at most `fuel` more tables are nested. The host took the value out of the
objects `h`, and takes what is in a table when it comes to the table. -/
def decodeNested (limit : Int) : Nat → Heap → Value → VmM Datum
  | 0, h, v =>
    match v with
    | .ref (.table _) => throw (nestingFault limit)
    | v => VmM.ofExcept (leaf h v)
  | fuel + 1, h, v =>
    match v with
    | .ref (.table id) => do
      let h ← Vm.getHeap
      let entries := (h.table id).enumerate
      Vm.modifyHeap (entries.foldl (fun h e => Vm.afterSeeing (Vm.afterSeeing h e.1.value) e.2))
      VmM.ofExcept (checkEntries h entries)
      let marked ← Vm.isSequence id
      let keys := entries.map (·.1)
      if (marked && keys.all isInt) || isRange keys then
        return .list (← (h.table id).toList.mapM fun e => decodeNested limit fuel h e.2)
      else
        return .ofPairs (← entries.mapM fun e => do
          return ((scalar? e.1.value).getD .null, ← decodeNested limit fuel h e.2))
    | v => VmM.ofExcept (leaf h v)

/-- Decodes a value of an interpreter. -/
def decode (limit : Int) (v : Value) : VmM Datum := do
  let h ← Vm.getHeap
  Vm.modifyHeap (Vm.afterSeeing · v)
  decodeNested limit limit.toNat h v

end LuaCapsule.Codec
