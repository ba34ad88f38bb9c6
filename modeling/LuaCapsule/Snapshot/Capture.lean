import LuaCapsule.Snapshot.Record
import LuaCapsule.Lua.BinaryForm
import LuaCapsule.Lua.Library.Fixed

/-! Listing the objects that can be reached from the global table, breadth first. The entries
of a table are met in the order of their keys, so that the listing of a heap depends on what
can be reached and on nothing else. A captured variable that several functions share is
listed once, and by reference to that place from then on. -/

namespace LuaCapsule.Snapshot

open Lua

/-- Why an object cannot be listed. -/
inductive Unlisted where
  | thread
  | handle
  | native
  deriving DecidableEq, Repr, Inhabited

def Unlisted.message : Unlisted → String
  | thread => "cannot snapshot a thread value"
  | handle => "cannot snapshot a userdata value outside the standard library"
  | native => "cannot snapshot a native function outside the standard library"

/-- The objects met so far. -/
structure Survey where
  /-- The place of each object. -/
  places : Std.TreeMap Ref Nat Ref.cmp := ∅
  /-- The objects by place, of which the first has place 1. -/
  objects : Array Ref := #[]
  /-- The first mention of each captured variable: the place of a function and the position
  among its variables. -/
  owners : Std.TreeMap Nat (Nat × Nat) := ∅

abbrev SurveyM := StateT Survey (Except Unlisted)

/-- The place of an object, which is its next one if it is new. -/
def place (r : Ref) : SurveyM Nat := do
  let s ← get
  match s.places.get? r with
  | some n => return n
  | none =>
    let n := s.objects.size + 1
    set { s with places := s.places.insert r n, objects := s.objects.push r }
    return n

/-- Why an object cannot even be referred to, if so. -/
def unlisted? : Ref → Option Unlisted
  | .thread _ => some .thread
  | .cell _ => some .handle
  | .handle id => if (Fixed.pathOf? (.handle id)).isNone then some .handle else none
  | _ => none

/-- A value as it is listed. -/
def refer : Value → SurveyM Reference
  | .nil => return .nil
  | .bool b => return .bool b
  | .int i => return .int i
  | .float x => return .float x
  | .str b => return match b.toText? with | some s => .text s | none => .bytes b
  | .ref r =>
    match unlisted? r with
    | some e => throw e
    | none => return .object (← place r)

/-- A captured variable, at a position of the function at a place. -/
def referUpvalue (h : Heap) (owner i c : Nat) : SurveyM Upvalue := do
  match (← get).owners.get? c with
  | some (o, j) => return .join o j
  | none =>
    modify fun s => { s with owners := s.owners.insert c (owner, i) }
    return .value (← refer (h.cell c))

/-- The captured variables of the function at a place, from a position on. -/
def referUpvalues (h : Heap) (owner : Nat) : Nat → List Nat → SurveyM (List Upvalue)
  | _, [] => return []
  | i, c :: cells => do
    let u ← referUpvalue h owner i c
    return u :: (← referUpvalues h owner (i + 1) cells)

def referEntry (e : Key × Value) : SurveyM (Reference × Reference) := do
  let k ← refer e.1.value
  return (k, ← refer e.2)

/-- The record of the object at a place. -/
def record (h : Heap) (n : Nat) (r : Ref) : SurveyM Record := do
  match r with
  | .table id =>
    let t := h.table id
    let entries ← t.toList.mapM referEntry
    let metatable ← t.metatable.mapM fun m => refer (.table m)
    return .table (Fixed.pathOf? (.table id)) entries metatable
  | .closure id =>
    let c := h.closure id
    return .function c.code.dump (← referUpvalues h n 1 c.upvalues.toList)
  | r =>
    match Fixed.pathOf? (.ref r) with
    | some p => return .native p
    | none => throw .native

/-- The records of the objects from a place on, until all that were met have one. -/
def recordsFrom (h : Heap) : Nat → Nat → SurveyM Listing
  | 0, _ => return []
  | fuel + 1, n => do
    match (← get).objects[n - 1]? with
    | none => return []
    | some r =>
      let first ← record h n r
      return first :: (← recordsFrom h fuel (n + 1))

/-- The objects that a table holds. -/
def held (t : Table) : List Ref :=
  t.toList.flatMap (fun e => e.1.value.ref?.toList ++ e.2.ref?.toList)
    ++ (t.metatable.map Ref.table).toList

/-- The objects that stand anywhere in a heap, some perhaps several times: no others can be
met. -/
def mentioned (h : Heap) : List Ref :=
  .table Fixed.globals :: h.tables.toList.flatMap held ++ h.cells.toList.filterMap Value.ref?

/-- The listing of all objects that can be reached from the global table, which comes first. -/
def capture (h : Heap) : Except Unlisted Listing :=
  (do
    let _ ← refer (.table Fixed.globals)
    recordsFrom h (mentioned h).length 1 : SurveyM Listing).run' {}

end LuaCapsule.Snapshot
