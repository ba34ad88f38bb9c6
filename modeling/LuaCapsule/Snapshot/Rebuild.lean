import LuaCapsule.Snapshot.Record
import LuaCapsule.Lua.BinaryForm
import LuaCapsule.Lua.Library.Fixed

/-! Rebuilding a heap from a listing. First every record gets its object: library values are
found by their paths, library tables are emptied, and all else is made anew. Then the tables
and the captured variables are filled in. This is the work for listings in order: those whose
references lead to objects of the right kind, and which give the metatable of lists no way to
take part. -/

namespace LuaCapsule.Snapshot

open Lua

/-- The library table of a path. -/
def libraryTable? (path : String) : Option Nat :=
  match Fixed.valueOf? path with
  | some (.ref (.table id)) => some id
  | _ => none

/-- The library function or handle of a path. -/
def libraryLeaf? (path : String) : Option Ref :=
  match Fixed.valueOf? path with
  | some (.ref (.table _)) => none
  | some (.ref r) => some r
  | _ => none

/-! ### Objects -/

/-- The object of a record, without its contents. -/
def object? (h : Heap) : Record → Option (Ref × Heap)
  | .table (some path) _ _ => do
    let id ← libraryTable? path
    return (.table id, h.modifyTable id Table.cleared)
  | .table none _ _ =>
    let (id, h) := h.newTable {}
    some (.table id, h)
  | .native path => do return (← libraryLeaf? path, h)
  | .function code _ =>
    match Code.undump code with
    | .ok c =>
      let (id, h) := h.newFunction c
      some (.closure id, h)
    | .error _ => none

/-- The objects of records, in order, and the heap that has them. -/
def objects? (h : Heap) : Listing → Option (List Ref × Heap)
  | [] => some ([], h)
  | r :: rest => do
    let (o, h) ← object? h r
    let (os, h) ← objects? h rest
    return (o :: os, h)

/-! ### Contents -/

/-- The value that a reference stands for. -/
def valueOf? (objects : Array Ref) : Reference → Option Value
  | .nil => some .nil
  | .bool b => some (.bool b)
  | .int i => some (.int i)
  | .float x => some (.float x)
  | .text s => some (.text s)
  | .bytes b => some (.str b)
  | .object n => if n == 0 then none else (objects[n - 1]?).map .ref

def keyOf? (objects : Array Ref) (r : Reference) : Option Key := (valueOf? objects r).bind Key.ofValue?

/-- Stores the entries of a table. -/
def fillEntries? (objects : Array Ref) (t : Table) : List (Reference × Reference) → Option Table
  | [] => some t
  | (k, v) :: rest => do
    let k ← keyOf? objects k
    let v ← valueOf? objects v
    fillEntries? objects (t.set k v) rest

/-- The metatable that a record names. -/
def metatableOf? (objects : Array Ref) : Option Reference → Option (Option Nat)
  | none => some none
  | some r =>
    match valueOf? objects r with
    | some (.ref (.table id)) => some (some id)
    | _ => none

/-- The cell that a listed captured variable joins. -/
def joined? (h : Heap) (objects : Array Ref) (owner index : Nat) : Option Nat := do
  if owner == 0 || index == 0 then none
  match objects[owner - 1]? with
  | some (.closure id) => (← h.closure? id).upvalues[index - 1]?
  | _ => none

/-- Fills in the captured variables of a function from a position on, counted from zero. -/
def fillUpvalues? (objects : Array Ref) (id : Nat) : Nat → Heap → List Upvalue → Option Heap
  | _, h, [] => some h
  | i, h, u :: rest => do
    let h ←
      match u with
      | .join owner index => do pure (h.setUpvalue id i (← joined? h objects owner index))
      | .value r => do
        let cell ← (← h.closure? id).upvalues[i]?
        pure (h.setCell cell (← valueOf? objects r))
    fillUpvalues? objects id (i + 1) h rest

/-- Does a reference stand for a name, as text or as bytes? -/
def Reference.isName (name : String) : Reference → Bool
  | text s => s == name
  | bytes b => b = Bytes.ofString name
  | _ => false

/-- Does nothing in the record let the metatable of lists answer for missing items? -/
def isQuiet (o : Ref) (entries : List (Reference × Reference)) : Bool :=
  o != .table Fixed.sequence || entries.all fun e => !e.1.isName "__index"

/-- Fills in the object of a record. -/
def fill? (objects : Array Ref) (h : Heap) (r : Record) (o : Ref) : Option Heap :=
  match r, o with
  | .table _ entries metatable, .table id => do
    if !isQuiet o entries then none
    let t ← fillEntries? objects (h.table id) entries
    let m ← metatableOf? objects metatable
    return h.modifyTable id fun _ => { t with metatable := m }
  | .native _, _ => some h
  | .function _ upvalues, .closure id => do
    if upvalues.length != (← h.closure? id).upvalues.size then none
    fillUpvalues? objects id 0 h upvalues
  | _, _ => none

/-- Fills in the objects of records, in order. -/
def fillAll? (objects : Array Ref) (h : Heap) : List (Record × Ref) → Option Heap
  | [] => some h
  | (r, o) :: rest => do fillAll? objects (← fill? objects h r o) rest

/-- The heap of a listing in order whose root is the global table. -/
def rebuild? (h : Heap) (root : Nat) (l : Listing) : Option Heap := do
  let (os, h) ← objects? h l
  let objects := os.toArray
  if valueOf? objects (.object root) != some (.table Fixed.globals) then none
  fillAll? objects h (l.zip os)

end LuaCapsule.Snapshot
