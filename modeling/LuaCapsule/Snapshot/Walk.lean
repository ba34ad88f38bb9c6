import LuaCapsule.Snapshot.Capture
import LuaCapsule.Vm.Call

/-! Listing a heap when the metatable of lists takes part. The records are built of values of
the interpreter itself, and the lists in them by storing items behind the last one, so that
what the metatable says of lengths and of new items counts, and what it calls may change the
heap while it is being listed. -/

namespace LuaCapsule.Snapshot.Walk

open Lua

/-- A listing under way. -/
abbrev WalkM := StateT Survey M

/-- Does the metatable of lists leave lengths and new items alone? -/
def isIdle (h : Heap) : Bool :=
  [Key.text "__newindex", Key.text "__len"].all fun k => (h.table Fixed.sequence).get k == .nil

/-- Goes on with what was met so far. -/
def survey (act : SurveyM α) : WalkM α := fun s =>
  match act s with
  | .ok r => return r
  | .error e => raise (.text e.message)

/-! ### Tables -/

/-- A table of named fields, of which those without a value are missing. -/
def fields (items : List (String × Value)) : M Value := do
  return .table (← newTable (items.foldl (fun t (k, v) => t.set (.text k) v) {}))

/-- A table that is marked as a list, made with its items. -/
def list (items : List Value) : M Value := do
  return .table (← newTable { Fixed.listOf items with metatable := some Fixed.sequence })

/-- The value of an operation at a line. -/
def settle (line : Nat) (op : Heap → Outcome) : M Value :=
  Reporting.atLine line do
    let h ← getHeap
    match op h with
    | .value v => return v
    | .call f args => return (← Machine.callFunction none f args).headD .nil
    | .fault c => raiseHere (c.message h .unknown .unknown)

/-- Stores an item of a list at a line. -/
def store (line : Nat) (name : String) (o k v : Value) : M Unit :=
  Reporting.atLine line do
    let h ← getHeap
    match h.store o k v with
    | .entry id key => setEntry id key v
    | .call f args =>
      let _ ← Machine.callFunction none f args
    | .fault c => raiseHere (c.message h (.named "local" (Bytes.ofString name)) .unknown)

/-! ### Records -/

def Reference.value : Reference → M Value
  | .nil => fields [("t", .text "nil")]
  | .bool b => fields [("t", .text "b"), ("v", .bool b)]
  | .int i => fields [("t", .text "i"), ("v", .int i)]
  | .float x => fields [("t", .text "f"), ("v", .text (doubleText x))]
  | .text s => fields [("t", .text "s"), ("v", .text s)]
  | .bytes b => fields [("t", .text "x"), ("v", .text (hexText b))]
  | .object n => fields [("t", .text "r"), ("v", .ofNat n)]

/-- A value as it is listed, as a table. -/
def reference (v : Value) : WalkM Value := do Reference.value (← survey (refer v))

/-- Lists the entries of a table under some keys. -/
def entries (list : Value) (id : Nat) : List Key → WalkM Unit
  | [] => return
  | k :: keys => do
    let n ← settle 176 (·.unary .len list)
    let place ← settle 176 (·.arith .add n (.int 1))
    let key ← reference k.value
    let value ← reference ((← tableOf id).get k)
    store 176 "entries" list place (← Walk.list [key, value])
    entries list id keys

/-- Lists the captured variables of the function at a place, from a position on. -/
def upvalues (list : Value) (owner id : Nat) : Nat → Nat → WalkM Unit
  | 0, _ => return
  | n + 1, i => do
    let h ← getHeap
    let c := (h.closure id).upvalues.getD (i - 1) 0
    match (← get).owners.get? c with
    | some (o, j) =>
      let join ← Walk.list [.ofNat o, .ofNat j]
      store 195 "upvalues" list (.ofNat i) (← fields [("join", join)])
    | none =>
      modify fun s => { s with owners := s.owners.insert c (owner, i) }
      let value ← reference (h.cell c)
      store 198 "upvalues" list (.ofNat i) (← fields [("value", value)])
    upvalues list owner id n (i + 1)

/-- The record of the object at a place. -/
def record (n : Nat) (r : Ref) : WalkM Value := do
  match r with
  | .table id =>
    let list ← Walk.list []
    entries list id ((← tableOf id).toList.map (·.1))
    let metatable ←
      match (← tableOf id).metatable with
      | some m => reference (.table m)
      | none => pure .nil
    fields [("kind", .text "table"),
      ("builtin", ((Fixed.pathOf? (.table id)).map Value.text).getD .nil), ("entries", list),
      ("metatable", metatable)]
  | .closure id =>
    let list ← Walk.list []
    let c := (← getHeap).closure id
    upvalues list n id c.upvalues.size 1
    fields [("kind", .text "function"), ("code", .text (hexText c.code.dump)), ("upvalues", list)]
  | r =>
    match Fixed.pathOf? (.ref r) with
    | some p => fields [("kind", .text "native"), ("builtin", .text p)]
    | none => survey (throw .native)

/-- Lists the objects from a place on, until all that were met are listed. -/
def recordsFrom (heap : Value) : Nat → Nat → WalkM Unit
  | 0, _ => throw .exhausted
  | fuel + 1, n => do
    match (← get).objects[n - 1]? with
    | none => return
    | some r =>
      store 204 "heap" heap (.ofNat n) (← record n r)
      recordsFrom heap fuel (n + 1)

/-- The list of the records of all objects that can be reached from the global table. -/
def listing : M Value := do
  let heap ← list []
  let act : WalkM Unit := do
    let _ ← reference (.table Fixed.globals)
    recordsFrom heap Machine.maxSteps 1
  let _ ← act.run {}
  return heap

end LuaCapsule.Snapshot.Walk
