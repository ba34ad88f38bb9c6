import LuaCapsule.Lua.Operation
import LuaCapsule.Lua.Table

/-! The objects of an interpreter. Objects are named by numbers and are never given up; what a
number names that was never given out reads as an empty object. -/

namespace LuaCapsule.Lua

/-- A function value: code with a cell for each variable that it captured. -/
structure Closure where
  code : Code
  upvalues : Array Nat
  sized : upvalues.size = code.proto.captures.size

instance : Inhabited Closure := ⟨⟨default, #[], rfl⟩⟩

/-- What becomes of the results of a call. -/
inductive Want where
  /-- So many of them go to registers, nil standing for those that are missing. -/
  | registers (first n : Nat)
  /-- All of them are held, as if they were in the registers from one on. -/
  | hold (first : Nat)
  /-- The first one decides whether the next instruction is passed over. -/
  | test (sense : Bool)
  /-- The first one is joined with the values to its left. -/
  | join (left : List Value)
  /-- None is wanted, and the instruction goes on. -/
  | again
  deriving Inhabited

namespace Want

def nothing : Want := registers 0 0

end Want

/-- A function in the middle of its work. -/
structure Activation where
  closure : Nat
  code : Code
  /-- The cells of captured variables. -/
  upvalues : Array Nat
  registers : Array Value
  /-- The registers whose values are in cells because functions captured them, highest first. -/
  shared : List (Nat × Nat)
  /-- Arguments beyond the parameters. -/
  extra : List Value
  /-- The place of the next instruction. -/
  pc : Nat
  /-- Values of an open number, and the register where the first of them belongs. -/
  held : List Value
  heldAt : Nat
  /-- The operands that are left of texts being joined. -/
  joining : Option (List Value)
  /-- The variables to be closed, latest first: their registers and values. -/
  marked : List (Nat × Value)
  /-- What becomes of the results of the call it waits for. -/
  want : Want
  /-- It took the place of its caller. -/
  isTail : Bool
  /-- Where its registers begin among those of its coroutine. -/
  bottom : Nat
  /-- How many calls under way were not made by code alone. -/
  nesting : Nat

/-- What waits for the result of what is above it. -/
inductive Frame where
  | activation (a : Activation)
  /-- A function of the host at a line of its own text. -/
  | host (line : Nat)
  /-- A protected call, perhaps with a handler of errors. -/
  | protected' (handler : Option Value)
  /-- A call made by a library function, or of a handler. -/
  | boundary (by' : Option Native)
  /-- A call made by the host, perhaps with a handler of errors. -/
  | hostCall (handler : Option Value)
  /-- The coroutine above was resumed from below. -/
  | resumed (thread : Nat) (wrapped : Bool)

/-- Does a run end at a frame? -/
def Frame.isEnd : Frame → Bool
  | boundary _ => true
  | hostCall _ => true
  | _ => false

/-- What a coroutine is doing. -/
inductive ThreadState where
  /-- It was made for a function that it has not called. -/
  | fresh (body : Value)
  /-- It waits to be resumed, with what it has to go on with, which is part of one run. -/
  | suspended (frames : List Frame) (inside : frames.any Frame.isEnd = false)
  | running
  | dead
  /-- It ended with an error, and these variables of it are still to be closed. -/
  | failed (error : Value) (pending : List Value)
  deriving Inhabited

/-- A traversal of a string by a pattern. -/
structure Matcher where
  subject : Bytes
  pattern : Bytes
  position : Nat
  /-- The end of the latest match. -/
  lastEnd : Option Nat
  deriving Inhabited

/-- The metatables that all values of a type share. -/
structure TypeMetatables where
  nil : Option Nat := none
  boolean : Option Nat := none
  number : Option Nat := none
  string : Option Nat := none
  function : Option Nat := none
  handle : Option Nat := none
  thread : Option Nat := none
  deriving Inhabited

/-- How many tables every interpreter has from the beginning. -/
def libraryTables : Nat := 18

/-- All objects. -/
structure Heap where
  tables : Array Table
  /-- Those of the libraries are always there. -/
  founded : libraryTables ≤ tables.size
  closures : Array Closure := #[]
  cells : Array Value := #[]
  threads : Array ThreadState := #[]
  matchers : Array Matcher := #[]
  /-- How many handles were given out. -/
  handles : Nat := 0
  metatables : TypeMetatables := {}

namespace Heap

def table (h : Heap) (id : Nat) : Table := h.tables.getD id {}

def closure? (h : Heap) (id : Nat) : Option Closure := h.closures[id]?

def closure (h : Heap) (id : Nat) : Closure := h.closures.getD id default

def cell (h : Heap) (id : Nat) : Value := h.cells.getD id .nil

def thread (h : Heap) (id : Nat) : ThreadState := h.threads.getD id .dead

/-! ### New objects -/

def newTable (h : Heap) (t : Table) : Nat × Heap :=
  (h.tables.size, { h with tables := h.tables.push t, founded := by simpa using Nat.le_succ_of_le h.founded })

def newCell (h : Heap) (v : Value) : Nat × Heap :=
  (h.cells.size, { h with cells := h.cells.push v })

def newClosure (h : Heap) (c : Closure) : Nat × Heap :=
  (h.closures.size, { h with closures := h.closures.push c })

def newThread (h : Heap) (body : Value) : Nat × Heap :=
  (h.threads.size, { h with threads := h.threads.push (.fresh body) })

def newMatcher (h : Heap) (m : Matcher) : Nat × Heap :=
  (h.matchers.size, { h with matchers := h.matchers.push m })

def newHandle (h : Heap) : Nat × Heap := (h.handles, { h with handles := h.handles + 1 })

/-- A function value for code whose captured variables are fresh. -/
def newFunction (h : Heap) (code : Code) : Nat × Heap :=
  let n := code.proto.captures.size
  let upvalues := Array.ofFn fun i : Fin n => h.cells.size + i.val
  { h with cells := h.cells ++ Array.replicate n Value.nil }.newClosure
    ⟨code, upvalues, by simp [upvalues, n]⟩

/-! ### Changes -/

def modifyTable (h : Heap) (id : Nat) (f : Table → Table) : Heap :=
  { h with tables := h.tables.modify id f, founded := by simpa using h.founded }

def setCell (h : Heap) (id : Nat) (v : Value) : Heap :=
  { h with cells := h.cells.setIfInBounds id v }

def setThread (h : Heap) (id : Nat) (t : ThreadState) : Heap :=
  { h with threads := h.threads.setIfInBounds id t }

/-- Makes a captured variable of a function the variable of another cell. -/
def setUpvalue (h : Heap) (id i cell : Nat) : Heap :=
  { h with
    closures := h.closures.modify id fun c =>
      { c with upvalues := c.upvalues.setIfInBounds i cell, sized := by simpa using c.sized } }

/-- A field of a table without metamethods. -/
def rawGet (h : Heap) (id : Nat) (k : Value) : Value :=
  match Key.ofValue? k with
  | some k => (h.table id).get k
  | none => .nil

def rawSet (h : Heap) (id : Nat) (k : Key) (v : Value) : Heap :=
  h.modifyTable id (·.set k v)

def setText (h : Heap) (id : Nat) (name : String) (v : Value) : Heap := h.rawSet id (.text name) v

/-! ### Metatables -/

/-- The metatable of a value. -/
def metatable? (h : Heap) : Value → Option Nat
  | .nil => h.metatables.nil
  | .bool _ => h.metatables.boolean
  | .int _ => h.metatables.number
  | .float _ => h.metatables.number
  | .str _ => h.metatables.string
  | .ref (.table id) => (h.table id).metatable
  | .ref (.closure _) => h.metatables.function
  | .ref (.native _) => h.metatables.function
  | .ref (.handle _) => h.metatables.handle
  | .ref (.cell _) => none
  | .ref (.thread _) => h.metatables.thread

/-- Gives a value, or all values of its type, a metatable. -/
def setMetatable (h : Heap) (v : Value) (m : Option Nat) : Heap :=
  match v with
  | .nil => { h with metatables := { h.metatables with nil := m } }
  | .bool _ => { h with metatables := { h.metatables with boolean := m } }
  | .int _ => { h with metatables := { h.metatables with number := m } }
  | .float _ => { h with metatables := { h.metatables with number := m } }
  | .str _ => { h with metatables := { h.metatables with string := m } }
  | .ref (.table id) => h.modifyTable id fun t => { t with metatable := m }
  | .ref (.closure _) => { h with metatables := { h.metatables with function := m } }
  | .ref (.native _) => { h with metatables := { h.metatables with function := m } }
  | .ref (.handle _) => { h with metatables := { h.metatables with handle := m } }
  | .ref (.cell _) => h
  | .ref (.thread _) => { h with metatables := { h.metatables with thread := m } }

/-- The metamethod of a value for an event; nil when there is none. -/
def metamethod (h : Heap) (v : Value) (event : String) : Value :=
  match h.metatable? v with
  | some m => (h.table m).get (.text event)
  | none => .nil

/-- The name of a value's type, which a metatable can change. -/
def typeName (h : Heap) (v : Value) : Bytes :=
  match v with
  | .ref (.table _) => named
  | .ref (.handle _) => named
  | _ => Bytes.ofString v.typeName
where
  named : Bytes :=
    match h.metamethod v "__name" with
    | .str s => s
    | _ => Bytes.ofString v.typeName

/-! ### Laws -/

theorem table_newTable (h : Heap) (t : Table) (id : Nat) :
    (h.newTable t).2.table id = if id = h.tables.size then t else h.table id := by
  simp only [newTable, table, Array.getD_eq_getD_getElem?, Array.getElem?_push]
  split <;> rfl

theorem table_of_size_le {h : Heap} {t : Nat} (beyond : h.tables.size ≤ t) : h.table t = {} := by
  rw [table, Array.getD_eq_getD_getElem?, Array.getElem?_eq_none beyond, Option.getD_none]

/-- A new table that is empty is what stood there for a table that was none. -/
theorem table_newTable_empty (h : Heap) (t : Nat) : (h.newTable {}).2.table t = h.table t := by
  rw [table_newTable]
  split
  next new => rw [table_of_size_le (Nat.le_of_eq new.symm)]
  next => rfl

theorem table_modifyTable (h : Heap) (id id' : Nat) (f : Table → Table) :
    (h.modifyTable id f).table id' = if id = id' ∧ id' < h.tables.size then f (h.table id') else h.table id' := by
  simp only [modifyTable, table, Array.getD_eq_getD_getElem?, Array.getElem?_modify]
  by_cases inside : id' < h.tables.size
  · simp only [inside, and_true]
    rw [Array.getElem?_eq_getElem inside]
    split <;> rfl
  · simp only [inside, and_false, if_false]
    rw [Array.getElem?_eq_none (Nat.le_of_not_lt inside)]
    split <;> rfl

theorem closure_newFunction (h : Heap) (code : Code) (id : Nat) (other : id ≠ h.closures.size) :
    (h.newFunction code).2.closure id = h.closure id := by
  simp [newFunction, newClosure, closure, Array.getD_eq_getD_getElem?, Array.getElem?_push, other]

theorem code_newFunction (h : Heap) (code : Code) :
    ((h.newFunction code).2.closure h.closures.size).code = code := by
  simp [newFunction, newClosure, closure, Array.getD_eq_getD_getElem?]

/-- The variables of a new function are the cells behind all others. -/
theorem upvalues_newFunction (h : Heap) (code : Code) (i x : Nat) :
    ((h.newFunction code).2.closure h.closures.size).upvalues[i]? = some x ↔
      i < code.proto.captures.size ∧ x = h.cells.size + i := by
  simp [newFunction, newClosure, closure, Array.getD_eq_getD_getElem?, Array.getElem?_ofFn, eq_comm]

@[simp] theorem closure_newTable (h : Heap) (t : Table) (id : Nat) : (h.newTable t).2.closure id = h.closure id := rfl

@[simp] theorem closure_modifyTable (h : Heap) (id id' : Nat) (f : Table → Table) :
    (h.modifyTable id f).closure id' = h.closure id' := rfl

@[simp] theorem table_newFunction (h : Heap) (code : Code) (id : Nat) :
    (h.newFunction code).2.table id = h.table id := rfl

theorem cell_setCell (h : Heap) (x x' : Nat) (v : Value) :
    (h.setCell x v).cell x' = if x = x' ∧ x < h.cells.size then v else h.cell x' := by
  simp only [setCell, cell, Array.getD_eq_getD_getElem?, Array.getElem?_setIfInBounds]
  split
  next same =>
    subst same
    split
    next inside => simp [inside]
    next outside => simp [outside]
  next other => simp [other]

/-- Of all captured variables of all functions one becomes another one. -/
theorem upvalues_setUpvalue (h : Heap) (id i x id' i' : Nat) :
    ((h.setUpvalue id i x).closure id').upvalues[i']? =
      if id = id' ∧ i = i' then (h.closure id').upvalues[i']?.map fun _ => x
      else (h.closure id').upvalues[i']? := by
  simp only [setUpvalue, closure, Array.getD_eq_getD_getElem?, Array.getElem?_modify]
  by_cases same : id = id'
  · subst same
    cases found : h.closures[id]? with
    | none => simp [default]
    | some c =>
      simp only [if_true, true_and, Option.map_some, Option.getD_some, Array.getElem?_setIfInBounds]
      split
      next here =>
        subst here
        by_cases inside : i < c.upvalues.size <;> simp [inside]
      next => rfl
  · simp [same]

theorem closure?_eq_some (h : Heap) {id : Nat} (inside : id < h.closures.size) : h.closure? id = some (h.closure id) := by
  simp [closure?, closure, Array.getD_eq_getD_getElem?, inside]

theorem code_setUpvalue (h : Heap) (id i x id' : Nat) :
    ((h.setUpvalue id i x).closure id').code = (h.closure id').code := by
  simp only [setUpvalue, closure, Array.getD_eq_getD_getElem?, Array.getElem?_modify]
  split
  · cases h.closures[id']? <;> rfl
  · rfl

end Heap

end LuaCapsule.Lua
