import LuaCapsule.Lua.Heap
import LuaCapsule.Number.Printf

/-! The state of a running interpreter, and how running fails. A failure with a value is an
error of the language, which a protected call can catch; the others end the run. -/

namespace LuaCapsule.Lua

/-- A running interpreter: its objects, and what waits, innermost first. -/
structure State where
  heap : Heap
  frames : List Frame := []
  /-- The size beyond which no object can grow, in bytes. -/
  cap : Option Nat := none
  /-- The library function that is at work. -/
  latest : Option Native := none
  /-- There was no room for the registers of a call, and that error has not landed. -/
  isOverflowing : Bool := false

/-- Why a run ends without a result. -/
inductive Failure where
  /-- An error with its value. A handler may have seen it already. -/
  | raised (v : Value) (handled : Bool)
  | memory
  /-- The bound on the number of steps was reached. -/
  | exhausted
  deriving Inhabited

/-- The message of a failure for want of memory. -/
def memoryMessage : Value := .text "not enough memory"

/-- The value of a failure, as a protected call gives it. -/
def Failure.value : Failure → Value
  | .raised v _ => v
  | _ => memoryMessage

abbrev M := EStateM Failure State

instance : Inhabited (M α) := ⟨throw .exhausted⟩

/-! ### Objects -/

def getHeap : M Heap := return (← get).heap

def modifyHeap (f : Heap → Heap) : M Unit := modify fun s => { s with heap := f s.heap }

/-- Makes an object. -/
def make (f : Heap → Nat × Heap) : M Nat :=
  modifyGet fun s => let (id, h) := f s.heap; (id, { s with heap := h })

def tableOf (id : Nat) : M Table := return (← get).heap.table id

/-- Fails if an object of so many bytes is beyond the cap. -/
def checkSize (n : Nat) : M Unit := do
  match (← get).cap with
  | some cap => if n > cap then throw .memory
  | none => return

/-- Fails if a table is beyond the cap. -/
def checkRoom (id : Nat) : M Unit := do
  let st ← get
  match st.cap with
  | some cap => if (st.heap.table id).bytes > cap then throw .memory
  | none => return

/-- Puts a value under a key of a table. -/
def setEntry (id : Nat) (k : Key) (v : Value) : M Unit := do
  modifyHeap (·.rawSet id k v)
  checkRoom id

/-- Makes a table. Tables that were given up count for a quarter of what they took. -/
def newTable (t : Table) : M Nat := do
  checkSize ((← get).heap.tables.size * 14)
  make (·.newTable t)

/-! ### Where an error happens -/

/-- The place in a text that a function is at. -/
def Activation.place (a : Activation) : Bytes := a.code.place (a.pc - 1)

/-- The place in a text that a frame is at. -/
def Frame.position? : Frame → Option Bytes
  | .activation a => if (a.code.proto.lineOf? (a.pc - 1)).isSome then some a.place else none
  | .host line => some (Bytes.ofString s!"[string \"<python>\"]:{line}: ")
  | _ => none

/-- The frames of the running coroutine, each of which is a level of calls. -/
def levels (frames : List Frame) : List Frame :=
  frames.takeWhile fun f =>
    match f with
    | .resumed .. => false
    | .hostCall _ => false
    | _ => true

/-- The place of a level of calls, counted from 1. -/
def position (level : Nat) : M Bytes := do
  if level == 0 then return .empty
  match (levels (← get).frames)[level - 1]? with
  | some f => return f.position?.getD .empty
  | none => return .empty

/-- How messages name what is called by the innermost of some frames. -/
def calleeOrigin : List Frame → Origin
  | .activation a :: _ => a.code.proto.calleeOrigin (a.pc - 1)
  | _ => .unknown

/-- How messages name a function with the frames below it. -/
def Activation.origin (a : Activation) (below : List Frame) : Origin :=
  if a.isTail then .unknown else calleeOrigin below

/-! ### Errors -/

/-- Raises an error. The message about memory alone stands for its own kind of failure. -/
def raise (v : Value) : M α := throw (if v == memoryMessage then .memory else .raised v false)

/-- An error of an operation inside a library function. -/
def raiseBare (message : Bytes) : M α := raise (.str message)

/-- An error at the place of the function that is running. -/
def raiseHere (message : Bytes) : M α := do raise (.str ((← position 1) ++ message))

def raiseText (message : String) : M α := raiseHere (Bytes.ofString message)

/-! ### Addresses -/

/-- A number that looks like the address of an object. -/
def Ref.address (r : Ref) : String :=
  let (kind, i, j) := r.rank
  let n := 0x55d0c0000000 + ((i * 64 + j) * 8 + kind) * 16
  "0x" ++ Printf.inBase 16 false n

end LuaCapsule.Lua
