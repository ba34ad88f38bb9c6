import LuaCapsule.Fault
import LuaCapsule.Lua.Machine

/-! Live interpreters: the objects of an interpreter between two calls of the host, and
operations of the host on them. What an operation did before it failed stays done. -/

namespace LuaCapsule

/-- A live interpreter. -/
structure Vm where
  heap : Lua.Heap
  /-- The memory that it was given, in bytes; zero and nothing set no limit. -/
  memory : Option Int

/-- An operation of the host on an interpreter. -/
abbrev VmM := EStateM Fault Vm

instance : Inhabited (VmM α) := ⟨throw .outOfMemory⟩

/-- A result that depends on no interpreter. -/
def VmM.ofExcept : Except Fault α → VmM α
  | .ok a => return a
  | .error f => throw f

section Laws

variable {α β ε σ : Type} {s s' : σ} {act : EStateM ε σ α} {next : α → EStateM ε σ β}

/-- After an operation that succeeds comes the next one. -/
theorem bind_of_ok {a : α} (done : act s = .ok a s') : (act >>= next) s = next a s' := by
  change EStateM.bind act next s = _
  rw [EStateM.bind, done]

/-- What comes after an operation that fails is not tried. -/
theorem bind_of_error {f : ε} (failed : act s = .error f s') : (act >>= next) s = .error f s' := by
  change EStateM.bind act next s = _
  rw [EStateM.bind, failed]

/-- An operation that succeeds succeeds in its parts. -/
theorem bind_eq_ok {b : β} : (act >>= next) s = .ok b s' ↔ ∃ a s₁, act s = .ok a s₁ ∧ next a s₁ = .ok b s' := by
  change EStateM.bind act next s = _ ↔ _
  rw [EStateM.bind]
  cases act s with
  | ok a s₁ =>
    constructor
    · exact fun done => ⟨a, s₁, rfl, done⟩
    · rintro ⟨_, _, ⟨⟩, done⟩
      exact done
  | error f s₁ =>
    constructor
    · exact nofun
    · rintro ⟨_, _, ⟨⟩, _⟩

end Laws

namespace Vm

open Lua

/-- What the host itself needs of an interpreter's memory. -/
def leastCap : Nat := 50000

/-- A fresh interpreter with so much memory. -/
def fresh (memory : Option Int) : Except Fault Vm :=
  match memory with
  | none => .ok ⟨Fixed.heap, none⟩
  | some n =>
    if n < 0 || word64Limit ≤ n then .error .overflow
    else if n != 0 && n < leastCap then .error .outOfMemory
    else .ok ⟨Fixed.heap, some n⟩

/-- The size beyond which no object of an interpreter can grow. -/
def cap (vm : Vm) : Option Nat :=
  match vm.memory with
  | some (.ofNat (n + 1)) => some (n + 1)
  | _ => none

/-- The version that interpreters name. -/
def version : String := "Lua 5.4"

/-! ### Operations -/

def getHeap : VmM Heap := return (← get).heap

theorem getHeap_bind (next : Heap → VmM α) (vm : Vm) : (getHeap >>= next) vm = next vm.heap vm := rfl

def modifyHeap (f : Heap → Heap) : VmM Unit := modify fun vm => { vm with heap := f vm.heap }

/-- Makes an object. -/
def make (f : Heap → Nat × Heap) : VmM Nat :=
  modifyGet fun vm => let (id, h) := f vm.heap; (id, { vm with heap := h })

/-- Lets the interpreter run. -/
def run (act : M α) : VmM (Except Failure α) := fun vm =>
  match act { heap := vm.heap, cap := vm.cap } with
  | .ok a st => .ok (.ok a) { vm with heap := st.heap }
  | .error e st => .ok (.error e) { vm with heap := st.heap }

/-- The text of an error as it leaves the interpreter: that of a string or a number, and none
of anything else. -/
def errorText : Value → Except Fault String
  | v =>
    match stringOf? v with
    | some b =>
      match b.toText? with
      | some s => .ok s
      | none => .error .undecodable
    | none => .ok ""

/-- The text of a failure. -/
def failureText : Failure → Except Fault String
  | .raised v _ => errorText v
  | .memory => .ok ""
  | .exhausted => .ok "too many steps"

/-- Lets the interpreter run; a failure is a fault of its own. -/
def runOrFail (act : M α) : VmM α := do
  match ← run act with
  | .ok a => return a
  | .error .memory => throw .outOfMemory
  | .error f =>
    match failureText f with
    | .ok s => throw (.engine s)
    | .error f => throw f

/-! ### Access with metamethods -/

/-- The value of an operation that may have to call a function. -/
def resolve (o : Outcome) : M Value := do
  match o with
  | .value v => return v
  | .call f args => return (← Machine.callFunction none f args).headD .nil
  | .fault c => raiseBare (c.message (← Lua.getHeap) .unknown .unknown)

/-- The value under a key of an object. -/
def index (o k : Value) : VmM Value := runOrFail do resolve ((← Lua.getHeap).index o k)

/-- Stores a value under a key of an object. -/
def store (o k v : Value) : VmM Unit := do
  match (← getHeap).store o k v with
  | .entry id key => modifyHeap (·.rawSet id key v)
  | .call f args => let _ ← runOrFail (Machine.callFunction none f args)
  | .fault c => throw (.engine (c.message (← getHeap) .unknown .unknown).toText)

/-! ### Values that the host sees -/

/-- The kind of a value that is no scalar. A coroutine that has not begun shows as the
function it was made for. -/
def kind? (h : Heap) : Value → Option String
  | .ref (.table _) => some "table"
  | .ref (.closure _) => some "function"
  | .ref (.native _) => some "function"
  | .ref (.handle _) => some "userdata"
  | .ref (.cell _) => some "userdata"
  | .ref (.thread t) =>
    match h.thread t with
    | .fresh _ => some "function"
    | _ => some "thread"
  | _ => none

/-- The objects after the host has seen a value: a coroutine that has not begun gives its
function away. -/
def afterSeeing (h : Heap) : Value → Heap
  | .ref (.thread t) =>
    match h.thread t with
    | .fresh _ => h.setThread t .dead
    | _ => h
  | _ => h

/-- Shows a value to the host. A string must be text. -/
def see (v : Value) : VmM Unit := do
  if let .str b := v then
    if b.toText?.isNone then throw .undecodable
  modifyHeap (afterSeeing · v)

/-! ### Lists -/

/-- The handler of errors of the host's calls: the trace function, if it can be found. -/
def traceHandler : M (Option Value) := do
  match ← resolve ((← Lua.getHeap).index (.table Fixed.globals) (.text "debug")) with
  | .ref (.table t) =>
    let f ← resolve ((← Lua.getHeap).index (.table t) (.text "traceback"))
    return if Heap.isFunction f then some f else none
  | _ => return none

/-- Is a table marked as a list? The language compares its metatable with that of lists, so that
two metatables that differ may still be called equal by what one of them has for its own metatable. -/
def isSequence (id : Nat) : VmM Bool := do
  let h ← getHeap
  match (h.table id).metatable with
  | none => return false
  | some m =>
    match h.equal (.table m) (.table Fixed.sequence) with
    | .value v => return v.truthy
    | answer =>
      let results ← runOrFail do
        let handler ← traceHandler
        Machine.asHost handler do
          let v ← Reporting.atLine 106 (resolve answer)
          Machine.deliver [.bool v.truthy] (← get).frames
      return (results.headD .nil).truthy

end Vm

end LuaCapsule
