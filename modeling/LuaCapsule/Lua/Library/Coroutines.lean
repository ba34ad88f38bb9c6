import LuaCapsule.Lua.Library.Arguments

/-! The coroutine library, but for passing control, which is the machine's own: making
coroutines, asking about them and closing them. -/

namespace LuaCapsule.Lua.Coroutines

/-- The coroutine that is running. -/
def current (frames : List Frame) : Nat :=
  (frames.findSome? fun f => match f with | .resumed t _ => some t | _ => none).getD 0

/-- Can the running coroutine yield? There must be one, and no call of a library function in
between. -/
def canYield : List Frame → Bool
  | [] => false
  | .resumed .. :: _ => true
  | .boundary _ :: _ => false
  | .hostCall _ :: _ => false
  | _ :: rest => canYield rest

def create : Library := fun s => do
  let f ← s.checkFunction 1
  return [.thread (← make (·.newThread f))]

def wrap : Library := fun s => do
  let f ← s.checkFunction 1
  return [.native (.wrapped (← make (·.newThread f)))]

def statusOf (st : State) (t : Nat) : String :=
  if current st.frames == t then "running"
  else
    match st.heap.thread t with
    | .fresh _ => "suspended"
    | .suspended .. => "suspended"
    | .running => "normal"
    | .dead => "dead"
    | .failed .. => "dead"

def status : Library := fun s => do
  let t ← s.checkThread 1
  return [.text (statusOf (← get) t)]

def running : Library := fun _ => do
  let t := current (← get).frames
  return [.thread t, .bool (t == 0)]

def isyieldable : Library := fun s => do
  match s.arg 1 with
  | .ref (.thread t) =>
    if current (← get).frames == t then return [.bool (canYield (← get).frames)]
    else return [.bool (t != 0)]
  | _ => return [.bool (canYield (← get).frames)]

/-- The variables of a call that are still to be closed, latest first. -/
def pending (frames : List Frame) : List Value :=
  frames.flatMap fun f => match f with | .activation a => a.marked.map (·.2) | _ => []

/-- Closes variables, each with the error that there is so far. What waits for a call that fails is
given up. -/
def closeAll (call : Value → List Value → M (List Value)) :
    List Value → Option Failure → M (Option Failure)
  | [], e => return e
  | v :: rest, e => do
    let st ← get
    let e' ←
      tryCatch
        (do
          let _ ← call (st.heap.metamethod v "__close") [v, (e.map Failure.value).getD .nil]
          pure e) fun
        | .exhausted => throw .exhausted
        | f => do
          modify fun st' => { st' with frames := st.frames }
          pure (some f)
    closeAll call rest e'

def close : Library := fun s => do
  let t ← s.checkThread 1
  let st ← get
  let shut (locals : List Value) (e : Option Failure) : M (List Value) := do
    modify fun st =>
      { st with heap := st.heap.setThread t .running, frames := .resumed t false :: st.frames }
    let e ← closeAll s.call locals e
    modify fun st' => { st' with heap := st'.heap.setThread t .dead, frames := st.frames }
    match e with
    | none => return [.bool true]
    | some f => return [.bool false, f.value]
  match st.heap.thread t with
  | .fresh _ => shut [] none
  | .suspended frames _ => shut (pending frames) none
  | .dead => shut [] none
  | .failed e locals => shut locals (some (.raised e true))
  | .running => raiseText s!"cannot close a {statusOf st t} coroutine"

/-- A function of the coroutine library that passes no control. -/
def run : CoroutineFn → Library
  | .close => close
  | .create => create
  | .isyieldable => isyieldable
  | .resume => fun _ => return []
  | .running => running
  | .status => status
  | .wrap => wrap
  | .yield => fun _ => return []

end LuaCapsule.Lua.Coroutines
