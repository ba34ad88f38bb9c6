import LuaCapsule.Context.Script
import LuaCapsule.Sandbox.Enforce
import LuaCapsule.Settings

/-! A device and the interpreters that its contexts hold. A context names its interpreter by a
handle in its private slot; the interpreters themselves live beside the contexts, so that
copies of a context share one. -/

namespace LuaCapsule

structure Device where
  settings : Settings
  store : Option Artifact.Store
  /-- What a sandbox takes away when it is only asked for. -/
  defaults : List Sandbox.Entry

/-- The live interpreters, by handle. -/
abbrev Fleet := Array Vm

/-- An operation on a device. What an interpreter did before a failure stays done. -/
abbrev DeviceM := EStateM Fault Fleet

/-- A context after an operation. -/
structure Successor where
  context : Datum
  /-- Is it the very context that was given, and not a copy? -/
  isSame : Bool
  deriving Inhabited

namespace DeviceM

/-- A result that depends on no interpreter. -/
def ofExcept : Except Fault α → DeviceM α
  | .ok a => return a
  | .error f => throw f

/-- Adds an interpreter. -/
def add (vm : Vm) : DeviceM Datum :=
  modifyGet fun fleet => (.live fleet.size, fleet.push vm)

/-- The interpreter that a value names. Nothing else can be used as one. -/
def vmOf : Datum → DeviceM Vm
  | .live n => do
    match (← get)[n]? with
    | some vm => return vm
    | none => throw .noAttribute
  | _ => throw .noAttribute

/-- Lets the interpreter of a value act. -/
def within (d : Datum) (act : VmM α) : DeviceM α := do
  let vm ← vmOf d
  match act vm with
  | .ok a vm => do replace vm; return a
  | .error f vm => do replace vm; throw f
where
  replace (vm : Vm) : DeviceM Unit :=
    match d with
    | .live n => modify fun fleet => fleet.setIfInBounds n vm
    | _ => return

end DeviceM

namespace Device

/-! ### The life of an interpreter -/

/-- What the private slot of a context holds in the place of an interpreter. -/
def state? (device : Device) (context : Datum) : Except Fault (Option Datum) :=
  (Private.get? (.text device.settings.stateKey) context).map
    fun found => found.filter fun d => !d.isNull

/-- Does a context have an interpreter? -/
def isInitialized (device : Device) (context : Datum) : Except Fault Bool :=
  (device.state? context).map Option.isSome

/-- A context with a value in the place of its interpreter. -/
def withState (device : Device) (context vm : Datum) : Except Fault Datum :=
  Private.set context (.text device.settings.stateKey) vm

/-- A program in a fresh interpreter under a policy. -/
def start (device : Device) (program : String) (policy : Datum) : Except Fault Vm := do
  let vm ← Vm.fresh device.settings.maxMemory
  match (do Vm.load program; let _ ← Sandbox.enforce device.defaults policy : VmM Unit) vm with
  | .ok _ vm => return vm
  | .error f _ => throw f

/-- A context with the interpreter of its program, which is started only if there is none. -/
def ensureLive (device : Device) (context : Datum) : DeviceM Successor := do
  if ← DeviceM.ofExcept (device.isInitialized context) then return ⟨context, true⟩
  let program ← DeviceM.ofExcept (Script.find context device.store)
  let shared ← DeviceM.ofExcept (Private.publicView context)
  let policy := (Path.field? "sandbox" shared).getD (.bool false)
  let vm ← DeviceM.ofExcept (device.start program policy)
  return ⟨← DeviceM.ofExcept (device.withState context (← DeviceM.add vm)), false⟩

end Device

end LuaCapsule
