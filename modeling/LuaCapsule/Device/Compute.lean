import LuaCapsule.Context.Request
import LuaCapsule.Device.Basic

/-! Computing with a context: a call of a function of its program. A result that is a mapping
becomes the next context and takes the private slot along; any other result leaves the context
as it is. -/

namespace LuaCapsule

/-- A result and the context after it. -/
structure Computed where
  value : Datum
  next : Successor
  deriving Inhabited

namespace Device

/-- The keys that are served around the device and never by a program. -/
def reservedKeys : List String := ["keys", "set"]

def isReserved (key : Datum) : Bool := reservedKeys.any fun k => key.sameKey (.text k)

/-- What a device says of itself and a context. -/
def info (context : Datum) : Except Fault Datum := do
  let shared ← Private.publicEntries context
  return .mapping [(.text "default", .text "compute"),
    (.text "excludes", .list (reservedKeys.map .text ++ shared.map (·.1)))]

/-- Calls a function of an interpreter, and decodes its result. -/
def call (device : Device) (function : String) (args : List Datum) : VmM Datum := do
  let table ← Codec.encode (.list args)
  let result ← Vm.invoke function table args.length
  Codec.decode device.settings.maxDecodeDepth result

/-- The context after a result: the result itself, if it is a mapping. -/
def successor (value : Datum) (before : Successor) : Except Fault Successor :=
  match value with
  | .mapping _ => do
    let slot ← Private.slot before.context
    return ⟨← Private.merge value (.mapping slot), false⟩
  | _ => .ok before

/-- Calls the function for a key on a context. -/
def compute (device : Device) (key context request : Datum) : DeviceM Computed := do
  let before ← device.ensureLive context
  let request := Request.normalize request
  let found ← DeviceM.ofExcept (device.state? before.context)
  let function ← DeviceM.ofExcept (Request.functionName key before.context request)
  let params ← DeviceM.ofExcept (Request.parameters before.context request)
  let value ← DeviceM.within (found.getD .null) (device.call function (Request.arguments params))
  return ⟨value, ← DeviceM.ofExcept (successor value before)⟩

/-- The public value of a context under a key, or else the result of the function for it. -/
def resolve (device : Device) (key context request : Datum) : DeviceM Computed := do
  let shared ← DeviceM.ofExcept (Private.publicEntries context)
  DeviceM.ofExcept (Private.checkKey key)
  match Datum.lookup key shared with
  | some v => if isReserved key then device.compute key context request else return ⟨v, ⟨context, true⟩⟩
  | none => device.compute key context request

end Device

end LuaCapsule
