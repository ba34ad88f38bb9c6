import LuaCapsule.Device.Basic
import LuaCapsule.Snapshot.Envelope

/-! Snapshots of contexts. A snapshot is stored in its context under a key of the settings, and
there under the key of the device if the context names one, so that several devices can store
theirs in one context. -/

namespace LuaCapsule.Device

/-- The path of the stored snapshot of a context. -/
def snapshotPath (device : Device) (context : Datum) : Except Fault (List String) := do
  let shared ← Private.publicView context
  let parents :=
    match Script.present? "device-key" shared with
    | some key => [device.settings.snapshotKey, key.display]
    | none => [device.settings.snapshotKey]
  return parents ++ ["body"]

/-- The snapshot of the interpreter of a context. -/
def snapshot (device : Device) (context : Datum) : DeviceM Bytes := do
  match ← DeviceM.ofExcept (device.state? context) with
  | none => throw (.of .notInitialized)
  | some d => DeviceM.within d Snapshot.dumps

/-- Entries with a value at a path; what is no mapping on the way gives room for one. -/
def storeAt (value : Datum) : List String → List (Datum × Datum) → List (Datum × Datum)
  | [], es => es
  | [last], es => Datum.insert (.text last) value es
  | segment :: rest, es =>
    let inner :=
      match Datum.lookup (.text segment) es with
      | some (.mapping inner) => inner
      | _ => []
    Datum.insert (.text segment) (.mapping (storeAt value rest inner)) es

/-- A context with a stored snapshot. -/
def attachSnapshot (device : Device) (context blob : Datum) : Except Fault Successor := do
  let path ← device.snapshotPath context
  return ⟨.mapping (storeAt blob path (← Private.entries context)), false⟩

/-- A context with the interpreter of its stored snapshot; a context that has an interpreter
stays as it is. -/
def restore (device : Device) (context : Datum) : DeviceM Successor := do
  if ← DeviceM.ofExcept (device.isInitialized context) then return ⟨context, true⟩
  let path ← DeviceM.ofExcept (device.snapshotPath context)
  let shared ← DeviceM.ofExcept (Private.publicView context)
  match (Path.follow path shared).filter fun d => !d.isNull with
  | none => throw (.snapshotNotFound path)
  | some blob =>
    let vm ← DeviceM.ofExcept (Snapshot.loads blob device.settings.maxMemory)
    return ⟨← DeviceM.ofExcept (device.withState context (← DeviceM.add vm)), false⟩

/-- A context with a snapshot of its interpreter stored in it. -/
def checkpoint (device : Device) (context : Datum) : DeviceM Successor := do
  let blob ← device.snapshot context
  DeviceM.ofExcept (device.attachSnapshot context (.bytes blob))

/-- A copy of a context with an interpreter of its own. -/
def fork (device : Device) (context : Datum) : DeviceM Successor := do
  let blob ← device.snapshot context
  let vm ← DeviceM.ofExcept (Snapshot.loads (.bytes blob) device.settings.maxMemory)
  return ⟨← DeviceM.ofExcept (device.withState context (← DeviceM.add vm)), false⟩

end LuaCapsule.Device
