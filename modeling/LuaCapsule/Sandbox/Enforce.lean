import LuaCapsule.Sandbox.Policy
import LuaCapsule.Vm.Globals

/-! Enforcing a sandbox: each capability is overwritten in its interpreter, in the order of the
entries, so that a later entry wins. -/

namespace LuaCapsule.Sandbox

/-- Overwrites the capability of an entry. -/
def overwrite (e : Entry) : VmM Unit := do Vm.setPath e.path (← Codec.item e.replacement)

/-- Enforces a policy, and gives the entries that it stood for. -/
def enforce (defaults : List Entry) (policy : Datum) : VmM (List Entry) := do
  let entries ← VmM.ofExcept (normalize policy defaults)
  entries.forM overwrite
  return entries

end LuaCapsule.Sandbox
