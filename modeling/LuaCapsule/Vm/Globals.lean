import LuaCapsule.Codec.Encode
import LuaCapsule.Vm.Call

/-! The global variables of an interpreter as the host reads and writes them. -/

namespace LuaCapsule.Vm

open Lua

/-- The value of a global variable. -/
def global (name : String) : VmM Value := do
  let v ← index (.table Fixed.globals) (.text name)
  if Codec.isText v then return v else throw .undecodable

/-- What the host can tell of a global variable without decoding it. -/
structure Aspect where
  /-- The kind of a value that is no scalar. -/
  kind : Option String
  /-- Is a table marked as a list? -/
  sequence : Option Bool

/-- The aspect of a global variable. -/
def globalAspect (name : String) : VmM Aspect := do
  let v ← global name
  let h ← getHeap
  modifyHeap (afterSeeing · v)
  match v with
  | .ref (.table id) => return ⟨kind? h v, some (← isSequence id)⟩
  | v => return ⟨kind? h v, none⟩

def setGlobal (name : String) (v : Value) : VmM Unit :=
  store (.table Fixed.globals) (.text name) v

/-- Why a path cannot be set: one of its proper beginnings is no table. -/
def pathFault (path : List String) (depth : Nat) : Fault :=
  .init ("cannot set " ++ (Datum.text (".".intercalate path)).literal ++ ": "
    ++ (Datum.text (".".intercalate (path.take depth))).literal ++ " is not a table")

/-- The table that the segments of a path lead to; missing tables are made. `depth` segments
have been followed already. -/
def parent (path : List String) : Nat → Nat → List String → VmM Nat
  | _, t, [] => return t
  | depth, t, key :: rest => do
    let child ← index (.table t) (.text key)
    see child
    match child with
    | .nil =>
      let new ← make (·.newTable {})
      store (.table t) (.text key) (.table new)
      parent path (depth + 1) new rest
    | .ref (.table id) => parent path (depth + 1) id rest
    | _ => throw (pathFault path (depth + 1))

/-- Sets the value at a path of global names. -/
def setPath (path : List String) (v : Codec.Item) : VmM Unit := do
  let t ← parent path 0 Fixed.globals path.dropLast
  match path.getLast? with
  | some key =>
    let v ← VmM.ofExcept v.value
    store (.table t) (.text key) v
  | none => throw .badIndex

end LuaCapsule.Vm
