import LuaCapsule.Snapshot.Unchecked
import LuaCapsule.Snapshot.Walk

/-! The keys of a table in the order in which its entries are listed. The order is computed by the
operations of the interpreter itself: the keys are put into a new list as enumeration meets them,
and the table library sorts the list by a comparison that is total on them. -/

namespace LuaCapsule.Snapshot.SortedKeys

open Lua Unchecked

/-! ### Comparison -/

/-- The place of the type of a value among the types of keys. -/
def rank (v : Value) : Nat :=
  match v.typeName with
  | "boolean" => 1
  | "number" => 2
  | "string" => 3
  | _ => 4

/-- Does one key come before another? Objects are compared by their addresses, as texts. -/
def keyLess (a b : Value) : M Value := do
  if rank a != rank b then return .bool (rank a < rank b)
  else if rank a == 1 then return if a.truthy then .bool false else b
  else if rank a == 4 then
    let p ← library 30 (.string .format) "format" [.text "%p", a]
    let q ← library 30 (.string .format) "format" [.text "%p", b]
    Walk.settle 30 (·.ordered true (p.headD .nil) (q.headD .nil))
  else Walk.settle 31 (·.ordered true a b)

/-! ### The list of keys -/

/-- Adds keys behind the last item of a list. -/
def append (list : Value) : List Key → M Unit
  | [] => return
  | k :: keys => do
    let n ← Walk.settle 36 (·.unary .len list)
    let place ← Walk.settle 36 (·.arith .add n (.int 1))
    Walk.store 36 "keys" list place k.value
    append list keys

/-- The call that sorts a list of keys. The comparison is passed as the function `order`. -/
def sorting (order list : Value) : Site where
  function := .table .sort
  calledAs := some (origin "upvalue" "sort")
  arguments := [list, order]
  call _ args := do return [← keyLess (args.getD 0 .nil) (args.getD 1 .nil)]

/-- A new list of keys, sorted after they were met in some order. -/
def sortedList (order : Value) (keys : List Key) : M Value := do
  let list := Value.table (← newTable {})
  append list keys
  let _ ← Reporting.atLine 37 (Tables.sort (sorting order list))
  return list

/-- A new list of the keys of a table. -/
def sortedKeys (order : Value) (id : Nat) : M Value := do
  sortedList order ((← tableOf id).enumerate.map Prod.fst)

end LuaCapsule.Snapshot.SortedKeys
