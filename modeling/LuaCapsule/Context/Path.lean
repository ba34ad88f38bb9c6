import LuaCapsule.Context.Private
import LuaCapsule.Datum.Display

/-! Access to structured values by paths. A path is a text of segments with slashes between
them, or the segments themselves. Only mappings are entered, and the private slot is never
seen. -/

namespace LuaCapsule.Path

/-- The parts of a text between characters of a kind, without the empty ones. -/
def parts (isSeparator : Char → Bool) (s : String) : List String :=
  ((s.toList.splitOnP isSeparator).filter fun cs => !cs.isEmpty).map String.ofList

/-- The segments of a path. -/
def split : Datum → Except Fault (List String)
  | .text s => .ok (parts (· == '/') s)
  | .list items => .ok (items.map Datum.display)
  | .tuple items => .ok (items.map Datum.display)
  | .mapping entries => .ok (entries.map fun e => e.1.display)
  | .bytes b => .ok (b.data.toList.map fun c => toString c.toNat)
  | .host .set => .ok []
  | _ => .error .wrongType

/-- The value that segments lead to. -/
def follow : List String → Datum → Option Datum
  | [], d => some d
  | segment :: rest, d =>
    match d with
    | .mapping entries =>
      if Private.key.sameKey (.text segment) then none
      else (Datum.lookup (.text segment) entries).bind (follow rest)
    | _ => none

/-- The value at a path. -/
def get? (path container : Datum) : Except Fault (Option Datum) :=
  (split path).map fun segments => follow segments container

/-- The value of the first container and path that have one. -/
def first? : List (Datum × Datum) → Except Fault (Option Datum)
  | [] => .ok none
  | (container, path) :: rest => do
    match ← get? path container with
    | some d => return some d
    | none => first? rest

/-- The value of a field. -/
def field? (name : String) (container : Datum) : Option Datum := follow [name] container

end LuaCapsule.Path
