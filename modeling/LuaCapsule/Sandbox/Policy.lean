import LuaCapsule.Context.Path

/-! What a sandbox takes away: an ordered list of entries, each of which puts a plain value in
the place of a capability. A policy is a short way to write such a list: nothing, the default
one, one path, several paths, or paths with their replacements. -/

namespace LuaCapsule.Sandbox

/-- The names that lead from the global table to a capability. -/
abbrev CapabilityPath := List String

structure Entry where
  path : CapabilityPath
  replacement : Datum
  deriving Inhabited

/-- What stands in the place of a capability unless the policy says otherwise. -/
def marker : Datum := .text "sandboxed"

def removed (path : CapabilityPath) : Entry := ⟨path, marker⟩

/-- The capabilities that are taken away when nothing else is said. -/
def defaults : List Entry :=
  ([["io"], ["file"], ["os", "execute"], ["os", "exit"], ["os", "getenv"], ["os", "remove"],
    ["os", "rename"], ["os", "tmpname"], ["package"], ["loadfile"], ["require"], ["dofile"],
    ["load"], ["loadstring"]]).map removed

/-! ### Paths -/

/-- The name of the global table in paths. -/
def globalName : String := "_G"

def isSeparator (c : Char) : Bool := c == '.' || c == '/'

/-- The segments that a path is spelled with. -/
def spelled? : Datum → Option (List String)
  | .text s => some (Path.parts isSeparator s)
  | .list items => items.mapM Datum.asText?
  | .tuple items => items.mapM Datum.asText?
  | .bytes b => if b.size == 0 then some [] else none
  | _ => none

/-- Segments without the name of the global table in front. -/
def dropGlobal : List String → List String
  | [] => []
  | first :: rest => if first == globalName then rest else first :: rest

/-- The path that a value spells. -/
def parsePath (d : Datum) : Except Fault CapabilityPath :=
  match spelled? d with
  | none => .error (.init ("invalid sandbox path " ++ d.literal))
  | some segments =>
    match dropGlobal segments with
    | [] => .error (.init ("empty sandbox path " ++ d.literal))
    | path => .ok path

/-! ### Policies -/

/-- Is a value a bare name, without separators? -/
def isBareName : Datum → Bool
  | .text s => s != "" && !s.toList.any isSeparator
  | _ => false

/-- The entries of a list: bare names alone make one path together. -/
def ofItems (policy : Datum) (items : List Datum) : Except Fault (List Entry) :=
  if !items.isEmpty && items.all isBareName then
    (parsePath policy).map fun path => [removed path]
  else items.mapM fun d => (parsePath d).map removed

/-- The entries that a policy stands for. -/
def normalize (policy : Datum) (defaults : List Entry) : Except Fault (List Entry) :=
  match policy with
  | .null => .ok []
  | .bool false => .ok []
  | .bool true => .ok defaults
  | .mapping entries => entries.mapM fun (k, v) => (parsePath k).map fun path => ⟨path, v⟩
  | .list items => ofItems policy items
  | .tuple items => ofItems policy items
  | d => .error (.init ("unsupported sandbox policy " ++ d.literal))

end LuaCapsule.Sandbox
