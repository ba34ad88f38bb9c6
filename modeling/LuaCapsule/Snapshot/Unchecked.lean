import LuaCapsule.Codec.Encode
import LuaCapsule.Snapshot.Record
import LuaCapsule.Vm.Call

/-! Rebuilding a heap from values that need not be a listing in order. The records are values
of the interpreter itself, and whatever they hold is taken as the operations of the language
take it: what is missing is nil, numbers count as text where text is wanted, and what cannot
be used at all raises an error at its line. -/

namespace LuaCapsule.Snapshot.Unchecked

open Lua

/-! ### Operations at a line -/

def origin (kind name : String) : Origin := .named kind (Bytes.ofString name)

/-- A library function called at a line. -/
def library (line : Nat) (f : Native) (name : String) (args : List Value) : M (List Value) :=
  Reporting.atLine line (f.run ⟨f, some (origin "upvalue" name), args, Machine.callFunction (some f)⟩)

/-- The value under a key of an object that messages name. -/
def access (line : Nat) (object : Origin) (o k : Value) : M Value :=
  Reporting.atLine line do
    let h ← getHeap
    match h.index o k with
    | .value v => return v
    | .call f args => return (← Machine.callFunction none f args).headD .nil
    | .fault c => raiseHere (c.message h object .unknown)

def field (line : Nat) (object : Origin) (o : Value) (name : String) : M Value :=
  access line object o (.text name)

/-- Does something for the items of a list from position `i` on, up to the first missing one. -/
def eachFrom (list : Value) (act : Nat → Value → M Unit) : Nat → Nat → M Unit
  | 0, _ => throw .exhausted
  | fuel + 1, i => do
    match ← Vm.resolve ((← getHeap).index list (.ofNat i)) with
    | .nil => return
    | v =>
      act i v
      eachFrom list act fuel (i + 1)

def each (list : Value) (act : Nat → Value → M Unit) : M Unit := eachFrom list act Machine.maxSteps 1

/-- The text of a value. -/
def display (line : Nat) (v : Value) : M Bytes := do
  match ← library line (.base .tostring) "tostring" [v] with
  | .str b :: _ => return b
  | _ => return .empty

/-! ### Scalars -/

/-- The string that pairs of hexadecimal digits spell; a last single character stays. -/
def unhexFrom : List UInt8 → M (List UInt8)
  | a :: b :: rest => do
    let code := ((Base.intInBase? (Bytes.ofList [a, b]) 16).map Value.int).getD .nil
    let c ← library 84 (.string .char) "char" [code]
    let head :=
      match c with
      | .str s :: _ => s.data.toList
      | _ => []
    return head ++ (← unhexFrom rest)
  | cs => return cs

def unhex (v : Value) : M Bytes := do
  let s : Site :=
    ⟨.string .gsub, some (origin "upvalue" "gsub"), [v], Machine.callFunction (some (.string .gsub))⟩
  let b ← Reporting.atLine 84 (s.checkString 1)
  return Bytes.ofList (← unhexFrom b.data.toList)

def double (v : Value) : Value :=
  if v == .text "nan" then .float .invalid
  else if v == .text "inf" then .float .infinity
  else if v == .text "-inf" then .float Binary64.infinity.neg
  else (numberOf? v).getD .nil

/-! ### Objects -/

/-- The library value under a path. -/
def libraryValue : Value → Value
  | .str b => (b.toText?.bind Fixed.valueOf?).getD .nil
  | _ => .nil

/-- The object of a record. -/
def object (record : Value) : M Value := do
  let named := origin "local" "record"
  let kind ← field 212 named record "kind"
  if kind == .text "table" then
    let path ← field 214 named record "builtin"
    let found ← if path.truthy then pure (libraryValue (← field 214 named record "builtin")) else pure path
    if found.truthy then
      match found with
      | .ref (.table id) => modifyHeap (·.modifyTable id Table.cleared)
      | v =>
        let s : Site := ⟨.base .next, some .iterator, [v], Machine.callFunction (some (.base .next))⟩
        let _ ← Reporting.atLine 36 (s.checkTable 1)
      return found
    else return .table (← newTable {})
  else if kind == .text "native" then
    match libraryValue (← field 222 named record "builtin") with
    | .nil =>
      let path ← field 224 named record "builtin"
      raise (.str (Bytes.ofString "unknown native value '" ++ (← display 224 path)
        ++ Bytes.ofString "'"))
    | v => return v
  else if kind == .text "function" then
    let code ← unhex (← field 228 named record "code")
    match ← Base.loadFunction code (Bytes.ofString "=snapshot") (Bytes.ofString "b")
      (.table Fixed.globals) with
    | .ok id => return .closure id
    | .error m => raise (.str m)
  else
    raise (.str (Bytes.ofString "unknown heap record kind '" ++ (← display 232 kind)
      ++ Bytes.ofString "'"))

/-- The objects of all records, by place. -/
def objects (heap : Value) : M Table := do
  let all ← newTable {}
  each heap fun i record => do
    let o ← object record
    modifyHeap (·.modifyTable all (·.set (.int (Int64.ofNat i)) o))
  tableOf all

/-! ### Contents -/

/-- An object by the value that names its place. -/
def lookup (objects : Table) (place : Value) : Value :=
  match Key.ofValue? place with
  | some k => objects.get k
  | none => .nil

/-- The value that a reference stands for. -/
def value (objects : Table) (r : Value) : M Value := do
  let named := origin "local" "r"
  let tag ← field 237 named r "t"
  if tag == .text "r" then return lookup objects (← field 238 named r "v")
  else if tag == .text "f" then return double (← field 239 named r "v")
  else if tag == .text "x" then return .str (← unhex (← field 240 named r "v"))
  else if tag == .text "nil" then return .nil
  else field 242 named r "v"

def fillTable (objects : Table) (o record : Value) : M Unit := do
  let named := origin "local" "record"
  each (← field 248 named record "entries") fun _ entry => do
    let k ← value objects (← access 249 (origin "local" "entry") entry (.ofNat 1))
    let v ← value objects (← access 249 (origin "local" "entry") entry (.ofNat 2))
    let _ ← library 249 (.base .rawset) "rawset" [o, k, v]
  let metatable ← field 251 named record "metatable"
  let m ←
    if metatable.truthy then value objects (← field 252 named record "metatable") else pure .nil
  let _ ← library (if metatable.truthy then 252 else 254) (.debug .setmetatable) "setmetatable" [o, m]

def fillFunction (objects : Table) (o record : Value) : M Unit := do
  each (← field 257 (origin "local" "record") record "upvalues") fun i up => do
    let named := origin "local" "up"
    let join ← field 258 named up "join"
    if join.truthy then
      let joined := origin "field" "join"
      let owner ← access 259 joined (← field 259 named up "join") (.ofNat 1)
      let index ← access 259 joined (← field 259 named up "join") (.ofNat 2)
      let _ ← library 259 (.debug .upvaluejoin) "upvaluejoin"
        [o, .ofNat i, lookup objects owner, index]
    else
      let v ← value objects (← field 261 named up "value")
      let _ ← library 261 (.debug .setupvalue) "setupvalue" [o, .ofNat i, v]

/-- Is an object the global table? The language compares them, so that a metatable may answer. -/
def isGlobals (o : Value) : M Bool := do
  match (← getHeap).equal o (.table Fixed.globals) with
  | .value v => return v.truthy
  | answer => return (← Reporting.atLine 266 (Vm.resolve answer)).truthy

/-- Rebuilds the heap that records describe. -/
def rebuild (root heap : Value) : M Unit := do
  let objects ← objects heap
  each heap fun i record => do
    let o := objects.getInt i
    let kind ← field 247 (origin "local" "record") record "kind"
    if kind == .text "table" then fillTable objects o record
    else if (← field 256 (origin "local" "record") record "kind") == .text "function" then
      fillFunction objects o record
  unless ← isGlobals (lookup objects root) do
    raise (.text "snapshot root is not the global table")

end LuaCapsule.Snapshot.Unchecked
