import LuaCapsule.Lua.Access
import LuaCapsule.Lua.Library.Fixed
import LuaCapsule.Lua.State

/-! What library functions share: the arguments of a call with the checks on them, and
operations on values that may call back into the program. -/

namespace LuaCapsule.Lua

/-- A call of a library function. -/
structure Site where
  function : Native
  /-- How messages name the function, if the code of the caller does not say it. -/
  calledAs : Option Origin
  arguments : List Value
  /-- Calls a function and gives all its results. -/
  call : Value → List Value → M (List Value)

/-- A library function, as what its call does. -/
abbrev Library := Site → M (List Value)

namespace Site

/-! ### Arguments, counted from 1 -/

def arg? (s : Site) (i : Nat) : Option Value := s.arguments[i - 1]?

/-- An argument; nil when it is missing. -/
def arg (s : Site) (i : Nat) : Value := (s.arg? i).getD .nil

/-- Is an argument missing or nil? -/
def isAbsent (s : Site) (i : Nat) : Bool := s.arg i == .nil

/-- The name of a function in messages when its caller has none. -/
def fallbackName (s : Site) : Bytes := Bytes.ofString (s.function.path?.getD "?")

/-- An error about an argument. A method call does not count its object. -/
def argumentError (s : Site) (i : Nat) (message : Bytes) : M α := do
  let say (i : Nat) (name : Bytes) : M α :=
    raiseHere (Bytes.ofString s!"bad argument #{i} to '" ++ name ++ Bytes.ofString "' (" ++ message
      ++ Bytes.ofString ")")
  match s.calledAs.getD (calleeOrigin (← get).frames) with
  | .named "method" name =>
    if i == 1 then
      raiseHere (Bytes.ofString "calling '" ++ name ++ Bytes.ofString "' on bad self ("
        ++ message ++ Bytes.ofString ")")
    else say (i - 1) name
  | .named _ name => say i name
  | .unknown => say i s.fallbackName

def argumentFault (s : Site) (i : Nat) (message : String) : M α :=
  s.argumentError i (Bytes.ofString message)

/-- The name of the type of an argument in messages. -/
def argumentType (s : Site) (i : Nat) : M Bytes := do
  match s.arg? i with
  | none => return Bytes.ofString "no value"
  | some v =>
    let h ← getHeap
    match h.metamethod v "__name" with
    | .str n => return n
    | _ => return Bytes.ofString v.typeName

def typeError (s : Site) (i : Nat) (expected : String) : M α := do
  s.argumentError i (Bytes.ofString (expected ++ " expected, got ") ++ (← s.argumentType i))

def checkAny (s : Site) (i : Nat) : M Value := do
  match s.arg? i with
  | some v => return v
  | none => s.argumentFault i "value expected"

def checkTable (s : Site) (i : Nat) : M Nat := do
  match s.arg i with
  | .ref (.table id) => return id
  | _ => s.typeError i "table"

def checkFunction (s : Site) (i : Nat) : M Value := do
  let v := s.arg i
  if Heap.isFunction v then return v else s.typeError i "function"

def checkThread (s : Site) (i : Nat) : M Nat := do
  match s.arg i with
  | .ref (.thread id) => return id
  | _ => s.typeError i "coroutine"

/-- A number, or a string that is the numeral of one. -/
def checkNumber (s : Site) (i : Nat) : M Value := do
  match numberOf? (s.arg i) with
  | some v => return v
  | none => s.typeError i "number"

def checkInt (s : Site) (i : Nat) : M Int64 := do
  match numberOf? (s.arg i) with
  | some v =>
    match v.integer? with
    | some n => return n
    | none => s.argumentFault i "number has no integer representation"
  | none => s.typeError i "number"

def checkDouble (s : Site) (i : Nat) : M Binary64 := do
  return (← s.checkNumber i).double?.getD .zero

def optInt (s : Site) (i : Nat) (default : Int) : M Int := do
  if s.isAbsent i then return default else return (← s.checkInt i).toInt

def checkString (s : Site) (i : Nat) : M Bytes := do
  match stringOf? (s.arg i) with
  | some b => return b
  | none => s.typeError i "string"

def optString (s : Site) (i : Nat) (default : Bytes) : M Bytes := do
  if s.isAbsent i then return default else s.checkString i

/-! ### Operations that may call back -/

/-- The first result of a call. -/
def call1 (s : Site) (f : Value) (args : List Value) : M Value := do
  return (← s.call f args).headD .nil

/-- The value of an operation inside a library function. -/
def resolve (s : Site) (o : Outcome) : M Value := do
  match o with
  | .value v => return v
  | .call f args => s.call1 f args
  | .fault c => raiseBare (c.message (← getHeap) .unknown .unknown)

def index (s : Site) (o k : Value) : M Value := do s.resolve ((← getHeap).index o k)

def store (s : Site) (o k v : Value) : M Unit := do
  match (← getHeap).store o k v with
  | .entry id key => setEntry id key v
  | .call f args => let _ ← s.call f args
  | .fault c => raiseBare (c.message (← getHeap) .unknown .unknown)

def lessThan (s : Site) (a b : Value) : M Bool := do
  return (← s.resolve ((← getHeap).ordered true a b)).truthy

/-- The length of an object, which must be an integer. -/
def length (s : Site) (o : Value) : M Int := do
  match (← s.resolve ((← getHeap).unary .len o)).integer? with
  | some n => return n.toInt
  | none => raiseText "object length is not an integer"

/-- The text of a value, which a metamethod can give. -/
def toText (s : Site) (v : Value) : M Bytes := do
  let h ← getHeap
  match h.metamethod v "__tostring" with
  | .nil =>
    match v with
    | .nil => return Bytes.ofString "nil"
    | .bool b => return Bytes.ofString (if b then "true" else "false")
    | .str b => return b
    | .int i => return Bytes.ofString (toString i.toInt)
    | .float x => return Bytes.ofString (doubleText x)
    | .ref r =>
      let name := match h.metamethod v "__name" with
        | .str n => n
        | _ => Bytes.ofString v.typeName
      return name ++ Bytes.ofString (": " ++ r.address)
  | f =>
    match ← s.call1 f [v] with
    | .str b => return b
    | .int i => return Bytes.ofString (toString i.toInt)
    | .float x => return Bytes.ofString (doubleText x)
    | _ => raiseText "'__tostring' must return a string"

end Site

end LuaCapsule.Lua
