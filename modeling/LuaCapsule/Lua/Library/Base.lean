import LuaCapsule.Lua.BinaryForm
import LuaCapsule.Lua.Generator
import LuaCapsule.Lua.Library.Coroutines

/-! The base library, but for protected calls, which are the machine's own. Nothing here
reaches outside the interpreter: printing has no effect and no file can be read. -/

namespace LuaCapsule.Lua.Base

/-- Raises a value; a string is marked with the place of a level of calls. -/
def raiseAtLevel (v : Value) (level : Int) : M α := do
  match v with
  | .str b => if level > 0 then raise (.str ((← position level.toNat) ++ b)) else raise v
  | _ => raise v

def error : Library := fun s => do
  let level ← s.optInt 2 1
  raiseAtLevel (s.arg 1) level

def assert : Library := fun s => do
  if (s.arg 1).truthy then return s.arguments
  let _ ← s.checkAny 1
  raiseAtLevel (s.arguments[1]?.getD (.text "assertion failed!")) 1

def getmetatable : Library := fun s => do
  let v ← s.checkAny 1
  let h ← getHeap
  match h.metatable? v with
  | none => return [.nil]
  | some m =>
    match (h.table m).get (.text "__metatable") with
    | .nil => return [.table m]
    | p => return [p]

def setmetatable : Library := fun s => do
  let id ← s.checkTable 1
  let m ←
    match s.arg? 2 with
    | some .nil => pure none
    | some (.ref (.table m)) => pure (some m)
    | _ => s.typeError 2 "nil or table"
  let h ← getHeap
  unless h.metamethod (.table id) "__metatable" == .nil do
    raiseText "cannot change a protected metatable"
  modifyHeap (·.setMetatable (.table id) m)
  return [.table id]

def ipairs : Library := fun s => do
  let v ← s.checkAny 1
  return [.native .ipairsStep, v, .int 0]

def ipairsStep : Library := fun s => do
  let i := (← s.checkInt 2) + 1
  match ← s.index (s.arg 1) (.int i) with
  | .nil => return [.nil]
  | v => return [.int i, v]

/-- The key that enumeration has reached. A float is not taken for the integer it equals. -/
def passedKey? (t : Table) (v : Value) : Option Key := do
  let k ← Key.ofValue? v
  guard (k.value == v && t.isPassed k)
  return k

def next : Library := fun s => do
  let t ← tableOf (← s.checkTable 1)
  let entry ←
    match s.arg 2 with
    | .nil => pure t.first?
    | v =>
      match passedKey? t v with
      | some k => pure (t.next? k)
      | none => raiseBare (Bytes.ofString "invalid key to 'next'")
  match entry with
  | some (k, v) => return [k.value, v]
  | none => return [.nil]

def pairs : Library := fun s => do
  let v ← s.checkAny 1
  match (← getHeap).metamethod v "__pairs" with
  | .nil => return [.native (.base .next), v, .nil]
  | f =>
    let results ← s.call f [v]
    return [results.getD 0 .nil, results.getD 1 .nil, results.getD 2 .nil]

def rawequal : Library := fun s => do
  let a ← s.checkAny 1
  let b ← s.checkAny 2
  return [.bool (Value.rawEq a b)]

def rawget : Library := fun s => do
  let id ← s.checkTable 1
  let k ← s.checkAny 2
  return [(← getHeap).rawGet id k]

def rawlen : Library := fun s => do
  match s.arg 1 with
  | .ref (.table id) => return [.ofNat (← tableOf id).length]
  | .str b => return [.ofNat b.size]
  | _ => s.argumentFault 1 "table or string expected"

def rawset : Library := fun s => do
  let id ← s.checkTable 1
  let k ← s.checkAny 2
  let v ← s.checkAny 3
  match Heap.storeRaw id k with
  | .entry id key => setEntry id key v
  | .fault c => raiseBare (c.message (← getHeap) .unknown .unknown)
  | .call .. => return []
  return [.table id]

def select : Library := fun s => do
  let n : Int := s.arguments.length
  if let .str b := s.arg 1 then
    if b.at0 0 == 35 then return [.int (Int64.ofInt (n - 1))]
  let i := (← s.checkInt 1).toInt
  let i := if i < 0 then n + i else min i n
  if i < 1 then s.argumentFault 1 "index out of range"
  return s.arguments.drop i.toNat

/-- A digit in a base up to 36. -/
def digit (c : UInt8) : Nat :=
  if Bytes.isDigit c then c.toNat - 48 else (Bytes.toUpper c).toNat - 55

/-- An integer in a given base, with blanks around it and perhaps a sign. -/
def intInBase? (b : Bytes) (base : Nat) : Option Int64 :=
  let (negative, body) := Numeral.sign (Numeral.trimLeft b.data.toList)
  let digits := body.takeWhile Bytes.isAlnum
  if digits.isEmpty || !Numeral.isBlank (body.drop digits.length)
    || digits.any (fun c => base ≤ digit c) then none
  else
    let n : Nat := digits.foldl (fun n c => (n * base + digit c) % 18446744073709551616) 0
    some (Int64.ofInt (if negative then -(n : Int) else n))

def tonumber : Library := fun s => do
  if s.isAbsent 2 then
    match numberOf? (s.arg 1) with
    | some v => return [v]
    | none =>
      let _ ← s.checkAny 1
      return [.nil]
  else
    let base := (← s.checkInt 2).toInt
    match s.arg 1 with
    | .str b =>
      unless 2 ≤ base && base ≤ 36 do s.argumentFault 2 "base out of range"
      return [((intInBase? b base.toNat).map Value.int).getD .nil]
    | _ => s.typeError 1 "string"

def tostring : Library := fun s => do
  let v ← s.checkAny 1
  return [.str (← s.toText v)]

def type : Library := fun s => do
  match s.arg? 1 with
  | some v => return [.text v.typeName]
  | none => s.argumentFault 1 "value expected"

/-- The function of a text or a binary form, made in the heap. Its first captured variable is
the given environment. -/
def loadFunction (text name : Bytes) (mode : Bytes) (environment : Value) :
    M (Except Bytes Nat) := do
  let isBinary := text.at0 0 == 0x1b && text.size > 0
  let kind := if isBinary then "binary" else "text"
  if (mode.find? (· == (if isBinary then 98 else 116)) 0).isNone then
    return .error (Bytes.ofString s!"attempt to load a {kind} chunk (mode is '" ++ mode
      ++ Bytes.ofString "')")
  let code : Except Bytes Code :=
    if isBinary then
      match Code.undump text with
      | .ok c => .ok c
      | .error m =>
        let shown := if name.at0 0 == 61 || name.at0 0 == 64 then name.slice 1 name.size else name
        .error (shown ++ Bytes.ofString (": bad binary format (" ++ m ++ ")"))
    else
      match Code.ofSource name text with
      | .ok c => .ok c
      | .error e => .error (Code.faultMessage name e)
  match code with
  | .error m => return .error m
  | .ok code =>
    let id ← make (·.newFunction code)
    match ((← getHeap).closure? id).bind (·.upvalues[0]?) with
    | some cell => modifyHeap (·.setCell cell environment)
    | none => pure ()
    return .ok id

/-- The pieces that a reader function gives, up to an empty one. -/
def readPieces (s : Site) (reader : Value) : Nat → List Bytes → M Bytes
  | 0, _ => throw .exhausted
  | fuel + 1, acc => do
    match ← s.call1 reader [] with
    | .nil => return Bytes.concat acc.reverse
    | v =>
      match stringOf? v with
      | some b =>
        if b.size == 0 then return Bytes.concat acc.reverse
        else readPieces s reader fuel (b :: acc)
      | none => raiseText "reader function must return a string"

/-- The result of something, or the value of its failure. What waited for it is given up then. -/
def outcomeOf (s : Site) (act : M α) : M (Except Value α) := do
  let frames := (← get).frames
  tryCatch (Except.ok <$> act) fun
    | .exhausted => throw .exhausted
    | f => do
      let dropped := (← get).frames.take ((← get).frames.length - frames.length)
      modify fun st => { st with frames, latest := some s.function }
      let e ← Coroutines.closeAll s.call (Coroutines.pending dropped) (some f)
      return .error (e.getD f).value

def load : Library := fun s => do
  let mode ← s.optString 3 (Bytes.ofString "bt")
  let environment := (s.arg? 4).getD (.table Fixed.globals)
  let loaded ←
    match stringOf? (s.arg 1) with
    | some text => do
      let name ← s.optString 2 text
      Except.mapError .str <$> loadFunction text name mode environment
    | none => do
      let name ← s.optString 2 (Bytes.ofString "=(load)")
      let f ← s.checkFunction 1
      match ← outcomeOf s (readPieces s f 1000000 []) with
      | .ok text => Except.mapError .str <$> loadFunction text name mode environment
      | .error v => pure (.error v)
  match loaded with
  | .ok id => return [.closure id]
  | .error v => return [.nil, v]

def print : Library := fun s => do
  for v in s.arguments do
    let _ ← s.toText v
  return []

def collectgarbage : Library := fun s => do
  let option ← s.optString 1 (Bytes.ofString "collect")
  match option.toText with
  | "collect" => return [.int 0]
  | "stop" => return [.int 0]
  | "restart" => return [.int 0]
  | "count" => return [.float (Binary64.ofRatio false 55 2)]
  | "step" => return [.bool true]
  | "isrunning" => return [.bool true]
  | "setpause" => return [.int 200]
  | "setstepmul" => return [.int 100]
  | "incremental" => return [.text "incremental"]
  | "generational" => return [.text "incremental"]
  | o => s.argumentFault 1 s!"invalid option '{o}'"

def warn : Library := fun s => do
  let _ ← s.checkString 1
  return []

/-- The message about a file that cannot be read. -/
def noFile (name : Bytes) : Bytes :=
  Bytes.ofString "cannot open " ++ name

def loadfile : Library := fun s => do
  return [.nil, .str (noFile (← s.optString 1 (Bytes.ofString "stdin")))]

def dofile : Library := fun s => do raiseBare (noFile (← s.optString 1 (Bytes.ofString "stdin")))

def require : Library := fun s => do
  let name ← s.checkString 1
  match (← getHeap).rawGet Fixed.loaded (.str name) with
  | .nil => raiseHere (Bytes.ofString "module '" ++ name ++ Bytes.ofString "' not found:")
  | v => return [v]

/-- A function of the base library; protected calls are not done here. -/
def run : BaseFn → Library
  | .assert => assert
  | .collectgarbage => collectgarbage
  | .dofile => dofile
  | .error => error
  | .getmetatable => getmetatable
  | .ipairs => ipairs
  | .load => load
  | .loadfile => loadfile
  | .next => next
  | .pairs => pairs
  | .pcall => fun _ => return []
  | .print => print
  | .rawequal => rawequal
  | .rawget => rawget
  | .rawlen => rawlen
  | .rawset => rawset
  | .require => require
  | .select => select
  | .setmetatable => setmetatable
  | .tonumber => tonumber
  | .tostring => tostring
  | .typeOf => type
  | .warn => warn
  | .xpcall => fun _ => return []

end LuaCapsule.Lua.Base
