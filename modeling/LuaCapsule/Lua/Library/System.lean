import LuaCapsule.Lua.Library.Base

/-! What the libraries for files, the operating system and packages do without a world around
them: the clock stands still, no file exists, and what is written goes nowhere. -/

namespace LuaCapsule.Lua.System

/-! ### Handles -/

/-- The standard handles. -/
def stdin : Nat := 0

def stdout : Nat := 1

def stderr : Nat := 2

def checkHandle (s : Site) (i : Nat) : M Nat := do
  match s.arg i with
  | .ref (.handle id) => return id
  | _ => s.typeError i "FILE*"

def noFile (name : Bytes) : List Value :=
  [.nil, .str (name ++ Bytes.ofString ": No such file or directory"), .int 2]

def runStream : StreamFn → Library
  | .close => fun _ => return [.bool true]
  | .flush => fun _ => return [.handle stdout]
  | .input => fun _ => return [.handle stdin]
  | .lines => fun s => do
    let name ← s.optString 1 .empty
    raiseHere (name ++ Bytes.ofString ": No such file or directory")
  | .openFile => fun s => do
    let name ← s.checkString 1
    let mode ← s.optString 2 (Bytes.ofString "r")
    let valid := ["r", "w", "a", "r+", "w+", "a+", "rb", "wb", "ab", "r+b", "w+b", "a+b"]
    unless valid.contains mode.toText do s.argumentFault 2 "invalid mode"
    return noFile name
  | .output => fun _ => return [.handle stdout]
  | .popen => fun s => do
    let _ ← s.checkString 1
    return [.nil, .text "not supported", .int 95]
  | .read => fun _ => return [.nil]
  | .tmpfile => fun _ => return [.handle (← make (·.newHandle))]
  | .typeOf => fun s => do
    match ← s.checkAny 1 with
    | .ref (.handle _) => return [.text "file"]
    | _ => return [.nil]
  | .write => fun s => do
    for i in List.range s.arguments.length do
      let _ ← s.checkString (i + 1)
    return [.handle stdout]

def runHandle : HandleFn → Library
  | .close => fun s => do
    let _ ← checkHandle s 1
    return [.bool true]
  | .flush => fun s => return [.handle (← checkHandle s 1)]
  | .lines => fun s => do
    let _ ← checkHandle s 1
    return [.nil]
  | .read => fun s => do
    let _ ← checkHandle s 1
    return [.nil]
  | .seek => fun s => do
    let _ ← checkHandle s 1
    return [.int 0]
  | .setvbuf => fun s => do
    let _ ← checkHandle s 1
    return [.bool true]
  | .write => fun s => do
    let id ← checkHandle s 1
    for i in List.range (s.arguments.length - 1) do
      let _ ← s.checkString (i + 2)
    return [.handle id]
  | .gc => fun _ => return []
  | .toString => fun s => do
    let id ← checkHandle s 1
    return [.text s!"file ({(Ref.handle id).address})"]

/-! ### The operating system -/

/-- The moment at which the clock stands. -/
def now : Int := 1700000000

/-- The number of days before a month of a year, since the beginning of 1970. -/
def daysBefore (year month : Int) : Int :=
  let y := if month ≤ 2 then year - 1 else year
  let era := Int.fdiv y 400
  let yoe := y - era * 400
  let doy := Int.fdiv (153 * (month + (if month > 2 then -3 else 9)) + 2) 5
  let doe := yoe * 365 + Int.fdiv yoe 4 - Int.fdiv yoe 100 + doy
  era * 146097 + doe - 719468

def dateField (s : Site) (name : String) (default : Option Int) : M Int := do
  match numberOf? (← s.index (s.arg 1) (.text name)) with
  | some v =>
    match v.integer? with
    | some i => return i.toInt
    | none => raiseText s!"field '{name}' is not an integer"
  | none =>
    match default with
    | some d => return d
    | none => raiseText s!"field '{name}' missing in date table"

def time : Library := fun s => do
  if s.isAbsent 1 then return [.int (Int64.ofInt now)]
  let _ ← s.checkTable 1
  let year ← dateField s "year" none
  let month ← dateField s "month" none
  let day ← dateField s "day" none
  let hour ← dateField s "hour" (some 12)
  let min ← dateField s "min" (some 0)
  let sec ← dateField s "sec" (some 0)
  let years := Int.fdiv (month - 1) 12
  let days := daysBefore (year + years) (month - years * 12) + day - 1
  return [.int (Int64.ofInt (((days * 24 + hour) * 60 + min) * 60 + sec))]

def runSystem : SystemFn → Library
  | .clock => fun _ => return [.float (Binary64.ofRatio false 1 8)]
  | .date => fun _ => return [.text "Tue Nov 14 22:13:20 2023"]
  | .difftime => fun s => return [.float ((← s.checkDouble 1).sub (← s.checkDouble 2))]
  | .execute => fun _ => return [.nil, .text "exit", .int 127]
  | .exit => fun _ => raiseText "the interpreter cannot be left"
  | .getenv => fun s => do
    let _ ← s.checkString 1
    return [.nil]
  | .remove => fun s => return noFile (← s.checkString 1)
  | .rename => fun s => return noFile (← s.checkString 1)
  | .setlocale => fun _ => return [.text "C"]
  | .time => time
  | .tmpname => fun _ => return [.text "/tmp/lua_000000"]

/-! ### Packages -/

def runPackage : PackageFn → Library
  | .loadlib => fun s => do
    let _ ← s.checkString 1
    return [.nil, .text "dynamic libraries not enabled; check your Lua installation", .text "absent"]
  | .searchpath => fun s => do
    let name ← s.checkString 1
    return [.nil, .str (Bytes.ofString "no file '" ++ name ++ Bytes.ofString "'")]

def searcher : Library := fun s => do
  let name ← s.checkString 1
  return [.str (Bytes.ofString "no module '" ++ name ++ Bytes.ofString "'")]

end LuaCapsule.Lua.System
