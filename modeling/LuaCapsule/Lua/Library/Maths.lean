import LuaCapsule.Lua.Library.Arguments

/-! The mathematical library. Its random numbers are not random. -/

namespace LuaCapsule.Lua.Maths

/-- A whole double as an integer if it fits, and as itself otherwise. -/
def whole (x : Binary64) : Value :=
  match x.toInt64? with
  | some i => .int i
  | none => .float x

def rounded (f : Binary64 → Binary64) : Library := fun s => do
  match s.arg 1 with
  | .int i => return [.int i]
  | _ => return [whole (f (← s.checkDouble 1))]

def onDouble (f : Float → Float) : Library := fun s => do
  return [.float ((← s.checkDouble 1).lift f)]

def abs : Library := fun s => do
  match s.arg 1 with
  | .int i => return [.int (if i < 0 then 0 - i else i)]
  | _ => return [.float (← s.checkDouble 1).abs]

def atan : Library := fun s => do
  let y ← s.checkDouble 1
  let x ← if s.isAbsent 2 then pure (Binary64.ofInt 1) else s.checkDouble 2
  return [.float (Binary64.lift₂ Float.atan2 y x)]

def log : Library := fun s => do
  let x ← s.checkDouble 1
  if s.isAbsent 2 then return [.float (x.lift Float.log)]
  let b ← s.checkDouble 2
  if b.beq (Binary64.ofInt 2) then return [.float (x.lift Float.log2)]
  if b.beq (Binary64.ofInt 10) then return [.float (x.lift Float.log10)]
  return [.float ((x.lift Float.log).div (b.lift Float.log))]

/-- The double nearest to the ratio of a circle's circumference to its diameter. -/
def pi : Binary64 := ⟨0x400921fb54442d18⟩

def deg : Library := fun s => do
  return [.float ((← s.checkDouble 1).mul ((Binary64.ofInt 180).div pi))]

def rad : Library := fun s => do
  return [.float ((← s.checkDouble 1).mul (pi.div (Binary64.ofInt 180)))]

def fmod : Library := fun s => do
  match s.arg 1, s.arg 2 with
  | .int a, .int b =>
    if b == 0 then s.argumentFault 2 "zero"
    return [.int (Int64.ofInt (Int.tmod a.toInt b.toInt))]
  | _, _ => return [.float ((← s.checkDouble 1).fmod (← s.checkDouble 2))]

def modf : Library := fun s => do
  match s.arg 1 with
  | .int i => return [.int i, .float .zero]
  | _ =>
    let x ← s.checkDouble 1
    let n := if x.isNegative then x.ceil else x.floor
    let fraction := if n.beq x then Binary64.zero else x.sub n
    return [.float n, .float fraction]

def tointeger : Library := fun s => do
  match numberOf? (s.arg 1) with
  | some v =>
    match v.integer? with
    | some i => return [.int i]
    | none => return [.nil]
  | none =>
    let _ ← s.checkAny 1
    return [.nil]

def ult : Library := fun s => do
  let a ← s.checkInt 1
  let b ← s.checkInt 2
  return [.bool (a.toUInt64 < b.toUInt64)]

/-- The argument that no later one is preferred to. -/
def extreme (preferred : Site → Value → Value → M Bool) : Library := fun s => do
  if s.arguments.isEmpty then s.argumentFault 1 "number expected, got no value"
  let mut best ← s.checkNumber 1
  for i in List.range (s.arguments.length - 1) do
    let v ← s.checkNumber (i + 2)
    if ← preferred s v best then best := v
  return [best]

def type : Library := fun s => do
  match ← s.checkAny 1 with
  | .int _ => return [.text "integer"]
  | .float _ => return [.text "float"]
  | _ => return [.nil]

def random : Library := fun s => do
  match s.arguments.length with
  | 0 => return [.float (Binary64.ofRatio false 1 2)]
  | 1 =>
    let n ← s.checkInt 1
    if n == 0 then return [.int 0]
    unless 1 ≤ n.toInt do s.argumentFault 1 "interval is empty"
    return [.int 1]
  | 2 =>
    let m ← s.checkInt 1
    let n ← s.checkInt 2
    unless m.toInt ≤ n.toInt do s.argumentFault 2 "interval is empty"
    return [.int m]
  | _ => raiseText "wrong number of arguments"

/-- A function of the mathematical library. -/
def run : MathFn → Library
  | .abs => abs
  | .acos => onDouble Float.acos
  | .asin => onDouble Float.asin
  | .atan => atan
  | .ceil => rounded Binary64.ceil
  | .cos => onDouble Float.cos
  | .deg => deg
  | .exp => onDouble Float.exp
  | .floor => rounded Binary64.floor
  | .fmod => fmod
  | .log => log
  | .max => extreme fun s v best => s.lessThan best v
  | .min => extreme fun s v best => s.lessThan v best
  | .modf => modf
  | .rad => rad
  | .random => random
  | .randomseed => fun _ => return []
  | .sin => onDouble Float.sin
  | .sqrt => onDouble Float.sqrt
  | .tan => onDouble Float.tan
  | .tointeger => tointeger
  | .typeOf => type
  | .ult => ult

end LuaCapsule.Lua.Maths
