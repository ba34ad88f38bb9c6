import LuaCapsule.Lua.Instruction

/-! Prototypes: functions ready to run, with the functions inside them. Beside its instructions
a prototype keeps what messages need: the lines of the instructions, and the names of its
variables. Lines are kept as steps from one instruction to the next, with marks where a step
would be too large or where many steps have passed. -/

namespace LuaCapsule.Lua

/-- A constant of a program. -/
inductive Constant where
  | nil
  | bool (b : Bool)
  | int (i : Int64)
  | float (x : Binary64)
  | str (s : Bytes)
  deriving DecidableEq, Inhabited

namespace Constant

def value : Constant → Value
  | nil => .nil
  | bool b => .bool b
  | int i => .int i
  | float x => .float x
  | str s => .str s

end Constant

/-- Where a function finds a captured variable when it is made: in a register of the function
around it, or among the variables which that one captured. -/
structure CaptureSource where
  inRegister : Bool
  index : UInt8
  kind : UInt8
  deriving DecidableEq, Inhabited

/-- A variable with the instructions between which it has its register. -/
structure LocalVariable where
  name : Option Bytes
  start : Nat
  stop : Nat
  deriving DecidableEq, Inhabited

/-- A function ready to run. -/
structure Prototype where
  /-- The line of the word `function`; zero for a whole chunk. -/
  line : Nat
  lastLine : Nat
  parameters : UInt8
  isVariadic : Bool
  /-- How many registers it needs. -/
  registers : UInt8
  code : Array Instr
  constants : Array Constant
  captures : Array CaptureSource
  functions : List Prototype
  lineSteps : Bytes
  lineMarks : List (Nat × Nat)
  locals : List LocalVariable
  captureNames : List (Option Bytes)
  deriving Inhabited

namespace Prototype

def instr (p : Prototype) (pc : Nat) : Instr := p.code.getD pc (.ofFar 0)

def constant (p : Prototype) (i : Nat) : Value := (p.constants.getD i .nil).value

def captureName? (p : Prototype) (i : Nat) : Option Bytes := (p.captureNames[i]?).getD none

/-! ### Lines -/

/-- The step that stands for a mark. -/
def markStep : UInt8 := 128

/-- The step of a byte, as a number of either sign. -/
def stepOf (b : UInt8) : Int := if b < 128 then b.toNat else (b.toNat : Int) - 256

/-- The line after `n` more steps, from instruction `i` on. -/
def lineAfter (p : Prototype) : Nat → Nat → Int → Int
  | 0, _, line => line
  | n + 1, i, line =>
    let b := p.lineSteps.at0 i
    let next : Int :=
      if b == markStep then ((p.lineMarks.find? (·.1 == i)).map fun m => (m.2 : Int)).getD line
      else line + stepOf b
    lineAfter p n (i + 1) next

/-- The line of an instruction, if lines are kept. -/
def lineOf? (p : Prototype) (pc : Nat) : Option Nat :=
  if p.lineSteps.size == 0 then none
  else some (lineAfter p (pc + 1) 0 p.line).toNat

end Prototype

/-- A function of a chunk. -/
structure Code where
  /-- The name under which the chunk was loaded, if it is kept. -/
  chunk : Option Bytes
  proto : Prototype
  deriving Inhabited

namespace Code

/-- The first line of a text, and whether there are more. -/
def firstLine (b : Bytes) : Bytes × Bool :=
  match b.find? (· == 10) 0 with
  | some i => (b.slice 0 i, true)
  | none => (b, false)

/-- How messages name a chunk: a name after `=` or `@` is shown itself, a text by its first
line. -/
def displayOf (name : Bytes) : Bytes :=
  let dots := Bytes.ofString "..."
  if name.at0 0 == 61 then name.slice 1 (min name.size 60)
  else if name.at0 0 == 64 then
    if name.size ≤ 60 then name.slice 1 name.size else dots ++ name.slice (name.size - 56) name.size
  else
    let (line, more) := firstLine name
    let shown := if !more && line.size < 45 then line else line.slice 0 (min line.size 45) ++ dots
    Bytes.ofString "[string \"" ++ shown ++ Bytes.ofString "\"]"

def display (c : Code) : Bytes :=
  match c.chunk with
  | some name => displayOf name
  | none => Bytes.ofString "?"

/-- The function inside of a given number. -/
def inner? (c : Code) (i : Nat) : Option Code := (c.proto.functions[i]?).map fun p => ⟨c.chunk, p⟩

/-- The place of an instruction in messages. -/
def place (c : Code) (pc : Nat) : Bytes :=
  let line := match c.proto.lineOf? pc with | some l => toString l | none => "-1"
  c.display ++ Bytes.ofString s!":{line}: "

end Code

end LuaCapsule.Lua
