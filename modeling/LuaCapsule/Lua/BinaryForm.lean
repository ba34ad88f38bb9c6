import LuaCapsule.Lua.Prototype

/-! The binary form of a function: a header, then the function with the functions inside it.
Counts are written in digits of seven bits, the last of which is marked; numbers are written
with their lowest byte first; a text is written behind its size and one more, and nothing as
zero. -/

namespace LuaCapsule.Lua

namespace BinaryForm

/-! ### Writing -/

/-- The digits of a count, without a mark. -/
def digits (n : Nat) : List UInt8 :=
  if n = 0 then [] else digits (n / 128) ++ [(n % 128).toUInt8]
termination_by n

def count (n : Nat) : List UInt8 := digits (n / 128) ++ [(n % 128 + 128).toUInt8]

/-- The lowest `n` bytes of a number. -/
def lowBytes : Nat → Nat → List UInt8
  | 0, _ => []
  | n + 1, x => (x % 256).toUInt8 :: lowBytes n (x / 256)

def text : Option Bytes → List UInt8
  | none => count 0
  | some b => count (b.size + 1) ++ b.data.toList

/-- Things behind their number. -/
def list (write : α → List UInt8) (xs : List α) : List UInt8 := count xs.length ++ xs.flatMap write

def flag (b : Bool) : List UInt8 := [if b then 1 else 0]

def constant : Constant → List UInt8
  | .nil => [0x00]
  | .bool false => [0x01]
  | .bool true => [0x11]
  | .int i => 0x03 :: lowBytes 8 i.toUInt64.toNat
  | .float x => 0x13 :: lowBytes 8 x.bits.toNat
  | .str s => (if s.size ≤ 40 then 0x04 else 0x14) :: text (some s)

def capture (c : CaptureSource) : List UInt8 := flag c.inRegister ++ [c.index, c.kind]

def mark (m : Nat × Nat) : List UInt8 := count m.1 ++ count m.2

def localVariable (v : LocalVariable) : List UInt8 := text v.name ++ count v.start ++ count v.stop

/-- The parts of a function up to the functions inside it. -/
def head (p : Prototype) : List UInt8 :=
  count p.line ++ count p.lastLine ++ [p.parameters] ++ flag p.isVariadic ++ [p.registers]
    ++ list (fun i => lowBytes 4 i.bits.toNat) p.code.toList
    ++ list constant p.constants.toList
    ++ list capture p.captures.toList

/-- The parts of a function that only messages need. -/
def tail (p : Prototype) : List UInt8 :=
  count p.lineSteps.size ++ p.lineSteps.data.toList
    ++ list mark p.lineMarks ++ list localVariable p.locals ++ list text p.captureNames

mutual

/-- A function without the name of its chunk. -/
def function : Prototype → List UInt8
  | ⟨line, lastLine, parameters, isVariadic, registers, code, constants, captures, functions,
      lineSteps, lineMarks, locals, captureNames⟩ =>
    let p : Prototype :=
      ⟨line, lastLine, parameters, isVariadic, registers, code, constants, captures, functions,
        lineSteps, lineMarks, locals, captureNames⟩
    head p ++ count functions.length ++ innerFunctions functions ++ tail p

/-- The functions inside a function: the name of the chunk stands at the outer one only. -/
def innerFunctions : List Prototype → List UInt8
  | [] => []
  | p :: ps => text none ++ function p ++ innerFunctions ps

end

/-- The mark, the version and the number formats that a binary form starts with, part by part,
each with the message about a form that differs in it. -/
def header : List (List UInt8 × String) :=
  [([0x1b, 0x4c, 0x75, 0x61], "not a binary chunk"),
    ([0x54], "version mismatch"),
    ([0x00], "format mismatch"),
    ([0x19, 0x93, 0x0d, 0x0a, 0x1a, 0x0a], "corrupted chunk"),
    ([0x04], "Instruction size mismatch"),
    ([0x08], "lua_Integer size mismatch"),
    ([0x08], "lua_Number size mismatch"),
    ([0x78, 0x56, 0, 0, 0, 0, 0, 0], "integer format mismatch"),
    ([0, 0, 0, 0, 0, 0x28, 0x77, 0x40], "float format mismatch")]

def headerBytes : List UInt8 := header.flatMap (·.1)

/-! ### Reading -/

/-- A reader of part of a binary form. -/
abbrev Reader (α : Type) := StateT (List UInt8) (Except String) α

def truncated : Reader α := throw "truncated chunk"

def readByte : Reader UInt8 := do
  match ← get with
  | [] => truncated
  | b :: rest => set rest; return b

def readBytes (n : Nat) : Reader (List UInt8) := do
  let cs ← get
  let first := cs.take n
  if first.length < n then truncated
  else
    set (cs.drop n)
    return first

/-- A count whose digits so far make `acc`. -/
def countFrom (acc : Nat) : List UInt8 → Except String (Nat × List UInt8)
  | [] => .error "truncated chunk"
  | b :: rest =>
    if b < 128 then countFrom (acc * 128 + b.toNat) rest else .ok (acc * 128 + (b.toNat - 128), rest)

def readCount : Reader Nat := countFrom 0

/-- The number of some bytes, the lowest one first. -/
def fromLow : List UInt8 → Nat
  | [] => 0
  | b :: bs => b.toNat + 256 * fromLow bs

def readNumber (n : Nat) : Reader Nat := return fromLow (← readBytes n)

def readText : Reader (Option Bytes) := do
  match ← readCount with
  | 0 => return none
  | n + 1 => return some (Bytes.ofList (← readBytes n))

def readTimes (r : Reader α) : Nat → Reader (List α)
  | 0 => return []
  | n + 1 => do
    let x ← r
    return x :: (← readTimes r n)

def readList (r : Reader α) : Reader (List α) := do readTimes r (← readCount)

def readFlag : Reader Bool := return (← readByte) != 0

def readInstr : Reader Instr := return ⟨(← readNumber 4).toUInt32⟩

def readConstant : Reader Constant := do
  match ← readByte with
  | 0x01 => return .bool false
  | 0x11 => return .bool true
  | 0x03 => return .int (← readNumber 8).toUInt64.toInt64
  | 0x13 => return .float ⟨(← readNumber 8).toUInt64⟩
  | 0x04 => readString
  | 0x14 => readString
  | _ => return .nil
where
  readString : Reader Constant := do
    match ← readText with
    | some b => return .str b
    | none => throw "bad format for constant string"

def readCapture : Reader CaptureSource := return ⟨← readFlag, ← readByte, ← readByte⟩

def readMark : Reader (Nat × Nat) := return (← readCount, ← readCount)

def readLocalVariable : Reader LocalVariable := return ⟨← readText, ← readCount, ← readCount⟩

/-- A function without the name of its chunk; functions can be nested in it `depth` deep. -/
def readFunction : Nat → Reader Prototype
  | 0 => truncated
  | depth + 1 => do
    let line ← readCount
    let lastLine ← readCount
    let parameters ← readByte
    let isVariadic ← readFlag
    let registers ← readByte
    let code ← readList readInstr
    let constants ← readList readConstant
    let captures ← readList readCapture
    let functions ← readList do
      let _ ← readText
      readFunction depth
    let lineSteps ← readBytes (← readCount)
    let lineMarks ← readList readMark
    let locals ← readList readLocalVariable
    let captureNames ← readList readText
    return {
      line, lastLine, parameters, isVariadic, registers, functions, lineMarks, locals,
      captureNames
      code := code.toArray
      constants := constants.toArray
      captures := captures.toArray
      lineSteps := Bytes.ofList lineSteps }

def readHeader : List (List UInt8 × String) → Reader Unit
  | [] => return
  | (part, message) :: rest => do
    if (← readBytes part.length) == part then readHeader rest else throw message

/-! ### Laws -/

@[simp] theorem length_lowBytes (n x : Nat) : (lowBytes n x).length = n := by
  induction n generalizing x with
  | zero => rfl
  | succ n ih => simp [lowBytes, ih]

/-- As many bytes as a number needs hold all of it. -/
theorem fromLow_lowBytes (n x : Nat) : fromLow (lowBytes n x) = x % Nat.pow 256 n := by
  induction n generalizing x with
  | zero => simp [lowBytes, fromLow, Nat.mod_one]
  | succ n ih =>
    have power : Nat.pow 256 (n + 1) = 256 * Nat.pow 256 n := Nat.mul_comm ..
    rw [lowBytes, fromLow, ih, power, Nat.mod_mul]
    simp

theorem countFrom_digits (n : Nat) (rest : List UInt8) :
    countFrom 0 (digits n ++ rest) = countFrom n rest := by
  induction n using Nat.strongRecOn generalizing rest with
  | ind n ih =>
    rw [digits]
    split
    · simp_all
    · have small : (n % 128).toUInt8 < 128 := by
        rw [UInt8.lt_iff_toNat_lt]
        simp
        omega
      rw [List.append_assoc, ih (n / 128) (by omega), List.singleton_append, countFrom, if_pos small]
      congr 1
      simp
      omega

/-- A count is read back, and what follows it is left. -/
theorem countFrom_count (n : Nat) (rest : List UInt8) :
    countFrom 0 (count n ++ rest) = .ok (n, rest) := by
  have large : ¬ (n % 128 + 128).toUInt8 < 128 := by
    rw [UInt8.lt_iff_toNat_lt]
    simp
    omega
  rw [count, List.append_assoc, countFrom_digits, List.singleton_append, countFrom, if_neg large]
  simp
  omega

end BinaryForm

namespace Prototype

mutual

/-- A prototype without what only messages need. -/
def stripped : Prototype → Prototype
  | ⟨line, lastLine, parameters, isVariadic, registers, code, constants, captures, functions, _, _, _, _⟩ =>
    ⟨line, lastLine, parameters, isVariadic, registers, code, constants, captures,
      strippedAll functions, .empty, [], [], []⟩

def strippedAll : List Prototype → List Prototype
  | [] => []
  | p :: ps => stripped p :: strippedAll ps

end

end Prototype

namespace Code

def stripped (c : Code) : Code := ⟨none, c.proto.stripped⟩

/-- The binary form of a function. -/
def dump (c : Code) : Bytes :=
  Bytes.ofList (BinaryForm.headerBytes ++ [c.proto.captures.size.toUInt8]
    ++ BinaryForm.text c.chunk ++ BinaryForm.function c.proto)

/-- The function that a binary form was written from. -/
def undump (b : Bytes) : Except String Code :=
  let cs := b.data.toList
  (do
    BinaryForm.readHeader BinaryForm.header
    let _ ← BinaryForm.readByte
    let chunk ← BinaryForm.readText
    return ⟨chunk, ← BinaryForm.readFunction cs.length⟩ : BinaryForm.Reader Code).run' cs

end Code

end LuaCapsule.Lua
