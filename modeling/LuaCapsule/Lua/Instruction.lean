import LuaCapsule.Lua.Syntax

/-! Instructions as words of 32 bits. The lowest seven bits say what an instruction does, the
next eight are its operand `a`. The rest is one flag with two operands of eight bits, or one
operand of seventeen bits; jumps use all twenty-five bits above the lowest seven. Operands that
can be negative are kept with an excess. -/

namespace LuaCapsule.Lua

/-- What an instruction does. -/
inductive Opcode where
  | move | loadInt | loadDouble | loadConstant | loadFar | loadFalse | loadFalseSkip | loadTrue
  | loadNil | getUpvalue | setUpvalue | getGlobal | getTable | getInt | getField
  | setGlobal | setTable | setInt | setField | newTable | self | addInt
  | addK | subK | mulK | modK | powK | divK | idivK | bandK | borK | bxorK | shrInt | shlInt
  | add | sub | mul | mod | pow | div | idiv | band | bor | bxor | shl | shr
  | fallback | fallbackInt | fallbackK | neg | bnot | not | len | concat | close | markClose | jump
  | eq | lt | le | eqK | eqInt | ltInt | leInt | gtInt | geInt | test | testSet
  | call | tailCall | ret | retNone | retOne | forLoop | forPrep | iteratorPrep | iteratorCall
  | iteratorLoop | setList | closure | vararg | varargPrep | extra
  deriving DecidableEq, Repr, Inhabited

namespace Opcode

/-- All codes, each at the place of its number. -/
def all : Array Opcode :=
  #[move, loadInt, loadDouble, loadConstant, loadFar, loadFalse, loadFalseSkip, loadTrue,
    loadNil, getUpvalue, setUpvalue, getGlobal, getTable, getInt, getField,
    setGlobal, setTable, setInt, setField, newTable, self, addInt,
    addK, subK, mulK, modK, powK, divK, idivK, bandK, borK, bxorK, shrInt, shlInt,
    add, sub, mul, mod, pow, div, idiv, band, bor, bxor, shl, shr,
    fallback, fallbackInt, fallbackK, neg, bnot, not, len, concat, close, markClose, jump,
    eq, lt, le, eqK, eqInt, ltInt, leInt, gtInt, geInt, test, testSet,
    call, tailCall, ret, retNone, retOne, forLoop, forPrep, iteratorPrep, iteratorCall,
    iteratorLoop, setList, closure, vararg, varargPrep, extra]

def number (op : Opcode) : Nat := op.ctorIdx

def ofNumber (n : Nat) : Opcode := all.getD n extra

@[simp] theorem ofNumber_number (op : Opcode) : ofNumber op.number = op := by cases op <;> rfl

/-- The next instruction after a test is the jump that it decides about. -/
def isTest : Opcode → Bool
  | eq | lt | le | eqK | eqInt | ltInt | leInt | gtInt | geInt | test | testSet => true
  | _ => false

/-- It calls the metamethod that the instruction before it came to need. -/
def isFallback : Opcode → Bool
  | fallback | fallbackInt | fallbackK => true
  | _ => false

/-- It gives register `a` a value. -/
def setsRegister : Opcode → Bool
  | setUpvalue | setGlobal | setTable | setInt | setField => false
  | fallback | fallbackInt | fallbackK | close | markClose | jump => false
  | eq | lt | le | eqK | eqInt | ltInt | leInt | gtInt | geInt | test => false
  | ret | retNone | retOne | iteratorPrep | iteratorCall | setList | extra => false
  | _ => true

/-- The instruction of an operator on two registers. -/
def ofArith (op : ArithOp) : Opcode := ofNumber (add.number + op.ctorIdx)

/-- The instruction of an operator on a register and a constant. -/
def ofArithK (op : ArithOp) : Opcode := ofNumber (addK.number + op.ctorIdx)

end Opcode

/-- An instruction. -/
structure Instr where
  bits : UInt32
  deriving DecidableEq, Inhabited

namespace Instr

/-- The greatest operands of eight and of seventeen bits. -/
def maxSmall : Nat := 255

def maxWide : Nat := 131071

/-- The excess of operands of eight, seventeen and twenty-five bits. -/
def excessSmall : Int := 127

def excessWide : Int := 65535

def excessJump : Int := 16777215

/-! ### Parts -/

def opcode (i : Instr) : Opcode := Opcode.ofNumber (i.bits &&& 127).toNat

def a (i : Instr) : Nat := ((i.bits >>> 7) &&& 255).toNat

def k (i : Instr) : Bool := (i.bits >>> 15) &&& 1 == 1

def b (i : Instr) : Nat := ((i.bits >>> 16) &&& 255).toNat

def c (i : Instr) : Nat := (i.bits >>> 24).toNat

/-- The operands `b` and `c` as small integers of either sign. -/
def signedB (i : Instr) : Int := i.b - excessSmall

def signedC (i : Instr) : Int := i.c - excessSmall

def wide (i : Instr) : Nat := (i.bits >>> 15).toNat

def signedWide (i : Instr) : Int := i.wide - excessWide

/-- The distance of a jump, from the next instruction. -/
def distance (i : Instr) : Int := (i.bits >>> 7).toNat - excessJump

/-- The operand of an extra word. -/
def far (i : Instr) : Nat := (i.bits >>> 7).toNat

/-! ### Making instructions -/

def ofParts (op : Opcode) (a b c : Nat) (k : Bool) : Instr :=
  ⟨(op.number + 128 * a + (if k then 32768 else 0) + 65536 * b + 16777216 * c).toUInt32⟩

def ofWide (op : Opcode) (a n : Nat) : Instr := ⟨(op.number + 128 * a + 32768 * n).toUInt32⟩

def ofSigned (op : Opcode) (a : Nat) (n : Int) : Instr := ofWide op a (n + excessWide).toNat

def ofFar (n : Nat) : Instr := ⟨(Opcode.extra.number + 128 * n).toUInt32⟩

def ofJump (distance : Int) : Instr :=
  ⟨(Opcode.jump.number + 128 * (distance + excessJump).toNat).toUInt32⟩

/-! ### Changing a part -/

def withOpcode (i : Instr) (op : Opcode) : Instr := ofParts op i.a i.b i.c i.k

def withA (i : Instr) (n : Nat) : Instr := ofParts i.opcode n i.b i.c i.k

def withB (i : Instr) (n : Nat) : Instr := ofParts i.opcode i.a n i.c i.k

def withC (i : Instr) (n : Nat) : Instr := ofParts i.opcode i.a i.b n i.k

def withK (i : Instr) (k : Bool) : Instr := ofParts i.opcode i.a i.b i.c k

def withWide (i : Instr) (n : Nat) : Instr := ofWide i.opcode i.a n

end Instr

end LuaCapsule.Lua
