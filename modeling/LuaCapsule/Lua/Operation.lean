import LuaCapsule.Lua.Naming

/-! What instructions ask for. Many instructions differ only in where their operands are; an
operation names each operand by its source. -/

namespace LuaCapsule.Lua

/-- Where an operand is. -/
inductive Source where
  | register (r : Nat)
  | upvalue (i : Nat)
  | constant (v : Value)
  deriving DecidableEq, Inhabited

namespace Source

/-- How messages name an operand. -/
def origin (p : Prototype) (pc : Nat) : Source → Origin
  | register r => p.registerOrigin pc r
  | upvalue i => p.captureOrigin i
  | constant _ => .unknown

end Source

/-- What an instruction asks for. A number of values that is not there stands for all values up
to the last one that was held open. -/
inductive Operation where
  | load (dest : Nat) (s : Source)
  /-- Loads a value and passes over the next instruction. -/
  | loadOver (dest : Nat) (v : Value)
  | loadNil (first n : Nat)
  | setUpvalue (i r : Nat)
  | index (dest : Nat) (object key : Source)
  | setIndex (object key value : Source)
  | newTable (dest items fields : Nat)
  /-- Takes a method of an object, and the object behind it. -/
  | method (dest object : Nat) (key : Source)
  /-- Arithmetic; when it succeeds the next instruction is passed over. -/
  | arith (dest : Nat) (op : ArithOp) (l r : Source)
  /-- Arithmetic that a metamethod has to do. -/
  | fallback (dest : Nat) (op : ArithOp) (l r : Source)
  | unary (dest : Nat) (op : UnaryOp) (r : Nat)
  | concat (first n : Nat)
  /-- Closes the variables from a register on. -/
  | close (r : Nat)
  | markClose (r : Nat)
  | jump (distance : Int)
  /-- Passes over the next instruction unless the outcome is the one sought. -/
  | compare (op : CompareOp) (l r : Source) (sense : Bool)
  | test (r : Nat) (sense : Bool)
  | testSet (dest r : Nat) (sense : Bool)
  | call (base : Nat) (arguments results : Option Nat)
  | tailCall (base : Nat) (arguments : Option Nat)
  | ret (first : Nat) (n : Option Nat)
  | forLoop (base back : Nat)
  | forPrep (base forth : Nat)
  | iteratorPrep (base forth : Nat)
  | iteratorCall (base n : Nat)
  | iteratorLoop (base back : Nat)
  /-- Stores items in a table from the registers behind it, after `before` others. -/
  | setItems (t : Nat) (n : Option Nat) (before : Nat)
  | closure (dest f : Nat)
  | vararg (dest : Nat) (n : Option Nat)
  | nothing
  deriving Inhabited

namespace Operation

/-- A number of values that is written one too large, with zero for an open number. -/
def counted? : Nat → Option Nat
  | 0 => none
  | n + 1 => some n

def arithOf (n : Nat) : ArithOp := ArithOp.all.getD n .add

end Operation

namespace Prototype

/-- A constant or a register, by the flag that tells them apart. -/
def flagged (p : Prototype) (i : Instr) (n : Nat) : Source :=
  if i.k then .constant (p.constant n) else .register n

def smallInt (n : Int) : Source := .constant (.int (Int64.ofInt n))

/-- A small number that was written as a double or as an integer. -/
def smallNumber (i : Instr) : Source :=
  .constant (if i.c == 0 then .int (Int64.ofInt i.signedB) else .float (Binary64.ofInt64 (Int64.ofInt i.signedB)))

/-- Operands in the order in which they were written. -/
def inOrder (i : Instr) (l r : Source) (make : Source → Source → Operation) : Operation :=
  if i.k then make r l else make l r

/-- What the instruction at a place asks for. -/
def operation (p : Prototype) (pc : Nat) (i : Instr) : Operation :=
  let a := i.a
  let b := i.b
  let c := i.c
  let arithK (op : ArithOp) : Operation := .arith a op (.register b) (.constant (p.constant c))
  let arith (op : ArithOp) : Operation := .arith a op (.register b) (.register c)
  let fallback (l r : Source) : Operation :=
    .fallback (p.instr (pc - 1)).a (Operation.arithOf (c - 6)) l r
  match i.opcode with
  | .move => .load a (.register b)
  | .loadInt => .load a (smallInt i.signedWide)
  | .loadDouble => .load a (.constant (.float (Binary64.ofInt64 (Int64.ofInt i.signedWide))))
  | .loadConstant => .load a (.constant (p.constant i.wide))
  | .loadFar => .load a (.constant (p.constant (p.instr (pc + 1)).far))
  | .loadFalse => .load a (.constant (.bool false))
  | .loadFalseSkip => .loadOver a (.bool false)
  | .loadTrue => .load a (.constant (.bool true))
  | .loadNil => .loadNil a (b + 1)
  | .getUpvalue => .load a (.upvalue b)
  | .setUpvalue => .setUpvalue b a
  | .getGlobal => .index a (.upvalue b) (.constant (p.constant c))
  | .getTable => .index a (.register b) (.register c)
  | .getInt => .index a (.register b) (smallInt c)
  | .getField => .index a (.register b) (.constant (p.constant c))
  | .setGlobal => .setIndex (.upvalue a) (.constant (p.constant b)) (p.flagged i c)
  | .setTable => .setIndex (.register a) (.register b) (p.flagged i c)
  | .setInt => .setIndex (.register a) (smallInt b) (p.flagged i c)
  | .setField => .setIndex (.register a) (.constant (p.constant b)) (p.flagged i c)
  | .newTable =>
    .newTable a (if i.k then c + 256 * (p.instr (pc + 1)).far else c)
      (if b == 0 then 0 else Nat.pow 2 (b - 1))
  | .self => .method a b (p.flagged i c)
  | .addInt => .arith a .add (.register b) (smallInt i.signedC)
  | .addK => arithK .add
  | .subK => arithK .sub
  | .mulK => arithK .mul
  | .modK => arithK .mod
  | .powK => arithK .pow
  | .divK => arithK .div
  | .idivK => arithK .idiv
  | .bandK => arithK .band
  | .borK => arithK .bor
  | .bxorK => arithK .bxor
  | .shrInt => .arith a .shr (.register b) (smallInt i.signedC)
  | .shlInt => .arith a .shl (smallInt i.signedC) (.register b)
  | .add => arith .add
  | .sub => arith .sub
  | .mul => arith .mul
  | .mod => arith .mod
  | .pow => arith .pow
  | .div => arith .div
  | .idiv => arith .idiv
  | .band => arith .band
  | .bor => arith .bor
  | .bxor => arith .bxor
  | .shl => arith .shl
  | .shr => arith .shr
  | .fallback => fallback (.register a) (.register b)
  | .fallbackInt => inOrder i (.register a) (smallInt i.signedB) fallback
  | .fallbackK => inOrder i (.register a) (.constant (p.constant b)) fallback
  | .neg => .unary a .neg b
  | .bnot => .unary a .bnot b
  | .not => .unary a .not b
  | .len => .unary a .len b
  | .concat => .concat a b
  | .close => .close a
  | .markClose => .markClose a
  | .jump => .jump i.distance
  | .eq => .compare .eq (.register a) (.register b) i.k
  | .lt => .compare .lt (.register a) (.register b) i.k
  | .le => .compare .le (.register a) (.register b) i.k
  | .eqK => .compare .eq (.register a) (.constant (p.constant b)) i.k
  | .eqInt => .compare .eq (.register a) (smallInt i.signedB) i.k
  | .ltInt => .compare .lt (.register a) (smallNumber i) i.k
  | .leInt => .compare .le (.register a) (smallNumber i) i.k
  | .gtInt => .compare .lt (smallNumber i) (.register a) i.k
  | .geInt => .compare .le (smallNumber i) (.register a) i.k
  | .test => .test a i.k
  | .testSet => .testSet a b i.k
  | .call => .call a (Operation.counted? b) (Operation.counted? c)
  | .tailCall => .tailCall a (Operation.counted? b)
  | .ret => .ret a (Operation.counted? b)
  | .retNone => .ret a (some 0)
  | .retOne => .ret a (some 1)
  | .forLoop => .forLoop a i.wide
  | .forPrep => .forPrep a i.wide
  | .iteratorPrep => .iteratorPrep a i.wide
  | .iteratorCall => .iteratorCall a c
  | .iteratorLoop => .iteratorLoop a i.wide
  | .setList =>
    .setItems a (if b == 0 then none else some b)
      (if i.k then c + 256 * (p.instr (pc + 1)).far else c)
  | .closure => .closure a i.wide
  | .vararg => .vararg a (Operation.counted? c)
  | .varargPrep => .nothing
  | .extra => .nothing

end Prototype

end LuaCapsule.Lua
