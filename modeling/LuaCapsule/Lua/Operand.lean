import LuaCapsule.Lua.Emitter

/-! Expressions in the middle of being made into code. An operand says where the value of an
expression is, or what is left to do to have it; beside that there are the jumps that leave the
expression because it has turned out true or false. -/

namespace LuaCapsule.Lua

/-- Where the value of an expression is. -/
inductive Place where
  | nothing
  | literal (c : Constant)
  /-- Among the constants of the function. -/
  | constant (k : Nat)
  /-- In a register that is a variable's own, or that holds a temporary value. -/
  | slot (r : Nat)
  | register (r : Nat)
  | upvalue (i : Nat)
  /-- Under a key of a captured table, or of one in a register. -/
  | global (i k : Nat)
  | item (t r : Nat)
  | intItem (t i : Nat)
  | field (t k : Nat)
  /-- It is the outcome of the test that decides about a jump. -/
  | test (pc : Nat)
  /-- It goes to any register that an instruction is given. -/
  | pending (pc : Nat)
  /-- It is the result, or the results, of a call or of dots. -/
  | call (pc : Nat)
  | dots (pc : Nat)
  deriving Inhabited

/-- The value of an expression. -/
structure Operand where
  place : Place
  /-- Jumps that are taken when the expression is true, and when it is false. -/
  whenTrue : Option Nat := none
  whenFalse : Option Nat := none
  deriving Inhabited

namespace Operand

open Emit

def hasJumps (e : Operand) : Bool := e.whenTrue != e.whenFalse

/-- The number that an operand is. -/
def number? (e : Operand) : Option Value :=
  if e.hasJumps then none
  else match e.place with
    | .literal (.int i) => some (.int i)
    | .literal (.float x) => some (.float x)
    | _ => none

/-- Can it give more or less than one value? -/
def isOpen (e : Operand) : Bool :=
  match e.place with
  | .call _ => true
  | .dots _ => true
  | _ => false

/-- An integer without jumps. -/
def int? (e : Operand) : Option Int :=
  match e.number? with
  | some (.int i) => some i.toInt
  | _ => none

/-- Does an integer fit as a signed operand of eight bits? -/
def fitsSmall (i : Int) : Bool := -127 ≤ i && i ≤ 128

/-- A signed operand of eight bits. -/
def excess (i : Int) : Nat := (i + Instr.excessSmall).toNat

/-- A small integer, and whether it is written as a double. -/
def small? (e : Operand) : Option (Int × Bool) :=
  match e.number? with
  | some (.int i) => if fitsSmall i.toInt then some (i.toInt, false) else none
  | some (.float x) =>
    match x.toInt64? with
    | some i => if fitsSmall i.toInt then some (i.toInt, true) else none
    | none => none
  | _ => none

/-! ### Settling where a value is -/

/-- A call or dots give `n` values; dots give them from the first free register on. -/
def setResults (e : Operand) (n : Nat) : Emit Unit := do
  match e.place with
  | .call pc => modifyAt pc (·.withC (n + 1))
  | .dots pc =>
    let r := (← get).free
    modifyAt pc fun i => (i.withC (n + 1)).withA r
    reserve 1
  | _ => return

/-- A call or dots give all their values. -/
def setAllResults (e : Operand) : Emit Unit := do
  match e.place with
  | .call pc => modifyAt pc (·.withC 0)
  | .dots pc =>
    let r := (← get).free
    modifyAt pc fun i => (i.withC 0).withA r
    reserve 1
  | _ => return

/-- A call or dots give one value. -/
def toOne (e : Operand) : Emit Operand := do
  match e.place with
  | .call pc => return { e with place := .register (← instrAt pc).a }
  | .dots pc =>
    modifyAt pc (·.withC 2)
    return { e with place := .pending pc }
  | _ => return e

/-- Reads a variable or a field. -/
def toValue (e : Operand) : Emit Operand := do
  let read (op : Opcode) (b c : Nat) : Emit Operand :=
    return { e with place := .pending (← emitParts op 0 b c false) }
  match e.place with
  | .slot r => return { e with place := .register r }
  | .upvalue i => read .getUpvalue i 0
  | .global i k => read .getGlobal i k
  | .intItem t i => release t; read .getInt t i
  | .field t k => release t; read .getField t k
  | .item t r => releaseTwo t r; read .getTable t r
  | .call _ => e.toOne
  | .dots _ => e.toOne
  | _ => return e

def loadLiteral (r : Nat) : Constant → Emit Unit
  | .nil => loadNil r 1
  | .bool false => put .loadFalse r 0 0
  | .bool true => put .loadTrue r 0 0
  | .int i => loadInt r i
  | .float x => loadDouble r x
  | .str s => do loadConstant r (← constant (.str s))

/-- Puts the value into a register, but for a test. -/
def toRegister' (e : Operand) (r : Nat) : Emit Operand := do
  let e ← e.toValue
  let there : Operand := { e with place := .register r }
  match e.place with
  | .literal c => loadLiteral r c; return there
  | .constant k => loadConstant r k; return there
  | .pending pc => modifyAt pc (·.withA r); return there
  | .register s => if r != s then put .move r s 0
                   return there
  | _ => return e

/-- Puts the value into a register if it is in none. -/
def toSomeRegister' (e : Operand) : Emit Operand := do
  match e.place with
  | .register _ => return e
  | _ =>
    reserve 1
    e.toRegister' ((← get).free - 1)

def releaseOne (e : Operand) : Emit Unit := do
  match e.place with
  | .register r => release r
  | _ => return

def releaseBoth (e f : Operand) : Emit Unit := do
  match e.place, f.place with
  | .register r, .register s => releaseTwo r s
  | .register r, _ => release r
  | _, .register s => release s
  | _, _ => return

/-- Adds an instruction that jumps may lead to. -/
def emitTarget (op : Opcode) (r : Nat) : Emit Nat := do
  let _ ← target
  emitParts op r 0 0 false

/-- Puts the value into a register, whichever way the expression is left. -/
def toRegister (e : Operand) (r : Nat) : Emit Operand := do
  let e ← e.toRegister' r
  let e ← match e.place with
    | .test pc => do pure { e with whenTrue := ← join e.whenTrue (some pc) }
    | _ => pure e
  if e.hasJumps then
    let mut loadsFalse := 0
    let mut loadsTrue := 0
    if (← needsValue e.whenTrue) || (← needsValue e.whenFalse) then
      let around ← match e.place with
        | .test _ => pure none
        | _ => do pure (some (← jump))
      loadsFalse ← emitTarget .loadFalseSkip r
      loadsTrue ← emitTarget .loadTrue r
      patchHere around
    let final ← target
    patch e.whenFalse final (some r) loadsFalse
    patch e.whenTrue final (some r) loadsTrue
  return ⟨.register r, none, none⟩

/-- Puts the value into the next register. -/
def toNextRegister (e : Operand) : Emit Operand := do
  let e ← e.toValue
  e.releaseOne
  reserve 1
  e.toRegister ((← get).free - 1)

/-- Puts the value into a register, with the number of it. -/
def toSomeRegister (e : Operand) : Emit (Operand × Nat) := do
  let e ← e.toValue
  let next : Emit (Operand × Nat) := do
    let e ← e.toNextRegister
    match e.place with
    | .register r => return (e, r)
    | _ => return (e, 0)
  match e.place with
  | .register r =>
    if !e.hasJumps then return (e, r)
    else if (← level) ≤ r then return (← e.toRegister r, r)
    else next
  | _ => next

/-- Puts the value into a register, unless it is a captured variable. -/
def toRegisterOrUpvalue (e : Operand) : Emit Operand := do
  match e.place, e.hasJumps with
  | .upvalue _, false => return e
  | _, _ => return (← e.toSomeRegister).1

/-- Settles jumps, and reads what has to be read. -/
def settled (e : Operand) : Emit Operand := do
  if e.hasJumps then return (← e.toSomeRegister).1 else e.toValue

/-- The place of a literal among the constants, if it fits as an operand of eight bits. -/
def constantPlace? (e : Operand) : Emit (Option Nat) := do
  if e.hasJumps then return none
  let k? ← match e.place with
    | .literal c => do pure (some (← constant c))
    | .constant k => pure (some k)
    | _ => pure none
  return k?.filter (· ≤ Instr.maxSmall)

/-- A constant or a register, with a flag that is set for a constant. -/
def constantOrRegister (e : Operand) : Emit (Operand × Nat × Bool) := do
  match ← e.constantPlace? with
  | some k => return ({ e with place := .constant k }, k, true)
  | none =>
    let (e, r) ← e.toSomeRegister
    return (e, r, false)

/-! ### Variables and fields -/

/-- Stores a value in a variable or a field. -/
def store (target e : Operand) : Emit Unit := do
  let put' (op : Opcode) (a b : Nat) : Emit Unit := do
    let (e, c, k) ← e.constantOrRegister
    let _ ← emitParts op a b c k
    e.releaseOne
  match target.place with
  | .slot r =>
    e.releaseOne
    let _ ← e.toRegister r
  | .upvalue i =>
    let (e, r) ← e.toSomeRegister
    put .setUpvalue r i 0
    e.releaseOne
  | .global i k => put' .setGlobal i k
  | .intItem t i => put' .setInt t i
  | .field t k => put' .setField t k
  | .item t r => put' .setTable t r
  | _ => return

/-- The method of a name of an object, and the object, in two new registers. -/
def method (e : Operand) (name : Bytes) : Emit Nat := do
  let (e, r) ← e.toSomeRegister
  e.releaseOne
  let base := (← get).free
  reserve 2
  let (key, c, k) ← (Operand.mk (.literal (.str name)) none none).constantOrRegister
  let _ ← emitParts .self base r c k
  key.releaseOne
  return base

/-- A text that is short enough for fields of its own instructions. -/
def isShort (s : Bytes) : Bool := s.size ≤ 40

/-- The item of a table under a key. -/
def item (t key : Operand) : Emit Operand := do
  -- texts are constants from here on
  let (key, shortKey?) ← match key.place with
    | .literal (.str s) => do
      let k ← constant (.str s)
      let short := !key.hasJumps && k ≤ Instr.maxSmall && isShort s
      pure ({ key with place := .constant k }, if short then some k else none)
    | _ => pure (key, none)
  let t ← match t.place, shortKey? with
    | .upvalue _, none => do pure (← t.toSomeRegister).1
    | _, _ => pure t
  let inRegister (r : Nat) : Emit Operand := do
    match shortKey?, key.int? with
    | some k, _ => return { t with place := .field r k }
    | none, some i =>
      if 0 ≤ i && i ≤ 255 then return { t with place := .intItem r i.toNat }
      else return { t with place := .item r (← key.toSomeRegister).2 }
    | none, none => return { t with place := .item r (← key.toSomeRegister).2 }
  match t.place, shortKey? with
  | .upvalue i, some k => return { t with place := .global i k }
  | .slot r, _ => inRegister r
  | .register r, _ => inRegister r
  | _, _ => return t

/-! ### Conditions -/

/-- Turns the test of a jump around. -/
def negateTest (pc : Nat) : Emit Unit := do
  modifyAt (← control pc) fun i => i.withK (!i.k)

/-- Jumps if the value counts as `sense`; the result is the jump. -/
def jumpIf (e : Operand) (sense : Bool) : Emit Nat := do
  let negated? ← match e.place with
    | .pending pc => do
      let i ← instrAt pc
      pure (if i.opcode == .not then some i.b else none)
    | _ => pure none
  match negated? with
  | some r =>
    dropInstr
    testJump .test r 0 0 (!sense)
  | none =>
    let e ← e.toSomeRegister'
    e.releaseOne
    match e.place with
    | .register r => testJump .testSet 255 r 0 sense
    | _ => jump

/-- Goes on if the value is true, and jumps otherwise. -/
def goIfTrue (e : Operand) : Emit Operand := do
  let e ← e.toValue
  let pc ← match e.place with
    | .test pc => negateTest pc; pure (some pc)
    | .constant _ => pure none
    | .literal c => do
      if c.value.truthy then pure none else pure (some (← e.jumpIf false))
    | _ => do pure (some (← e.jumpIf false))
  let whenFalse ← join e.whenFalse pc
  patchHere e.whenTrue
  return { e with whenFalse, whenTrue := none }

/-- Goes on if the value is false, and jumps otherwise. -/
def goIfFalse (e : Operand) : Emit Operand := do
  let e ← e.toValue
  let pc ← match e.place with
    | .test pc => pure (some pc)
    | .literal c => do
      if c.value.truthy then pure (some (← e.jumpIf true)) else pure none
    | _ => do pure (some (← e.jumpIf true))
  let whenTrue ← join e.whenTrue pc
  patchHere e.whenFalse
  return { e with whenTrue, whenFalse := none }

/-! ### Operators -/

def negation (e : Operand) : Emit Operand := do
  let place ← match e.place with
    | .literal c => pure (.literal (.bool (!c.value.truthy)))
    | .constant _ => pure (.literal (.bool false))
    | .test pc => negateTest pc; pure (.test pc)
    | p => do
      let e ← { e with place := p }.toSomeRegister'
      e.releaseOne
      match e.place with
      | .register r => pure (.pending (← emitParts .not 0 r 0 false))
      | p => pure p
  dropValues e.whenTrue
  dropValues e.whenFalse
  return ⟨place, e.whenFalse, e.whenTrue⟩

def unaryOpcode : UnaryOp → Opcode
  | .neg => .neg
  | .bnot => .bnot
  | .not => .not
  | .len => .len

/-- A number computed before running takes the place of its expression. -/
def ofNumber? : Value → Option Place
  | .int i => some (.literal (.int i))
  | .float x => some (.literal (.float x))
  | _ => none

/-- An operator of one operand, at a line. -/
def unary (op : UnaryOp) (e : Operand) (line : Nat) : Emit Operand := do
  let e ← e.toValue
  match op, (e.number?.bind op.fold?).bind ofNumber? with
  | .not, _ => e.negation
  | _, some p => return { e with place := p }
  | op, none =>
    let (e, r) ← e.toSomeRegister
    e.releaseOne
    let pc ← emitParts (unaryOpcode op) 0 r 0 false
    fixLine line
    return { e with place := .pending pc }

/-- What has to be done with the left operand before the right one is met. -/
def prepare (op : BinaryOp) (e : Operand) : Emit Operand := do
  let e ← e.toValue
  match op with
  | .concat => e.toNextRegister
  | .arith _ => if e.number?.isSome then return e else return (← e.toSomeRegister).1
  | .compare .eq | .compare .ne =>
    if e.number?.isSome then return e else return (← e.constantOrRegister).1
  | .compare _ => if e.small?.isSome then return e else return (← e.toSomeRegister).1

/-- The number of an operator among all events. -/
def eventOf (op : ArithOp) : Nat := 6 + op.ctorIdx

/-- An operation on a register and another operand, with the call of a metamethod behind it. -/
def operation (e f : Operand) (op : Opcode) (b : Nat) (flipped : Bool) (line : Nat)
    (behind : Opcode) (event : Nat) : Emit Operand := do
  let (e, r) ← e.toSomeRegister
  let pc ← emitParts op 0 r b false
  releaseBoth e f
  fixLine line
  let _ ← emitParts behind r b event flipped
  fixLine line
  return { e with place := .pending pc }

/-- An operation on two registers. -/
def inRegisters (op : ArithOp) (e f : Operand) (line : Nat) : Emit Operand := do
  let (f, s) ← f.toSomeRegister
  operation e f (.ofArith op) s false line .fallback (eventOf op)

/-- An operation on a register and a constant, if there is one, or else on two registers. -/
def withConstant (op : ArithOp) (e f : Operand) (flipped : Bool) (line : Nat)
    (fits : Bool) : Emit Operand := do
  let place? ← if fits then f.constantPlace? else pure none
  match place? with
  | some k =>
    operation e { f with place := .constant k } (.ofArithK op) k flipped line .fallbackK
      (eventOf op)
  | none => if flipped then inRegisters op f e line else inRegisters op e f line

/-- An operation on a register and a small integer. -/
def withInt (op : Opcode) (event : ArithOp) (e f : Operand) (i : Int) (flipped : Bool)
    (line : Nat) : Emit Operand :=
  operation e f op (excess i) flipped line .fallbackInt (eventOf event)

/-- An operation that is done with the opposite of a small integer, if the right operand is
one. -/
def withOpposite? (op : Opcode) (event : ArithOp) (e f : Operand) (line : Nat) :
    Emit (Option Operand) := do
  match f.int? with
  | some i =>
    if fitsSmall i && fitsSmall (-i) then
      let r ← operation e f op (excess (-i)) false line .fallbackInt (eventOf event)
      modifyAt ((← here) - 1) (·.withB (excess i))
      return some r
    else return none
  | none => return none

/-- The integer of an operand that fits as a signed operand of eight bits. -/
def smallInt? (e : Operand) : Option Int := e.int?.filter fitsSmall

def isIntLiteral (e : Operand) : Bool :=
  match e.place with
  | .literal (.int _) => true
  | _ => false

def arith (op : ArithOp) (e f : Operand) (line : Nat) : Emit Operand := do
  match op with
  | .add | .mul =>
    let flipped := e.number?.isSome
    let (e, f) := if flipped then (f, e) else (e, f)
    match if op == .add then f.smallInt? else none with
    | some i => withInt .addInt .add e f i flipped line
    | none => withConstant op e f flipped line f.number?.isSome
  | .sub =>
    match ← withOpposite? .addInt .sub e f line with
    | some r => return r
    | none => withConstant op e f false line f.number?.isSome
  | .div | .idiv | .mod | .pow => withConstant op e f false line f.number?.isSome
  | .band | .bor | .bxor =>
    let flipped := e.isIntLiteral
    let (e, f) := if flipped then (f, e) else (e, f)
    withConstant op e f flipped line f.isIntLiteral
  | .shl =>
    match e.smallInt? with
    | some i => withInt .shlInt .shl f e i true line
    | none =>
      match ← withOpposite? .shrInt .shl e f line with
      | some r => return r
      | none => inRegisters op e f line
  | .shr =>
    match f.smallInt? with
    | some i => withInt .shrInt .shr e f i false line
    | none => inRegisters op e f line

/-- Equality; the outcome sought is `sense`. -/
def equality (e f : Operand) (sense : Bool) : Emit Operand := do
  let (e, f) := match e.place with
    | .register _ => (e, f)
    | _ => (f, e)
  let (e, r) ← e.toSomeRegister
  let (f, op, b, isDouble) ← match f.small? with
    | some (i, isDouble) => pure (f, Opcode.eqInt, excess i, isDouble)
    | none => do
      let (f, b, k) ← f.constantOrRegister
      pure (f, if k then Opcode.eqK else Opcode.eq, b, false)
  releaseBoth e f
  let pc ← testJump op r b (if isDouble then 1 else 0) sense
  return { e with place := .test pc }

/-- Order; `strict` tells `<` from `<=`. -/
def order (strict : Bool) (e f : Operand) : Emit Operand := do
  let choose (below atMost : Opcode) : Opcode := if strict then below else atMost
  let (e, f, op, r, b, isDouble) ← match f.small?, e.small? with
    | some (i, isDouble), _ => do
      let (e, r) ← e.toSomeRegister
      pure (e, f, choose .ltInt .leInt, r, excess i, isDouble)
    | none, some (i, isDouble) => do
      let (f, r) ← f.toSomeRegister
      pure (e, f, choose .gtInt .geInt, r, excess i, isDouble)
    | none, none => do
      let (e, r) ← e.toSomeRegister
      let (f, s) ← f.toSomeRegister
      pure (e, f, choose .lt .le, r, s, false)
  releaseBoth e f
  let pc ← testJump op r b (if isDouble then 1 else 0) true
  return { e with place := .test pc }

/-- Joins texts. A right operand that joins texts itself takes the left one in. -/
def concat (e f : Operand) (line : Nat) : Emit Operand := do
  let f ← f.toNextRegister
  let first := match e.place with | .register r => r | _ => 0
  match ← previous? with
  | some (pc, i) =>
    if i.opcode == .concat then
      f.releaseOne
      modifyAt pc fun i => (i.withA first).withB (i.b + 1)
      return e
  | none => pure ()
  put .concat first 2 0
  f.releaseOne
  fixLine line
  return e

/-- An operator of two operands, of which the left one was prepared. -/
def binary (op : BinaryOp) (e f : Operand) (line : Nat) : Emit Operand := do
  let f ← f.toValue
  match op with
  | .concat => concat e f line
  | .arith op =>
    let folded := do ofNumber? (← op.fold? (← e.number?) (← f.number?))
    match folded with
    | some p => return { e with place := p }
    | none => arith op e f line
  | .compare .eq => equality e f true
  | .compare .ne => equality e f false
  | .compare .lt => order true e f
  | .compare .le => order false e f
  | .compare .gt => order true f e
  | .compare .ge => order false f e

end Operand

end LuaCapsule.Lua
