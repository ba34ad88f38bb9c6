import LuaCapsule.Lua.Operand
import LuaCapsule.Lua.Parser

/-! From a resolved program to prototypes. Registers are given out as on a stack: variables hold
the lowest ones, and temporary values those above. -/

namespace LuaCapsule.Lua

namespace Generator

open Emit

/-- Makes the function of a given number, as one of those inside the current function. -/
abbrev Inner := Nat → Emit Nat

/-! ### Expressions -/

/-- Items of a table are stored in batches. -/
def batch : Nat := 50

/-- Stores items of a table from the registers behind it: `n` of them, or all that there are if
`n` is zero, after `before` others. -/
def storeItems (t before n : Nat) : Emit Unit := do
  if before ≤ Instr.maxSmall then put .setList t n before
  else
    let _ ← emitParts .setList t n (before % 256) true
    let _ ← emit (.ofFar (before / 256))
  modify fun b => { b with free := t + 1 }

/-- The items of a table so far. -/
structure Items where
  /-- Items stored. -/
  stored : Nat := 0
  /-- Items in registers, or still to be put there. -/
  waiting : Nat := 0
  fields : Nat := 0
  /-- The last item, if it is in no register. -/
  last : Option Operand := none
  deriving Inhabited

/-- Puts the last item into a register, and stores a batch that is complete. -/
def Items.flush (s : Items) (t : Nat) : Emit Items := do
  match s.last with
  | none => return s
  | some e =>
    let _ ← e.toNextRegister
    if s.waiting == batch then
      storeItems t s.stored batch
      return { s with stored := s.stored + batch, waiting := 0, last := none }
    else return { s with last := none }

/-- Stores what is left at the end of a table. The result is how many items are counted. -/
def Items.finish (s : Items) (t : Nat) : Emit Nat := do
  if s.waiting == 0 then return s.stored
  match s.last with
  | some e =>
    if e.isOpen then
      e.setAllResults
      storeItems t s.stored 0
      return s.stored + s.waiting - 1
    else
      let _ ← e.toNextRegister
      storeItems t s.stored s.waiting
  | none => storeItems t s.stored s.waiting
  return s.stored + s.waiting

/-- The exponent of the least power of two that is not below `n`. -/
def ceilLog2 (n : Nat) : Nat := if n ≤ 1 then 0 else (n - 1).log2 + 1

/-- Tells the instruction that makes a table how many items and fields to expect. -/
def setTableSize (pc t items fields : Nat) : Emit Unit := do
  let room := if fields == 0 then 0 else ceilLog2 fields + 1
  modifyAt pc fun _ => .ofParts .newTable t room (items % 256) (decide (items / 256 > 0))
  modifyAt (pc + 1) fun _ => .ofFar (items / 256)

/-- The call of a function in a register with arguments behind it, of which the last one may be
in no register. -/
def callWith (base : Nat) (last : Option Operand) (line : Nat) : Emit Operand := do
  let count ←
    match last with
    | none => do pure ((← get).free - base)
    | some e =>
      if e.isOpen then
        e.setAllResults
        pure 0
      else
        let _ ← e.toNextRegister
        pure ((← get).free - base)
  let pc ← emitParts .call base count 2 false
  fixLine line
  modify fun b => { b with free := base + 1 }
  return ⟨.call pc, none, none⟩

/-- A function made before, in the next register. -/
def closure (f line : Nat) : Emit Operand := do
  atLine line
  let pc ← emit (.ofWide .closure 0 f)
  Operand.toNextRegister ⟨.pending pc, none, none⟩

def literal : Value → Operand
  | .nil => ⟨.literal .nil, none, none⟩
  | .bool b => ⟨.literal (.bool b), none, none⟩
  | .int i => ⟨.literal (.int i), none, none⟩
  | .float x => ⟨.literal (.float x), none, none⟩
  | .str s => ⟨.literal (.str s), none, none⟩
  | .ref _ => ⟨.literal .nil, none, none⟩

mutual

/-- An expression. -/
def expr (inner : Inner) : Expr → Emit Operand
  | .const v line => do atLine line; return literal v
  | .known v _ line => do atLine line; return literal v
  | .vararg before line => do
    atLine before
    let pc ← emitParts .vararg 0 0 1 false
    atLine line
    return ⟨.dots pc, none, none⟩
  | .closure f line => do closure (← inner f) line
  | .slot i _ line => do atLine line; return ⟨.slot i, none, none⟩
  | .upvalue i _ line => do atLine line; return ⟨.upvalue i, none, none⟩
  | .index o k line => do
    let o ← (← expr inner o).toRegisterOrUpvalue
    let k ← (← expr inner k).settled
    atLine line
    o.item k
  | .call f args line last => do
    let f ← (← expr inner f).toNextRegister
    let base := match f.place with | .register r => r | _ => 0
    let e ← exprs inner args none
    atLine last
    callWith base e line
  | .method o name named args line last => do
    let o ← expr inner o
    atLine named
    let base ← o.method name
    let e ← exprs inner args none
    atLine last
    callWith base e line
  | .binary op l r line => do
    let l ← expr inner l
    atLine line
    let l ← l.prepare op
    let r ← expr inner r
    Operand.binary op l r line
  | .unary op e line => do (← expr inner e).unary op line
  | .conj l r line => do
    let l ← expr inner l
    atLine line
    let l ← l.goIfTrue
    let r ← (← expr inner r).toValue
    return { r with whenFalse := ← join r.whenFalse l.whenFalse }
  | .disj l r line => do
    let l ← expr inner l
    atLine line
    let l ← l.goIfFalse
    let r ← (← expr inner r).toValue
    return { r with whenTrue := ← join r.whenTrue l.whenTrue }
  | .paren e line => do
    let e ← expr inner e
    atLine line
    e.toValue
  | .table before items last => do
    atLine before
    let pc ← emitParts .newTable 0 0 0 false
    let _ ← emit (.ofFar 0)
    let t := (← get).free
    reserve 1
    let s ← tableItems inner t items {}
    atLine last
    let count ← s.finish t
    setTableSize pc t count s.fields
    return ⟨.register t, none, none⟩
  | .field _ v _ => expr inner v
  | .after line e => do atLine line; expr inner e

/-- The expressions of a list, each but the last one in a register of its own. -/
def exprs (inner : Inner) : List Expr → Option Operand → Emit (Option Operand)
  | [], last => return last
  | .after line e :: rest, last => do
    atLine line
    if let some l := last then let _ ← l.toNextRegister
    exprs inner rest (some (← expr inner e))
  | e :: rest, last => do
    if let some l := last then let _ ← l.toNextRegister
    exprs inner rest (some (← expr inner e))

/-- The items of a table in a register. -/
def tableItems (inner : Inner) (t : Nat) : List Expr → Items → Emit Items
  | [], s => return s
  | .after line (.field k v mark) :: rest, s => do
    atLine line
    let s ← s.flush t
    let free := (← get).free
    let k ← (← expr inner k).settled
    atLine mark
    let target ← Operand.item ⟨.register t, none, none⟩ k
    target.store (← expr inner v)
    modify fun b => { b with free }
    tableItems inner t rest { s with fields := s.fields + 1 }
  | .after line e :: rest, s => do
    atLine line
    let s ← s.flush t
    tableItems inner t rest { s with waiting := s.waiting + 1, last := some (← expr inner e) }
  | e :: rest, s => do
    let s ← s.flush t
    tableItems inner t rest { s with waiting := s.waiting + 1, last := some (← expr inner e) }

end

/-- Leaves exactly `wanted` of the values of a list in registers, with `n` expressions. -/
def adjust (wanted n : Nat) (last : Option Operand) : Emit Unit := do
  match last with
  | some e =>
    if e.isOpen then e.setResults (wanted + 1 - n)
    else
      let _ ← e.toNextRegister
      if n < wanted then loadNil (← get).free (wanted - n)
  | none => if n < wanted then loadNil (← get).free (wanted - n)
  if n < wanted then reserve (wanted - n)
  else modify fun b => { b with free := b.free - (n - wanted) }

/-! ### Statements -/

/-- The condition of a loop; the result is the jumps that are taken when it fails. -/
def condition (inner : Inner) (e : Expr) : Emit (Option Nat) := do
  let e ← expr inner e
  let e ← { e with
      place := match e.place with
        | .literal .nil => .literal (.bool false)
        | p => p }.goIfTrue
  return e.whenFalse

/-- The targets so far of an assignment must not be changed by the assignment to a later one:
one that uses the variable assigned there uses a copy of it instead. -/
def protect (earlier : List Operand) (later : Operand) : Emit (List Operand) := do
  let copy := (← get).free
  let changed (t : Operand) : Option Operand :=
    match t.place, later.place with
    | .global i k, .upvalue j => if i == j then some { t with place := .field copy k } else none
    | .intItem r i, .slot s => if r == s then some { t with place := .intItem copy i } else none
    | .field r k, .slot s => if r == s then some { t with place := .field copy k } else none
    | .item r q, .slot s =>
      if r == s || q == s then
        some { t with place := .item (if r == s then copy else r) (if q == s then copy else q) }
      else none
    | _, _ => none
  if earlier.any fun t => (changed t).isSome then
    match later.place with
    | .slot r => put .move copy r 0
    | .upvalue i => put .getUpvalue copy i 0
    | _ => pure ()
    reserve 1
    return earlier.map fun t => (changed t).getD t
  else return earlier

/-- The targets of an assignment, the last one first. -/
def targets (inner : Inner) : List Expr → List Operand → Emit (List Operand)
  | [], done => return done
  | t :: rest, done => do
    let t ← expr inner t
    let done ← match t.place with
      | .slot _ => protect done t
      | .upvalue _ => protect done t
      | _ => pure done
    targets inner rest (t :: done)

/-- The value in the last register in use. -/
def lastRegister : Emit Operand := return ⟨.register ((← get).free - 1), none, none⟩

/-- Leads a loop's jump back to its beginning, or the jump past it forwards. -/
def spanJump (pc target : Nat) (isBack : Bool) : Emit Unit := do
  let d : Int := if isBack then (pc + 1 : Nat) - (target : Int) else (target : Int) - (pc + 1 : Nat)
  if d > Instr.maxWide then failText "control structure too long"
  modifyAt pc (·.withWide d.toNat)

/-- A name that is used in a loop for its hidden variables. -/
def hidden (n : Nat) : List Bytes := List.replicate n Parser.hiddenName

/-- Marks the last variable as one that has to be closed. -/
def closeLater (r : Nat) : Emit Unit := do
  markClosing
  put .markClose r 0 0

def ret (first n : Nat) : Emit Unit := do
  let op : Opcode := match n with | 0 => .retNone | 1 => .retOne | _ => .ret
  put op first (n + 1) 0

/-- Do statements do nothing? -/
def areSkips : List Stmt → Bool
  | [] => true
  | .skip _ :: rest => areSkips rest
  | _ => false

/-- The label that a jump backwards leads to. -/
def findLabel? (name : Bytes) : Emit (Option PlacedLabel) := do
  return (← get).blocks.findSome? fun c => c.labels.find? (·.name == name)

/-- Work in a scope of its own. -/
def inBlock (act : Emit Unit) : Emit Unit := do
  openBlock false
  act
  closeBlock

/-- The body of a loop with its variables. -/
def loopBody (names : List Bytes) (body : Emit Unit) : Emit Unit :=
  inBlock do
    declare names
    reserve names.length
    inBlock body

mutual

/-- A statement. -/
def statement (inner : Inner) : Stmt → Emit Unit
  | .locals names values isFolded close line => do
    let first ← level
    let last ← exprs inner values none
    atLine line
    unless isFolded do adjust names.length values.length last
    declare names
    if let some i := close then closeLater (first + i)
  | .localFunction name f line => do
    declare [name]
    let i := (← get).locals.size - 1
    let _ ← closure (← inner f) line
    modify fun b =>
      { b with locals := b.locals.modify i fun v => { v with start := b.code.size } }
  | .assign ts values => do
    let ts ← targets inner ts []
    let last ← exprs inner values none
    let rest ←
      if values.length == ts.length then
        match ts, last with
        | t :: rest, some e => do
          t.store (← e.toOne)
          pure rest
        | _, _ => pure ts
      else do
        adjust ts.length values.length last
        pure ts
    for t in rest do t.store (← lastRegister)
  | .function target f line last => do
    let t ← expr inner target
    let e ← closure (← inner f) last
    t.store e
    fixLine line
  | .call e => do
    match (← expr inner e).place with
    | .call pc => modifyAt pc (·.withC 1)
    | _ => return
  | .block body last => do
    inBlock (statements inner body)
    atLine last
  | .whileLoop c opened body last => do
    let top ← Emit.target
    let exit ← condition inner c
    openBlock true
    atLine opened
    inBlock (statements inner body)
    patchTo (some (← jump)) top
    atLine last
    closeBlock
    patchHere exit
  | .repeatLoop body closed c => do
    let top ← Emit.target
    openBlock true
    openBlock false
    statements inner body
    atLine closed
    let exit ← condition inner c
    let scope := (← get).blocks.headD default
    closeBlock
    let exit ←
      if scope.closes then do
        let around ← jump
        patchHere exit
        put .close scope.level 0 0
        let again ← jump
        patchHere (some around)
        pure (some again)
      else pure exit
    patchTo exit top
    closeBlock
  | .branch c opened body hasElse otherwise last => do
    let e ← expr inner c
    atLine opened
    let otherJump : Option Nat ← (match body with
      | .leave line :: rest => do
        let e ← e.goIfFalse
        atLine line
        openBlock false
        if let some pc := e.whenTrue then openJump breakName pc
        if areSkips rest then
          statements inner rest
          closeBlock
          pure e.whenFalse
        else
          let other ← jump
          statements inner rest
          closeBlock
          pure (some other)
      | body => do
        let e ← e.goIfTrue
        openBlock false
        statements inner body
        closeBlock
        pure e.whenFalse)
    let isLeave := match body with
      | .leave _ :: rest => areSkips rest
      | _ => false
    let escape ← if hasElse && !isLeave then do pure (some (← jump)) else pure none
    unless isLeave do patchHere otherJump
    inBlock (statements inner otherwise)
    atLine last
    patchHere escape
  | .numericFor name start limit step opened body line last => do
    openBlock true
    let base := (← get).free
    let _ ← (← expr inner start).toNextRegister
    let _ ← (← expr inner limit).toNextRegister
    match step with
    | some s =>
      let _ ← (← expr inner s).toNextRegister
    | none =>
      loadInt (← get).free 1
      reserve 1
    declare (hidden 3)
    atLine opened
    let prep ← emit (.ofWide .forPrep base 0)
    loopBody [name] (statements inner body)
    spanJump prep (← Emit.target) false
    let loop ← emit (.ofWide .forLoop base 0)
    spanJump loop (prep + 1) true
    fixLine line
    atLine last
    closeBlock
  | .genericFor names values opened body line last => do
    openBlock true
    let base := (← get).free
    adjust 4 values.length (← exprs inner values none)
    declare (hidden 4)
    markClosing
    checkRegisters 3
    atLine opened
    let prep ← emit (.ofWide .iteratorPrep base 0)
    loopBody names (statements inner body)
    spanJump prep (← Emit.target) false
    let _ ← emitParts .iteratorCall base 0 names.length false
    fixLine line
    let loop ← emit (.ofWide .iteratorLoop base 0)
    spanJump loop (prep + 1) true
    fixLine line
    atLine last
    closeBlock
  | .ret values line last => do
    let first ← level
    let e ← exprs inner values none
    atLine line
    match e with
    | none => ret first 0
    | some e =>
      if e.isOpen then
        e.setAllResults
        match e.place with
        | .call pc =>
          if values.length == 1 && !((← get).blocks.head?.any (·.insideClosing)) then
            modifyAt pc (·.withOpcode .tailCall)
        | _ => pure ()
        put .ret first 0 0
      else if values.length == 1 then
        let (_, r) ← e.toSomeRegister
        ret r 1
      else
        let _ ← e.toNextRegister
        ret first values.length
    atLine last
  | .goto name line => do
    atLine line
    match ← findLabel? name with
    | some l =>
      if l.level < (← level) then put .close l.level 0 0
      patchTo (some (← jump)) l.pc
    | none => openJump name (← jump)
  | .label name isLast line => do
    atLine line
    let _ ← placeLabel name isLast
  | .leave line => do
    atLine line
    openJump breakName (← jump)
  | .skip line => atLine line

/-- Statements; each one gives up its temporary registers. -/
def statements (inner : Inner) : List Stmt → Emit Unit
  | [] => return
  | s :: rest => do
    statement inner s
    let level ← level
    modify fun b => { b with free := level }
    statements inner rest

end

/-! ### Functions -/

/-- Where a chain of jumps leads. -/
def finalTarget (code : Array Instr) : Nat → Nat → Nat
  | 0, pc => pc
  | n + 1, pc =>
    let i := code.getD pc default
    if i.opcode == .jump then finalTarget code n ((pc : Int) + i.distance + 1).toNat else pc

/-- The longest chain of jumps that is followed. -/
def maxChain : Nat := 100

/-- The finished form of an instruction: jumps lead to where they end up, and a return says
whether there are variables to close or extra arguments to drop. -/
def finished (code : Array Instr) (needsClose : Bool) (parameters : Nat) (isVariadic : Bool)
    (pc : Nat) (i : Instr) : Instr :=
  let leaving (i : Instr) : Instr :=
    let i := if needsClose then i.withK true else i
    if isVariadic then i.withC (parameters + 1) else i
  match i.opcode with
  | .retNone | .retOne => if needsClose || isVariadic then leaving (i.withOpcode .ret) else i
  | .ret | .tailCall => leaving i
  | .jump => .ofJump ((finalTarget code maxChain pc : Int) - (pc + 1 : Nat))
  | _ => i

def VariableKind.number : VariableKind → UInt8
  | .plain => 0
  | .constant => 1
  | .closing => 2

def captureSource : Capture × VariableKind → CaptureSource
  | (.slot i, kind) => ⟨true, i.toUInt8, VariableKind.number kind⟩
  | (.upvalue i, kind) => ⟨false, i.toUInt8, VariableKind.number kind⟩

/-- A function, with the constants met so far and the line of the token read last. -/
def functionWith (inner : Inner) (f : FunctionBody) (seen : SeenConstants) (line : Nat) :
    Except SyntaxFault (Prototype × SeenConstants) := do
  let work : Emit Unit := do
    openBlock false
    declare f.parameters
    if let some l := f.variadic then
      atLine l
      put .varargPrep f.parameters.length 0 0
    reserve f.parameters.length
    statements inner f.body
    atLine f.closed
    ret (← level) 0
    closeBlock
  let (_, b) ← work.run { line, markedLine := f.line, seen }
  let isVariadic := f.variadic.isSome
  let code := b.code.mapIdx (finished b.code b.needsClose f.parameters.length isVariadic)
  return ({
    line := f.line
    lastLine := f.lastLine
    parameters := f.parameters.length.toUInt8
    isVariadic
    registers := b.registers.toUInt8
    code
    constants := b.constants
    captures := (f.captures.map fun c => captureSource c.2).toArray
    functions := b.functions.toList
    lineSteps := b.lineSteps
    lineMarks := b.lineMarks.toList
    locals := b.locals.toList
    captureNames := f.captures.map fun c => some c.1 }, b.seen)

/-- The function of a given number, made inside the current function; functions can be nested
`depth` deep. -/
def innerFunction (functions : Array FunctionBody) : Nat → Inner
  | 0, _ => throw .tooDeep
  | depth + 1, n => do
    let f := functions.getD n default
    for (_, source, _) in f.captures do
      match source with
      | .slot r => markCaptured r
      | .upvalue _ => pure ()
    let b ← get
    match functionWith (innerFunction functions depth) f b.seen b.line with
    | .error e => throw e
    | .ok (p, seen) =>
      set { b with functions := b.functions.push p, seen }
      return b.functions.size

end Generator

/-- The function of a whole program text. -/
def translate (source : Bytes) : Except SyntaxFault Prototype := do
  let functions ← parse source
  let main := functions.back?.getD default
  return (← Generator.functionWith (Generator.innerFunction functions functions.size) main {} 1).1

namespace Code

/-- The function of a program text under a name. -/
def ofSource (name source : Bytes) : Except SyntaxFault Code :=
  (translate source).map fun p => ⟨some name, p⟩

/-- The message about a text that is no program. -/
def faultMessage (name : Bytes) : SyntaxFault → Bytes
  | .at line message => displayOf name ++ Bytes.ofString s!":{line}: " ++ message
  | .tooDeep => Bytes.ofString "C stack overflow"

end Code

end LuaCapsule.Lua
