import LuaCapsule.Lua.Operator
import LuaCapsule.Lua.Prototype
import Std.Data.TreeMap

/-! A function being made: its instructions with their lines, its constants, its registers and
its jumps. Open jumps to one target form a list, each leading to the next one until the target
is known. -/

namespace LuaCapsule.Lua

/-- A jump to a label that has not been met. -/
structure OpenJump where
  name : Bytes
  pc : Nat
  /-- The number of registers that variables hold. -/
  level : Nat
  /-- It leaves the scope of a variable that has to be closed. -/
  closes : Bool
  deriving Inhabited

structure PlacedLabel where
  name : Bytes
  pc : Nat
  level : Nat
  deriving Inhabited

/-- A block that is being made. -/
structure BlockScope where
  isLoop : Bool
  level : Nat
  /-- One of its variables is captured or has to be closed. -/
  closes : Bool := false
  /-- A variable around here has to be closed. -/
  insideClosing : Bool
  labels : List PlacedLabel := []
  jumps : List OpenJump := []
  deriving Inhabited

/-- The constants met in a chunk, each with its place in the function that used it last. -/
structure SeenConstants where
  places : Std.TreeMap Key Nat Key.cmp := ∅
  nil : Option Nat := none

structure Builder where
  /-- The line of the token read last. -/
  line : Nat
  code : Array Instr := #[]
  lineSteps : Bytes := .empty
  lineMarks : Array (Nat × Nat) := #[]
  /-- The line that the next step starts from. -/
  markedLine : Nat
  /-- How many steps there are since the last mark. -/
  sinceMark : Nat := 0
  /-- No instruction before this place may be changed together with the next one. -/
  lastTarget : Nat := 0
  constants : Array Constant := #[]
  seen : SeenConstants
  functions : Array Prototype := #[]
  locals : Array LocalVariable := #[]
  /-- The variables in scope, innermost first, by their places in `variables`. -/
  active : List Nat := []
  /-- The first register that holds nothing. -/
  free : Nat := 0
  registers : Nat := 2
  blocks : List BlockScope := []
  needsClose : Bool := false

/-- Work on the function being made. -/
abbrev Emit := StateT Builder (Except SyntaxFault)

instance : Inhabited (Emit α) := ⟨throw .tooDeep⟩

namespace Emit

def failText (message : String) : Emit α := do throw (.at (← get).line (Bytes.ofString message))

/-- Takes note of the line of a token that is passed. -/
def atLine (line : Nat) : Emit Unit := modify fun b => { b with line }

/-! ### Lines -/

/-- Steps at least this large are written as marks. -/
def largeStep : Nat := 128

/-- After so many steps there is a mark. -/
def maxSteps : Nat := 128

/-- Keeps the line of the last instruction. -/
def saveLine (line : Nat) : Emit Unit := modify fun b =>
  let step : Int := (line : Int) - b.markedLine
  if step.natAbs ≥ largeStep || b.sinceMark ≥ maxSteps then
    { b with
      lineSteps := b.lineSteps.push Prototype.markStep
      lineMarks := b.lineMarks.push (b.code.size - 1, line)
      sinceMark := 1
      markedLine := line }
  else
    { b with
      lineSteps := b.lineSteps.push (step % 256).toNat.toUInt8
      sinceMark := b.sinceMark + 1
      markedLine := line }

/-- Forgets the line of the last instruction. After a mark there has to be a mark. -/
def dropLine : Emit Unit := modify fun b =>
  let steps := b.lineSteps.extract 0 (b.lineSteps.size - 1)
  let step := b.lineSteps.at0 (b.lineSteps.size - 1)
  if step == Prototype.markStep then
    { b with lineSteps := steps, lineMarks := b.lineMarks.pop, sinceMark := maxSteps + 1 }
  else
    { b with
      lineSteps := steps
      markedLine := ((b.markedLine : Int) - Prototype.stepOf step).toNat
      sinceMark := b.sinceMark - 1 }

/-- Gives the last instruction another line. -/
def fixLine (line : Nat) : Emit Unit := do
  dropLine
  saveLine line

/-! ### Instructions -/

/-- The place of the next instruction. -/
def here : Emit Nat := return (← get).code.size

/-- Adds an instruction; the result is its place. -/
def emit (i : Instr) : Emit Nat := do
  let pc ← here
  modify fun b => { b with code := b.code.push i }
  saveLine (← get).line
  return pc

def emitParts (op : Opcode) (a b c : Nat) (k : Bool) : Emit Nat := emit (.ofParts op a b c k)

/-- Adds an instruction that is not referred to later. -/
def put (op : Opcode) (a b c : Nat) : Emit Unit := do
  let _ ← emitParts op a b c false

def instrAt (pc : Nat) : Emit Instr := return (← get).code.getD pc default

def modifyAt (pc : Nat) (f : Instr → Instr) : Emit Unit :=
  modify fun b => { b with code := b.code.modify pc f }

def dropInstr : Emit Unit := do
  dropLine
  modify fun b => { b with code := b.code.pop }

/-- The last instruction, unless a jump may lead behind it. -/
def previous? : Emit (Option (Nat × Instr)) := do
  let b ← get
  if b.code.size > b.lastTarget then
    return (b.code.back?).map fun i => (b.code.size - 1, i)
  else return none

/-! ### Constants -/

/-- The key under which a constant is looked for. An integral double must not be taken for the
integer, so that a neighbour stands for it. -/
def keyOf : Constant → Option Key
  | .nil => none
  | .bool b => some (.bool b)
  | .int i => some (.int i)
  | .str s => some (.str s)
  | .float x =>
    match x.toInt64? with
    | none => Key.ofValue? (.float x)
    | some i =>
      let tiny : Binary64 := ⟨0x3cb0000000000000⟩
      Key.ofValue? (.float (if i == 0 then tiny else x.add (x.mul tiny)))

/-- The place of a constant. -/
def constant (c : Constant) : Emit Nat := do
  let b ← get
  let key := keyOf c
  let found := match key with
    | some key => b.seen.places.get? key
    | none => b.seen.nil
  let reused := found.bind fun i => if b.constants[i]? == some c then some i else none
  match reused with
  | some i => return i
  | none =>
    let i := b.constants.size
    set { b with
      constants := b.constants.push c
      seen := match key with
        | some key => { b.seen with places := b.seen.places.insert key i }
        | none => { b.seen with nil := some i } }
    return i

/-! ### Registers -/

/-- How many registers variables hold. -/
def level : Emit Nat := return (← get).active.length

def maxRegisters : Nat := 255

/-- Makes sure that there are `n` more registers. -/
def checkRegisters (n : Nat) : Emit Unit := do
  let needed := (← get).free + n
  if needed > (← get).registers then
    if needed ≥ maxRegisters then failText "function or expression needs too many registers"
    modify fun b => { b with registers := needed }

def reserve (n : Nat) : Emit Unit := do
  checkRegisters n
  modify fun b => { b with free := b.free + n }

/-- Gives up a register, if it is no variable's. -/
def release (r : Nat) : Emit Unit := do
  if (← level) ≤ r then modify fun b => { b with free := b.free - 1 }

def releaseTwo (r s : Nat) : Emit Unit := do
  release (max r s)
  release (min r s)

/-- Sets `n` registers from one on to nil. -/
def loadNil (first n : Nat) : Emit Unit := do
  let last := first + n - 1
  match ← previous? with
  | some (pc, i) =>
    let from' := i.a
    let upto := i.a + i.b
    if i.opcode == .loadNil
        && ((from' ≤ first && first ≤ upto + 1) || (first ≤ from' && from' ≤ last + 1)) then
      let first := min first from'
      modifyAt pc fun i => (i.withA first).withB (max last upto - first)
    else put .loadNil first (n - 1) 0
  | none => put .loadNil first (n - 1) 0

/-- Loads a constant by its place. -/
def loadConstant (r k : Nat) : Emit Unit := do
  if k ≤ Instr.maxWide then
    let _ ← emit (.ofWide .loadConstant r k)
  else
    let _ ← emit (.ofWide .loadFar r 0)
    let _ ← emit (.ofFar k)

/-- Does an integer fit as an operand of seventeen bits? -/
def fitsWide (i : Int) : Bool := -Instr.excessWide ≤ i && i ≤ Instr.maxWide - Instr.excessWide

def loadInt (r : Nat) (i : Int64) : Emit Unit := do
  if fitsWide i.toInt then
    let _ ← emit (.ofSigned .loadInt r i.toInt)
  else loadConstant r (← constant (.int i))

def loadDouble (r : Nat) (x : Binary64) : Emit Unit := do
  match x.toInt64? with
  | some i =>
    if fitsWide i.toInt then
      let _ ← emit (.ofSigned .loadDouble r i.toInt)
    else loadConstant r (← constant (.float x))
  | none => loadConstant r (← constant (.float x))

/-! ### Jumps -/

/-- Marks the next instruction as one that a jump can lead to. -/
def target : Emit Nat := do
  modify fun b => { b with lastTarget := b.code.size }
  here

/-- The distance of a jump that ends a list. -/
def noJump : Int := -1

/-- Adds a jump whose target is open. -/
def jump : Emit Nat := emit (.ofJump noJump)

/-- The jumps of a list, of which there are at most so many. -/
def jumpsFrom (code : Array Instr) : Nat → Option Nat → List Nat
  | 0, _ => []
  | _, none => []
  | n + 1, some pc =>
    let d := (code.getD pc default).distance
    pc :: jumpsFrom code n (if d == noJump then none else some (pc + 1 + d).toNat)

def jumps (l : Option Nat) : Emit (List Nat) := do
  let b ← get
  return jumpsFrom b.code b.code.size l

def lead (pc target : Nat) : Emit Unit := do
  let d : Int := (target : Int) - (pc + 1 : Nat)
  if d.natAbs > Instr.excessJump.toNat then failText "control structure too long"
  modifyAt pc fun _ => .ofJump d

/-- One list made of two. -/
def join (l m : Option Nat) : Emit (Option Nat) := do
  match l, m with
  | l, none => return l
  | none, m => return m
  | some l, some m =>
    match (← jumps (some l)).getLast? with
    | some last => lead last m
    | none => pure ()
    return some l

/-- The place of the instruction that decides about a jump, which may be the jump itself. -/
def control (pc : Nat) : Emit Nat := do
  if 1 ≤ pc && (← instrAt (pc - 1)).opcode.isTest then return pc - 1 else return pc

/-- Lets a jump's test put the value tested into a register, or nowhere. The result is whether
there is such a test. -/
def settleTest (pc : Nat) (r : Option Nat) : Emit Bool := do
  let p ← control pc
  let i ← instrAt p
  if i.opcode != .testSet then return false
  match r with
  | some r =>
    if r != i.b then modifyAt p (·.withA r)
    else modifyAt p fun i => .ofParts .test i.b 0 0 i.k
  | none => modifyAt p fun i => .ofParts .test i.b 0 0 i.k
  return true

/-- The jumps of a list need no values. -/
def dropValues (l : Option Nat) : Emit Unit := do
  for pc in ← jumps l do
    let _ ← settleTest pc none

/-- Leads jumps that give a register its value to one target, and all others to another. -/
def patch (l : Option Nat) (valued : Nat) (r : Option Nat) (other : Nat) : Emit Unit := do
  for pc in ← jumps l do
    if ← settleTest pc r then lead pc valued else lead pc other

def patchTo (l : Option Nat) (target : Nat) : Emit Unit := patch l target none target

def patchHere (l : Option Nat) : Emit Unit := do patchTo l (← target)

/-- A test followed by the jump that it decides about. -/
def testJump (op : Opcode) (a b c : Nat) (k : Bool) : Emit Nat := do
  let _ ← emitParts op a b c k
  jump

/-- Does a jump of a list come without a value? -/
def needsValue (l : Option Nat) : Emit Bool := do
  (← jumps l).anyM fun pc => do return (← instrAt (← control pc)).opcode != .testSet

/-! ### Variables and blocks -/

/-- Brings variables into scope, in the registers that follow those of other variables. -/
def declare (names : List Bytes) : Emit Unit := do
  for n in names do
    modify fun b =>
      { b with
        locals := b.locals.push ⟨some n, b.code.size, 0⟩
        active := b.locals.size :: b.active }

/-- Takes variables out of scope until `n` are left. -/
def undeclare (n : Nat) : Emit Unit := modify fun b =>
  let gone := b.active.length - n
  { b with
    locals := (b.active.take gone).foldl
      (fun vs i => vs.modify i fun v => { v with stop := b.code.size }) b.locals
    active := b.active.drop gone }

def modifyBlock (f : BlockScope → BlockScope) : Emit Unit := modify fun b =>
  { b with blocks := match b.blocks with | [] => [] | c :: cs => f c :: cs }

def openBlock (isLoop : Bool) : Emit Unit := do
  let level ← level
  modify fun b =>
    { b with
      blocks := { isLoop, level, insideClosing := (b.blocks.head?).any (·.insideClosing) } :: b.blocks }

/-- A variable is captured: the block that declares it closes it. -/
def markCaptured (r : Nat) : Emit Unit := modify fun b =>
  let rec mark : List BlockScope → List BlockScope
    | [] => []
    | c :: cs => if c.level ≤ r then { c with closes := true } :: cs else c :: mark cs
  { b with blocks := mark b.blocks, needsClose := true }

/-- The innermost block has a variable that has to be closed. -/
def markClosing : Emit Unit := do
  modifyBlock fun c => { c with closes := true, insideClosing := true }
  modify fun b => { b with needsClose := true }

/-- Places a label, to which the open jumps of the innermost block lead. The result is whether
variables are closed there. -/
def placeLabel (name : Bytes) (isLast : Bool) : Emit Bool := do
  let pc ← target
  match (← get).blocks with
  | [] => return false
  | c :: _ =>
    let level ← if isLast then pure c.level else level
    let (mine, others) := c.jumps.partition (·.name == name)
    modifyBlock fun c => { c with labels := ⟨name, pc, level⟩ :: c.labels, jumps := others }
    for j in mine do patchTo (some j.pc) pc
    if mine.any (·.closes) then
      put .close (← Emit.level) 0 0
      return true
    else return false

/-- The name of the end of a loop. -/
def breakName : Bytes := Bytes.ofString "break"

def openJump (name : Bytes) (pc : Nat) : Emit Unit := do
  let level ← level
  modifyBlock fun c => { c with jumps := ⟨name, pc, level, false⟩ :: c.jumps }

/-- Ends the innermost block. Its open jumps become those of the block around it. -/
def closeBlock : Emit Unit := do
  match (← get).blocks with
  | [] => return
  | c :: rest =>
    undeclare c.level
    let closed ← if c.isLoop then placeLabel breakName false else pure false
    if !closed && !rest.isEmpty && c.closes then put .close c.level 0 0
    modify fun b =>
      { b with
        free := c.level
        blocks :=
          match b.blocks with
          | c :: o :: cs =>
            let left := c.jumps.map fun j =>
              { j with closes := j.closes || (j.level > c.level && c.closes), level := c.level }
            { o with jumps := left ++ o.jumps } :: cs
          | _ => [] }

end Emit

end LuaCapsule.Lua
