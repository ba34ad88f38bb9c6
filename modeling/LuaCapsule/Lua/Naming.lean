import LuaCapsule.Lua.Prototype

/-! How messages name values. A register is named by the variable that holds it, or else by what
the last instruction that set it says about its value. -/

namespace LuaCapsule.Lua

/-- How a message names a value. -/
inductive Origin where
  | unknown
  | named (kind : String) (name : Bytes)
  deriving DecidableEq, Inhabited

namespace Origin

def text (kind name : String) : Origin := named kind (Bytes.ofString name)

def iterator : Origin := text "for iterator" "for iterator"

/-- The name in a message, with a blank before it. -/
def describe : Origin → Bytes
  | unknown => .empty
  | named kind name =>
    Bytes.ofString (" (" ++ kind ++ " '") ++ name ++ Bytes.ofString "')"

end Origin

namespace Prototype

def unnamed : Bytes := Bytes.ofString "?"

/-- The name of the variable that holds a register at an instruction. -/
def variableName? (p : Prototype) (r pc : Nat) : Option Bytes :=
  let inScope := (p.locals.takeWhile (·.start ≤ pc)).filter (pc < ·.stop)
  (inScope[r]?).bind (·.name)

/-! ### The instruction that set a register -/

/-- A search for the last instruction that set a register, before another one. What is skipped
by a jump may not have happened. -/
structure Search where
  found : Option Nat := none
  /-- Everything before this place depends on jumps. -/
  certain : Nat := 0

/-- Does an instruction change a register? -/
def changes (i : Instr) (r : Nat) : Bool :=
  match i.opcode with
  | .loadNil => i.a ≤ r && r ≤ i.a + i.b
  | .iteratorCall => i.a + 2 ≤ r
  | .call => i.a ≤ r
  | .tailCall => i.a ≤ r
  | op => op.setsRegister && i.a == r

def Search.pass (p : Prototype) (last r : Nat) (s : Search) (pc : Nat) : Search :=
  let i := p.instr pc
  if i.opcode == .jump then
    let target := ((pc : Int) + 1 + i.distance).toNat
    if target ≤ last && s.certain < target then { s with certain := target } else s
  else if changes i r then { s with found := if pc < s.certain then none else some pc }
  else s

/-- The instruction that set a register last, if that is certain. -/
def setter? (p : Prototype) (pc r : Nat) : Option Nat :=
  let last := if (p.instr pc).opcode.isFallback then pc - 1 else pc
  ((List.range last).foldl (Search.pass p last r) {}).found

/-! ### Names -/

/-- The name of a text among the constants. -/
def constantName? (p : Prototype) (k : Nat) : Option Bytes :=
  match p.constants[k]? with
  | some (.str s) => some s
  | _ => none

/-- What is known about a register: its name, or the instruction that set it. -/
inductive Known where
  | origin (o : Origin)
  | setBy (pc : Nat)
  | nothing

/-- What is known about a register, through moves from lower ones. -/
def known (p : Prototype) : Nat → Nat → Nat → Known
  | 0, _, _ => .nothing
  | fuel + 1, pc, r =>
    match p.variableName? r pc with
    | some n => .origin (.named "local" n)
    | none =>
      match p.setter? pc r with
      | none => .nothing
      | some pc =>
        let i := p.instr pc
        let constant (k : Nat) : Known :=
          match p.constantName? k with
          | some n => .origin (.named "constant" n)
          | none => .setBy pc
        match i.opcode with
        | .move => if i.b < i.a then known p fuel pc i.b else .setBy pc
        | .getUpvalue => .origin (.named "upvalue" ((p.captureName? i.b).getD unnamed))
        | .loadConstant => constant i.wide
        | .loadFar => constant (p.instr (pc + 1)).far
        | _ => .setBy pc

/-- Moves lead to lower registers, of which there are at most so many. -/
def maxMoves : Nat := 256

/-- The name of a key in a register: only texts that are constants have one. -/
def registerKey (p : Prototype) (pc r : Nat) : Bytes :=
  match p.known maxMoves pc r with
  | .origin (.named "constant" n) => n
  | _ => unnamed

/-- Is a name that of the environment? Fields of the environment are global variables. -/
def fieldKind (table : Option Bytes) : String :=
  if table == some (Bytes.ofString "_ENV") then "global" else "field"

/-- The name of the table in a register, if it is a variable. -/
def tableName? (p : Prototype) (pc r : Nat) : Option Bytes :=
  match p.known maxMoves pc r with
  | .origin (.named "local" n) => some n
  | .origin (.named "upvalue" n) => some n
  | _ => none

/-- How messages name the value in a register at an instruction. -/
def registerOrigin (p : Prototype) (pc r : Nat) : Origin :=
  match p.known maxMoves pc r with
  | .origin o => o
  | .nothing => .unknown
  | .setBy pc =>
    let i := p.instr pc
    let constant (k : Nat) : Bytes := (p.constantName? k).getD unnamed
    match i.opcode with
    | .getGlobal => .named (fieldKind (p.captureName? i.b)) (constant i.c)
    | .getTable => .named (fieldKind (p.tableName? pc i.b)) (p.registerKey pc i.c)
    | .getInt => .text "field" "integer index"
    | .getField => .named (fieldKind (p.tableName? pc i.b)) (constant i.c)
    | .self => .named "method" (if i.k then constant i.c else p.registerKey pc i.c)
    | _ => .unknown

def captureOrigin (p : Prototype) (i : Nat) : Origin :=
  .named "upvalue" ((p.captureName? i).getD unnamed)

/-! ### Names of what is called -/

/-- The events of metamethods, in the order of their numbers. -/
def events : Array String :=
  #["index", "newindex", "gc", "mode", "len", "eq", "add", "sub", "mul", "mod", "pow", "div",
    "idiv", "band", "bor", "bxor", "shl", "shr", "unm", "bnot", "lt", "le", "concat", "call",
    "close"]

/-- How messages name the function that an instruction calls. -/
def calleeOrigin (p : Prototype) (pc : Nat) : Origin :=
  let i := p.instr pc
  let event (name : String) : Origin := .text "metamethod" name
  match i.opcode with
  | .call => p.registerOrigin pc i.a
  | .tailCall => p.registerOrigin pc i.a
  | .iteratorCall => .iterator
  | .self | .getGlobal | .getTable | .getInt | .getField => event "index"
  | .setGlobal | .setTable | .setInt | .setField => event "newindex"
  | .fallback | .fallbackInt | .fallbackK => event (events.getD i.c "?")
  | .neg => event "unm"
  | .bnot => event "bnot"
  | .len => event "len"
  | .concat => event "concat"
  | .eq => event "eq"
  | .lt | .ltInt | .gtInt => event "lt"
  | .le | .leInt | .geInt => event "le"
  | .close | .ret => event "close"
  | _ => .unknown

end Prototype

end LuaCapsule.Lua
