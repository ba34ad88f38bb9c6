import LuaCapsule.Lua.Operator
import LuaCapsule.Lua.Token

/-! Reading a program. Tokens are read once from left to right, and names are resolved as
they are met, so that of several faults the first one in the text is reported. -/

namespace LuaCapsule.Lua

namespace Parser

/-- What a name stands for. -/
inductive Binding where
  | slot (i : Nat)
  /-- A constant known when it was declared. -/
  | folded (v : Value)
  deriving Inhabited

/-- A declared variable. -/
structure Variable where
  name : Bytes
  binding : Binding
  kind : VariableKind
  deriving Inhabited

/-- A variable of an enclosing function, as the current function sees it. -/
structure Captured where
  name : Bytes
  source : Capture
  kind : VariableKind
  deriving Inhabited

structure Label where
  name : Bytes
  line : Nat
  /-- The number of variables in scope. -/
  depth : Nat
  deriving Inhabited

/-- A block that is being read. Its jumps are those to labels not met yet. -/
structure Block where
  isLoop : Bool
  depth : Nat
  labels : List Label
  jumps : List Label
  deriving Inhabited

/-- A function that is being read, with its innermost variables and blocks first. -/
structure Scope where
  line : Nat
  isVariadic : Bool
  visible : List Variable
  captured : Array Captured
  blocks : List Block
  slots : Nat
  deriving Inhabited

structure State where
  tokens : List Lexeme
  /-- The line of the token read last. -/
  lastLine : Nat
  /-- The functions being read, innermost first. -/
  scopes : List Scope
  functions : Array FunctionBody
  nesting : Nat
  deriving Inhabited

abbrev Parse := StateT State (Except SyntaxFault)

def maxNesting : Nat := 200

def maxVariables : Nat := 200

def maxCaptured : Nat := 255

/-! ### Tokens -/

def current : Parse Lexeme := return (← get).tokens.headD ⟨.eof, Lexeme.atEnd, 1⟩

def token : Parse Token := return (← current).token

def line : Parse Nat := return (← current).line

def lastLine : Parse Nat := return (← get).lastLine

/-- A fault without a token in its message. -/
def fail (message : Bytes) : Parse α := do throw (.at (← line) message)

def failText (message : String) : Parse α := fail (Bytes.ofString message)

/-- A fault at the current token. -/
def failNear (message : String) : Parse α := do
  let t ← current
  throw (.at t.line (Bytes.ofString (message ++ " near ") ++ t.near))

/-- The current token is a fault of its own. -/
def checkFault : Parse Unit := do
  match ← token with
  | .fault m => failNear m
  | _ => return

/-- Goes on to the next token. -/
def advance : Parse Unit := do
  modify fun s =>
    { s with
      lastLine := (s.tokens.headD default).line
      tokens := match s.tokens with | [] => [] | [t] => [t] | _ :: ts => ts }
  checkFault

def isMark (m : String) : Parse Bool := return (← token) == .mark m

def isWord (w : String) : Parse Bool := return (← token) == .keyword w

/-- Passes over a mark if it comes next. -/
def skipMark (m : String) : Parse Bool := do
  if ← isMark m then advance; return true else return false

def skipWord (w : String) : Parse Bool := do
  if ← isWord w then advance; return true else return false

def expectMark (m : String) : Parse Unit := do
  unless ← skipMark m do failNear s!"'{m}' expected"

def expectWord (w : String) : Parse Unit := do
  unless ← skipWord w do failNear s!"'{w}' expected"

/-- A closing token, of which the message names the opening one if that is on another line. -/
def expectClosing (closing : Token) (spelling opening : String) (opened : Nat) : Parse Unit := do
  if (← token) == closing then advance
  else if opened == (← line) then failNear s!"'{spelling}' expected"
  else failNear s!"'{spelling}' expected (to close '{opening}' at line {opened})"

def expectName : Parse Bytes := do
  match ← token with
  | .name n => advance; return n
  | _ => failNear "<name> expected"

/-! ### Scopes -/

def emptyScope : Scope := ⟨0, false, [], #[], [], 0⟩

def scope : Parse Scope := return (← get).scopes.headD emptyScope

def modifyScope (f : Scope → Scope) : Parse Unit :=
  modify fun s =>
    { s with scopes := match s.scopes with | [] => [] | c :: cs => f c :: cs }

/-- The function that a limit was exceeded in. -/
def whereAmI : Parse String := do
  let s ← scope
  return if s.line == 0 then "main function" else s!"function at line {s.line}"

def checkLimit (count limit : Nat) (what : String) : Parse Unit := do
  if count > limit then
    failNear s!"too many {what} (limit is {limit}) in {← whereAmI}"

/-- Takes some slots. -/
def takeSlots (n : Nat) : Parse Nat := do
  let s ← scope
  modifyScope fun c => { c with slots := c.slots + n }
  return s.slots

/-- Brings a variable with a slot of its own into scope. -/
def declare (name : Bytes) (kind : VariableKind) : Parse Unit := do
  let i ← takeSlots 1
  modifyScope fun c => { c with visible := ⟨name, .slot i, kind⟩ :: c.visible }

/-- Brings a known constant into scope. -/
def declareFolded (name : Bytes) (v : Value) : Parse Unit :=
  modifyScope fun c => { c with visible := ⟨name, .folded v, .constant⟩ :: c.visible }

/-- Hidden variables, which count as variables in scope. -/
def declareHidden (n : Nat) (name : Bytes) : Parse Unit := do
  let i ← takeSlots n
  modifyScope fun c =>
    { c with
      visible := (List.range n).map (fun k => ⟨name, .slot (i + n - 1 - k), .plain⟩) ++ c.visible }

/-- What a name denotes in a function. -/
inductive Found where
  | slot (i : Nat) (kind : VariableKind)
  | upvalue (i : Nat) (kind : VariableKind)
  | folded (v : Value)
  | environment
  deriving Inhabited

/-- Looks a name up, from the innermost function outwards. Every function between the one
that declares the name and the one that uses it captures it. -/
def find (name : Bytes) : List Scope → Found × List Scope
  | [] => (.environment, [])
  | c :: outer =>
    match c.visible.find? (·.name == name) with
    | some ⟨_, .slot i, k⟩ => (.slot i k, c :: outer)
    | some ⟨_, .folded v, _⟩ => (.folded v, c :: outer)
    | none =>
      match c.captured.findIdx? (·.name == name) with
      | some i => (.upvalue i (c.captured.getD i default).kind, c :: outer)
      | none =>
        let capture (source : Capture) (k : VariableKind) (outer : List Scope) : Found × List Scope :=
          (.upvalue c.captured.size k, { c with captured := c.captured.push ⟨name, source, k⟩ } :: outer)
        match find name outer with
        | (.environment, outer) => (.environment, c :: outer)
        | (.folded v, outer) => (.folded v, c :: outer)
        | (.slot i k, outer) => capture (.slot i) k outer
        | (.upvalue i k, outer) => capture (.upvalue i) k outer

def environmentName : Bytes := Bytes.ofString "_ENV"

def lookup (name : Bytes) : Parse Found := do
  let (found, scopes) := find name (← get).scopes
  modify fun s => { s with scopes }
  checkLimit (← scope).captured.size maxCaptured "upvalues"
  return found

/-- The expression that a found name denotes. -/
def Found.toExpr (name : Bytes) (line : Nat) : Found → Expr
  | .slot i _ => .slot i name line
  | .upvalue i _ => .upvalue i name line
  | .folded v => .known v name line
  | .environment => .const .nil line

/-- The expression of a name: a variable, or a field of the environment. -/
def nameExpr (name : Bytes) : Parse Expr := do
  let l ← lastLine
  match ← lookup name with
  | .environment =>
    let env ← lookup environmentName
    return .index (env.toExpr environmentName l) (.const (.str name) l) l
  | found => return found.toExpr name l

/-! ### Blocks and labels -/

def openBlock (isLoop : Bool) : Parse Unit :=
  modifyScope fun c => { c with blocks := ⟨isLoop, c.visible.length, [], []⟩ :: c.blocks }

def modifyBlock (f : Block → Block) : Parse Unit :=
  modifyScope fun c =>
    { c with blocks := match c.blocks with | [] => [] | b :: bs => f b :: bs }

/-- The name that a jump out of a loop has. -/
def breakName : Bytes := Bytes.ofString "break"

def jumpIntoScope (jump : Label) (name : Bytes) : Parse α :=
  fail (Bytes.ofString "<goto " ++ jump.name ++ Bytes.ofString s!"> at line {jump.line} jumps into the scope of local '"
    ++ name ++ Bytes.ofString "'")

/-- Settles the open jumps of the current block that go to a label. -/
def solve (label : Label) : Parse Unit := do
  let c ← scope
  match c.blocks with
  | [] => return
  | b :: _ =>
    for j in b.jumps.reverse do
      if j.name == label.name && j.depth < label.depth then
        let i := c.visible.length - 1 - j.depth
        jumpIntoScope j (c.visible.getD i default).name
    modifyBlock fun b => { b with jumps := b.jumps.filter (·.name != label.name) }

/-- Ends the current block: its variables go out of scope, and its open jumps become those of
the block around it. -/
def closeBlock : Parse Unit := do
  let c ← scope
  match c.blocks with
  | [] => return
  | b :: rest =>
    if b.isLoop then
      modifyBlock fun b => { b with jumps := b.jumps.filter (·.name != breakName) }
    let b := ((← scope).blocks.headD b)
    let free := c.visible.length - b.depth
    let dropped := (c.visible.take free).countP fun v =>
      match v.binding with | .slot _ => true | .folded _ => false
    modifyScope fun c =>
      { c with visible := c.visible.drop free, slots := c.slots - dropped, blocks := rest }
    match rest with
    | [] =>
      match b.jumps.getLast? with
      | some j =>
        if j.name == breakName then failText s!"break outside loop at line {j.line}"
        else
          fail (Bytes.ofString "no visible label '" ++ j.name
            ++ Bytes.ofString s!"' for <goto> at line {j.line}")
      | none => return
    | _ =>
      modifyBlock fun o =>
        { o with jumps := b.jumps.map (fun j => { j with depth := min j.depth b.depth }) ++ o.jumps }

def addJump (name : Bytes) (line : Nat) : Parse Unit := do
  let depth := (← scope).visible.length
  modifyBlock fun b => { b with jumps := ⟨name, line, depth⟩ :: b.jumps }

/-- The labels that a jump can see. -/
def findLabel (name : Bytes) : Parse (Option Label) := do
  return (← scope).blocks.findSome? fun b => b.labels.find? (·.name == name)

/-- Does a token end a block? -/
def endsBlock (withUntil : Bool) : Token → Bool
  | .keyword "else" => true
  | .keyword "elseif" => true
  | .keyword "end" => true
  | .keyword "until" => withUntil
  | .eof => true
  | _ => false

/-- Brings a label into scope. One at the end of its block is out of the scope of the block's
variables. -/
def addLabel (name : Bytes) (isLast : Bool) (line : Nat) : Parse Unit := do
  let c ← scope
  let depth := if isLast then (c.blocks.headD default).depth else c.visible.length
  let label : Label := ⟨name, line, depth⟩
  solve label
  modifyBlock fun b => { b with labels := label :: b.labels }

/-! ### Operators -/

/-- An operator between two operands, as it is read. -/
inductive Infix where
  | binary (op : BinaryOp)
  | conj
  | disj

/-- An operator with its left and right priorities. -/
def infixOf? : Token → Option (Infix × Nat × Nat)
  | .mark "+" => some (.binary (.arith .add), 10, 10)
  | .mark "-" => some (.binary (.arith .sub), 10, 10)
  | .mark "*" => some (.binary (.arith .mul), 11, 11)
  | .mark "%" => some (.binary (.arith .mod), 11, 11)
  | .mark "^" => some (.binary (.arith .pow), 14, 13)
  | .mark "/" => some (.binary (.arith .div), 11, 11)
  | .mark "//" => some (.binary (.arith .idiv), 11, 11)
  | .mark "&" => some (.binary (.arith .band), 6, 6)
  | .mark "|" => some (.binary (.arith .bor), 4, 4)
  | .mark "~" => some (.binary (.arith .bxor), 5, 5)
  | .mark "<<" => some (.binary (.arith .shl), 7, 7)
  | .mark ">>" => some (.binary (.arith .shr), 7, 7)
  | .mark ".." => some (.binary .concat, 9, 8)
  | .mark "~=" => some (.binary (.compare .ne), 3, 3)
  | .mark "==" => some (.binary (.compare .eq), 3, 3)
  | .mark "<" => some (.binary (.compare .lt), 3, 3)
  | .mark "<=" => some (.binary (.compare .le), 3, 3)
  | .mark ">" => some (.binary (.compare .gt), 3, 3)
  | .mark ">=" => some (.binary (.compare .ge), 3, 3)
  | .keyword "and" => some (.conj, 2, 2)
  | .keyword "or" => some (.disj, 1, 1)
  | _ => none

def unaryOf? : Token → Option UnaryOp
  | .keyword "not" => some .not
  | .mark "-" => some .neg
  | .mark "~" => some .bnot
  | .mark "#" => some .len
  | _ => none

/-- The right priority of operators of one operand. -/
def unaryPriority : Nat := 12

/-- Enters a level of nesting. -/
def deeper (act : Parse α) : Parse α := do
  if (← get).nesting + 1 ≥ maxNesting then throw .tooDeep
  modify fun s => { s with nesting := s.nesting + 1 }
  let a ← act
  modify fun s => { s with nesting := s.nesting - 1 }
  return a

/-! ### Functions -/

def openFunction (line : Nat) : Parse Unit :=
  modify fun s => { s with scopes := ⟨line, false, [], #[], [], 0⟩ :: s.scopes }

/-- Ends a function, whose number is the result. -/
def closeFunction (parameters : List Bytes) (variadic : Option Nat) (lastLine : Nat)
    (body : List Stmt) : Parse Nat := do
  let c ← scope
  let closed ← Parser.lastLine
  modify fun s =>
    { s with
      scopes := s.scopes.drop 1
      functions := s.functions.push
        { line := c.line, lastLine, parameters, variadic, body, closed
          captures := c.captured.toList.map fun u => (u.name, u.source, u.kind) } }
  return (← get).functions.size - 1

/-- The names after an opening parenthesis, up to the closing one, and the line of the dots that
may end them. -/
def parameterNames : Nat → Parse (List Bytes × Option Nat)
  | 0 => return ([], none)
  | fuel + 1 => do
    match ← token with
    | .name n =>
      advance
      if ← skipMark "," then
        let (ns, dots) ← parameterNames fuel
        return (n :: ns, dots)
      else return ([n], none)
    | .mark "..." => advance; return ([], some (← lastLine))
    | _ => failNear "<name> or '...' expected"

/-- What an attribute in angle brackets after a declared name says. -/
def declaredKind : Parse VariableKind := do
  if ← skipMark "<" then
    let n ← expectName
    expectMark ">"
    if n == Bytes.ofString "const" then return .constant
    else if n == Bytes.ofString "close" then return .closing
    else fail (Bytes.ofString "unknown attribute '" ++ n ++ Bytes.ofString "'")
  else return .plain

def checkVariables (extra : Nat) : Parse Unit := do
  checkLimit ((← scope).visible.length + extra) maxVariables "local variables"

/-- The names of a declaration, with their attributes. -/
def declaredNames : Nat → Nat → Parse (List (Bytes × VariableKind))
  | 0, _ => return []
  | fuel + 1, count => do
    let n ← expectName
    checkVariables (count + 1)
    let a ← declaredKind
    if ← skipMark "," then return (n, a) :: (← declaredNames fuel (count + 1))
    else return [(n, a)]

/-- An assignment needs a variable that is no constant. -/
def checkNotConstant (e : Expr) : Parse Unit := do
  let refuse (name : Bytes) : Parse Unit :=
    fail (Bytes.ofString "attempt to assign to const variable '" ++ name ++ Bytes.ofString "'")
  match e with
  | .slot i name _ =>
    match (← scope).visible.find? fun v => v.name == name with
    | some ⟨_, .slot j, kind⟩ => if i == j && kind != .plain then refuse name else return
    | _ => return
  | .upvalue i name _ =>
    if ((← scope).captured.getD i default).kind != .plain then refuse name else return
  | .known _ name _ => refuse name
  | _ => return

def isAssignable : Expr → Bool
  | .slot .. => true
  | .upvalue .. => true
  | .index .. => true
  | .known .. => true
  | _ => false

/-- The name of the hidden variables of loops. -/
def hiddenName : Bytes := Bytes.ofString "(for state)"

/-! ### Expressions and statements -/

mutual

def primary : Nat → Parse Expr
  | 0 => throw .tooDeep
  | fuel + 1 => do
    match ← token with
    | .name n => advance; nameExpr n
    | .mark "(" =>
      let opened ← line
      advance
      let e ← expr fuel
      expectClosing (.mark ")") ")" "(" opened
      return .paren e (← lastLine)
    | _ => failNear "unexpected symbol"
termination_by structural fuel => fuel

/-- Accesses and calls after an expression. -/
def suffixes : Nat → Expr → Parse Expr
  | 0, _ => throw .tooDeep
  | fuel + 1, e => do
    let l ← line
    match ← token with
    | .mark "." =>
      advance
      let n ← expectName
      let named ← lastLine
      suffixes fuel (.index e (.const (.str n) named) named)
    | .mark "[" =>
      advance
      let k ← expr fuel
      expectMark "]"
      suffixes fuel (.index e k (← lastLine))
    | .mark ":" =>
      advance
      let n ← expectName
      let named ← lastLine
      let l ← line
      let args ← arguments fuel
      suffixes fuel (.method e n named args l (← lastLine))
    | .mark "(" => suffixes fuel (.call e (← arguments fuel) l (← lastLine))
    | .mark "\x7b" => suffixes fuel (.call e (← arguments fuel) l (← lastLine))
    | .str _ => suffixes fuel (.call e (← arguments fuel) l (← lastLine))
    | _ => return e
termination_by structural fuel => fuel

def suffixed : Nat → Parse Expr
  | 0 => throw .tooDeep
  | fuel + 1 => do
    let e ← primary fuel
    suffixes fuel e
termination_by structural fuel => fuel

/-- The arguments of a call. -/
def arguments : Nat → Parse (List Expr)
  | 0 => throw .tooDeep
  | fuel + 1 => do
    match ← token with
    | .str s => advance; return [.const (.str s) (← lastLine)]
    | .mark "\x7b" => return [← tableBody fuel]
    | .mark "(" =>
      let opened ← line
      advance
      if ← skipMark ")" then return []
      let es ← exprs fuel
      expectClosing (.mark ")") ")" "(" opened
      return es
    | _ => failNear "function arguments expected"
termination_by structural fuel => fuel

/-- One or more expressions with commas between them. -/
def exprs : Nat → Parse (List Expr)
  | 0 => throw .tooDeep
  | fuel + 1 => do
    let e ← expr fuel
    return e :: (← moreExprs fuel)
termination_by structural fuel => fuel

/-- The expressions after the first one of a list. -/
def moreExprs : Nat → Parse (List Expr)
  | 0 => throw .tooDeep
  | fuel + 1 => do
    if ← skipMark "," then
      let l ← lastLine
      let e ← expr fuel
      return .after l e :: (← moreExprs fuel)
    else return []
termination_by structural fuel => fuel

def tableBody : Nat → Parse Expr
  | 0 => throw .tooDeep
  | fuel + 1 => do
    let before ← lastLine
    let opened ← line
    expectMark "\x7b"
    let items ← tableItems opened fuel
    return .table before items (← lastLine)
termination_by structural fuel => fuel

/-- The items of a table from one on; each is marked with the line of the token in front. -/
def tableItems (opened : Nat) : Nat → Parse (List Expr)
  | 0 => throw .tooDeep
  | fuel + 1 => do
    let before ← lastLine
    if ← skipMark "\x7d" then return []
    let item ←
      match (← get).tokens with
      | ⟨.name n, _, _⟩ :: ⟨.mark "=", _, _⟩ :: _ =>
        advance
        let named ← lastLine
        advance
        let l ← lastLine
        pure (.field (.const (.str n) named) (← expr fuel) l)
      | ⟨.name _, _, _⟩ :: ⟨.fault m, near, l⟩ :: _ =>
        throw (.at l (Bytes.ofString (m ++ " near ") ++ near))
      | ⟨.mark "[", _, _⟩ :: _ =>
        advance
        let k ← expr fuel
        expectMark "]"
        expectMark "="
        let l ← lastLine
        pure (.field k (← expr fuel) l)
      | _ => expr fuel
    let item := .after before item
    if (← skipMark ",") || (← skipMark ";") then return item :: (← tableItems opened fuel)
    else
      expectClosing (.mark "\x7d") "\x7d" "\x7b" opened
      return [item]
termination_by structural fuel => fuel

def simple : Nat → Parse Expr
  | 0 => throw .tooDeep
  | fuel + 1 => do
    let constant (v : Value) : Parse Expr := do
      advance
      return .const v (← lastLine)
    match ← token with
    | .int i => constant (.int i)
    | .float x => constant (.float x)
    | .str s => constant (.str s)
    | .keyword "nil" => constant .nil
    | .keyword "true" => constant (.bool true)
    | .keyword "false" => constant (.bool false)
    | .mark "..." =>
      unless (← scope).isVariadic do failNear "cannot use '...' outside a vararg function"
      let before ← lastLine
      advance
      return .vararg before (← lastLine)
    | .mark "\x7b" => tableBody fuel
    | .keyword "function" =>
      advance
      let l ← line
      let f ← functionBody fuel l false
      return .closure f (← lastLine)
    | _ => suffixed fuel
termination_by structural fuel => fuel

/-- An expression whose operators bind more tightly than a limit. -/
def subexpr (limit : Nat) : Nat → Parse Expr
  | 0 => throw .tooDeep
  | fuel + 1 => deeper do
    let left ←
      match unaryOf? (← token) with
      | some op =>
        let l ← line
        advance
        let e ← subexpr unaryPriority fuel
        pure (.unary op e l)
      | none => simple fuel
    operators limit fuel left
termination_by structural fuel => fuel

def operators (limit : Nat) : Nat → Expr → Parse Expr
  | 0, _ => throw .tooDeep
  | fuel + 1, left => do
    match infixOf? (← token) with
    | none => return left
    | some (op, leftPriority, rightPriority) =>
      if leftPriority ≤ limit then return left
      let l ← line
      advance
      let right ← subexpr rightPriority fuel
      operators limit fuel <|
        match op with
        | .binary op => .binary op left right l
        | .conj => .conj left right l
        | .disj => .disj left right l
termination_by structural fuel => fuel

def expr : Nat → Parse Expr
  | 0 => throw .tooDeep
  | fuel + 1 => subexpr 0 fuel
termination_by structural fuel => fuel

/-- A function from its parameters on. A method has a parameter before them. -/
def functionBody : Nat → Nat → Bool → Parse Nat
  | 0, _, _ => throw .tooDeep
  | fuel + 1, l, isMethod => do
    openFunction l
    openBlock false
    expectMark "("
    let self := if isMethod then [Bytes.ofString "self"] else []
    for n in self do declare n .plain
    let (names, dots) ← if ← isMark ")" then pure ([], none) else parameterNames fuel
    for n in names do
      checkVariables 1
      declare n .plain
    if dots.isSome then modifyScope fun c => { c with isVariadic := true }
    expectMark ")"
    let body ← statements fuel
    let lastLine ← line
    expectClosing (.keyword "end") "end" "function" l
    closeBlock
    closeFunction (self ++ names) dots lastLine body
termination_by structural fuel => fuel

/-- Statements up to the end of the block. -/
def statements : Nat → Parse (List Stmt)
  | 0 => throw .tooDeep
  | fuel + 1 => do
    if endsBlock true (← token) then return []
    else if ← isWord "return" then
      return [← deeper (returnStmt fuel)]
    else
      let s ← deeper (statement fuel)
      return s ++ (← statements fuel)
termination_by structural fuel => fuel

/-- A block with a scope of its own. -/
def scopedBlock (isLoop : Bool) : Nat → Parse (List Stmt)
  | 0 => throw .tooDeep
  | fuel + 1 => do
    openBlock isLoop
    let body ← statements fuel
    closeBlock
    return body
termination_by structural fuel => fuel

def returnStmt : Nat → Parse Stmt
  | 0 => throw .tooDeep
  | fuel + 1 => do
    advance
    let es ←
      if endsBlock true (← token) || (← isMark ";") then pure []
      else exprs fuel
    let l ← lastLine
    let _ ← skipMark ";"
    return .ret es l (← lastLine)
termination_by structural fuel => fuel

/-- The clauses of a conditional after its first word. -/
def clauses (opened : Nat) : Nat → Parse Stmt
  | 0 => throw .tooDeep
  | fuel + 1 => do
    let c ← expr fuel
    expectWord "then"
    let l ← lastLine
    let body ← scopedBlock false fuel
    if ← skipWord "elseif" then
      let rest ← clauses opened fuel
      return .branch c l body true [rest] (← lastLine)
    else if ← skipWord "else" then
      let before ← lastLine
      let otherwise ← scopedBlock false fuel
      expectClosing (.keyword "end") "end" "if" opened
      return .branch c l body true (.skip before :: otherwise) (← lastLine)
    else
      expectClosing (.keyword "end") "end" "if" opened
      return .branch c l body false [] (← lastLine)
termination_by structural fuel => fuel

/-- The targets of an assignment after the first, and its values. -/
def assignment (targets : List Expr) : Nat → Parse Stmt
  | 0 => throw .tooDeep
  | fuel + 1 => do
    let t := targets.headD default
    unless isAssignable t do failNear "syntax error"
    checkNotConstant t
    if ← skipMark "," then
      let t ← suffixed fuel
      deeper (assignment (t :: targets) fuel)
    else
      expectMark "="
      let values ← exprs fuel
      return .assign targets.reverse values
termination_by structural fuel => fuel

def localDeclaration : Nat → Parse Stmt
  | 0 => throw .tooDeep
  | fuel + 1 => do
    let names ← declaredNames fuel 0
    if (names.filter (·.2 == .closing)).length > 1 then
      failText "multiple to-be-closed variables in local list"
    let values ← if ← skipMark "=" then exprs fuel else pure []
    let constant? := match names.getLast?, values.getLast? with
      | some (n, .constant), some e =>
        if names.length == values.length then e.listed.constant?.map (n, ·) else none
      | _, _ => none
    let slotted := if constant?.isSome then names.dropLast else names
    for (n, kind) in slotted do declare n kind
    if let some (n, v) := constant? then declareFolded n v
    return .locals (slotted.map (·.1)) values constant?.isSome
      (slotted.findIdx? (·.2 == .closing)) (← lastLine)
termination_by structural fuel => fuel

def statement : Nat → Parse (List Stmt)
  | 0 => throw .tooDeep
  | fuel + 1 => do
    let l ← line
    match ← token with
    | .mark ";" => advance; return [.skip l]
    | .keyword "if" =>
      advance
      return [← clauses l fuel]
    | .keyword "while" =>
      advance
      let c ← expr fuel
      openBlock true
      expectWord "do"
      let opened ← lastLine
      let body ← scopedBlock false fuel
      expectClosing (.keyword "end") "end" "while" l
      closeBlock
      return [.whileLoop c opened body (← lastLine)]
    | .keyword "do" =>
      advance
      let body ← scopedBlock false fuel
      expectClosing (.keyword "end") "end" "do" l
      return [.skip l, .block body (← lastLine)]
    | .keyword "for" =>
      advance
      let n ← expectName
      openBlock true
      let s ← (match ← token with
        | .mark "=" => numericFor n l fuel
        | .mark "," => genericFor n l fuel
        | .keyword "in" => genericFor n l fuel
        | _ => failNear "'=' or 'in' expected")
      closeBlock
      return [s]
    | .keyword "repeat" =>
      advance
      openBlock true
      openBlock false
      let body ← statements fuel
      expectClosing (.keyword "until") "until" "repeat" l
      let closed ← lastLine
      let c ← expr fuel
      closeBlock
      closeBlock
      return [.skip l, .repeatLoop body closed c]
    | .keyword "function" =>
      advance
      let n ← expectName
      let base ← nameExpr n
      let (target, isMethod) ← functionName fuel base
      let f ← functionBody fuel l isMethod
      checkNotConstant target
      return [.function target f l (← lastLine)]
    | .keyword "local" =>
      advance
      if ← skipWord "function" then
        let n ← expectName
        checkVariables 1
        declare n .plain
        let f ← functionBody fuel (← line) false
        return [.localFunction n f (← lastLine)]
      else return [← localDeclaration fuel]
    | .mark "::" =>
      advance
      let n ← expectName
      expectMark "::"
      let named ← lastLine
      let more ← emptyStatements fuel
      if let some old ← findLabel n then
        fail (Bytes.ofString "label '" ++ n ++ Bytes.ofString s!"' already defined on line {old.line}")
      let isLast := endsBlock false (← token)
      addLabel n isLast l
      return .skip named :: more ++ [.label n isLast (← lastLine)]
    | .keyword "break" => advance; addJump breakName l; return [.leave l]
    | .keyword "goto" =>
      advance
      let n ← expectName
      if (← findLabel n).isNone then addJump n l
      return [.goto n (← lastLine)]
    | _ =>
      let e ← suffixed fuel
      if (← isMark "=") || (← isMark ",") then return [← assignment [e] fuel]
      else
        match e with
        | .call .. => return [.call e]
        | .method .. => return [.call e]
        | _ => failNear "syntax error"
termination_by structural fuel => fuel

/-- The labels and semicolons that come next. -/
def emptyStatements : Nat → Parse (List Stmt)
  | 0 => throw .tooDeep
  | fuel + 1 => do
    if (← isMark ";") || (← isMark "::") then
      let s ← deeper (statement fuel)
      return s ++ (← emptyStatements fuel)
    else return []
termination_by structural fuel => fuel

/-- The fields after the first name of a function statement. -/
def functionName : Nat → Expr → Parse (Expr × Bool)
  | 0, _ => throw .tooDeep
  | fuel + 1, e => do
    let access : Parse Expr := do
      let n ← expectName
      let named ← lastLine
      return .index e (.const (.str n) named) named
    if ← skipMark "." then functionName fuel (← access)
    else if ← skipMark ":" then return (← access, true)
    else return (e, false)
termination_by structural fuel => fuel

def numericFor (name : Bytes) (l : Nat) : Nat → Parse Stmt
  | 0 => throw .tooDeep
  | fuel + 1 => do
    expectMark "="
    let start ← expr fuel
    expectMark ","
    let limit ← expr fuel
    let step ← if ← skipMark "," then pure (some (← expr fuel)) else pure none
    expectWord "do"
    let opened ← lastLine
    checkVariables 4
    declareHidden 3 hiddenName
    openBlock false
    declare name .plain
    let body ← scopedBlock false fuel
    closeBlock
    expectClosing (.keyword "end") "end" "for" l
    return .numericFor name start limit step opened body l (← lastLine)
termination_by structural fuel => fuel

def genericFor (name : Bytes) (l : Nat) : Nat → Parse Stmt
  | 0 => throw .tooDeep
  | fuel + 1 => do
    let more ← if ← skipMark "," then forNames fuel else pure []
    expectWord "in"
    let first ← line
    let values ← exprs fuel
    expectWord "do"
    let opened ← lastLine
    checkVariables (5 + more.length)
    declareHidden 4 hiddenName
    openBlock false
    for n in name :: more do declare n .plain
    let body ← scopedBlock false fuel
    closeBlock
    expectClosing (.keyword "end") "end" "for" l
    return .genericFor (name :: more) values opened body first (← lastLine)
termination_by structural fuel => fuel

def forNames : Nat → Parse (List Bytes)
  | 0 => throw .tooDeep
  | fuel + 1 => do
    let n ← expectName
    if ← skipMark "," then return n :: (← forNames fuel) else return [n]
termination_by structural fuel => fuel

end

/-- A whole chunk. Its function has the environment as its only captured variable. -/
def chunk (fuel : Nat) : Parse Unit := do
  openFunction 0
  modifyScope fun c =>
    { c with isVariadic := true, captured := #[⟨environmentName, .slot 0, .plain⟩] }
  openBlock false
  checkFault
  let body ← statements fuel
  unless (← token) == .eof do failNear "<eof> expected"
  closeBlock
  let _ ← closeFunction [] (some 1) 0 body

end Parser

/-- The functions of a program text; the last one is the whole chunk. -/
def parse (source : Bytes) : Except SyntaxFault (Array FunctionBody) :=
  let tokens := Lexeme.scan source
  match (Parser.chunk (8 * tokens.length + 64)).run ⟨tokens, 1, [], #[], 0⟩ with
  | .ok (_, s) => .ok s.functions
  | .error e => .error e

end LuaCapsule.Lua
