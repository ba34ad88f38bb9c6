import LuaCapsule.Lua.Value

/-! Programs after reading: names are resolved to slots of the running function, to variables
of enclosing functions, or to fields of the environment. Expressions and statements keep the
lines of their tokens, because every instruction made for them bears the line of the token that
was read last. -/

namespace LuaCapsule.Lua

/-- Why a text is no program. -/
inductive SyntaxFault where
  | at (line : Nat) (message : Bytes)
  /-- The text is nested too deeply to be read. -/
  | tooDeep
  deriving DecidableEq, Inhabited

/-- Arithmetic and bitwise operators of two operands. -/
inductive ArithOp where
  | add | sub | mul | mod | pow | div | idiv | band | bor | bxor | shl | shr
  deriving DecidableEq, Repr, Inhabited

namespace ArithOp

/-- All operators, in the order of their instructions. -/
def all : List ArithOp := [add, sub, mul, mod, pow, div, idiv, band, bor, bxor, shl, shr]

/-- The metamethod that overrides an operator. -/
def event : ArithOp → String
  | add => "__add"
  | sub => "__sub"
  | mul => "__mul"
  | mod => "__mod"
  | pow => "__pow"
  | div => "__div"
  | idiv => "__idiv"
  | band => "__band"
  | bor => "__bor"
  | bxor => "__bxor"
  | shl => "__shl"
  | shr => "__shr"

def isBitwise : ArithOp → Bool
  | band | bor | bxor | shl | shr => true
  | _ => false

end ArithOp

/-- Comparisons. -/
inductive CompareOp where
  | eq | ne | lt | le | gt | ge
  deriving DecidableEq, Repr, Inhabited

/-- Operators of two operands that evaluate both. -/
inductive BinaryOp where
  | arith (op : ArithOp)
  | compare (op : CompareOp)
  | concat
  deriving DecidableEq, Repr, Inhabited

/-- Operators of one operand. -/
inductive UnaryOp where
  | neg | bnot | not | len
  deriving DecidableEq, Repr, Inhabited

/-- An expression. A line is that of the last token, where nothing else is said. -/
inductive Expr where
  | const (v : Value) (line : Nat)
  /-- The extra arguments; `before` is the line of the token in front. -/
  | vararg (before line : Nat)
  /-- The function of a given number in its chunk. -/
  | closure (f line : Nat)
  | slot (i : Nat) (name : Bytes) (line : Nat)
  | upvalue (i : Nat) (name : Bytes) (line : Nat)
  /-- A variable whose value is a known constant. -/
  | known (v : Value) (name : Bytes) (line : Nat)
  | index (object key : Expr) (line : Nat)
  /-- A call, with the line where its arguments begin and the one where they end. -/
  | call (f : Expr) (args : List Expr) (line last : Nat)
  | method (object : Expr) (name : Bytes) (named : Nat) (args : List Expr) (line last : Nat)
  /-- The line is that of the operator, here and below. -/
  | binary (op : BinaryOp) (l r : Expr) (line : Nat)
  | unary (op : UnaryOp) (e : Expr) (line : Nat)
  | conj (l r : Expr) (line : Nat)
  | disj (l r : Expr) (line : Nat)
  /-- An expression in parentheses gives one value. -/
  | paren (e : Expr) (line : Nat)
  | table (before : Nat) (items : List Expr) (last : Nat)
  /-- A field in the list of items of a table, and only there, with the line of its mark. -/
  | field (key value : Expr) (line : Nat)
  /-- An expression of a list, behind a separator at a line, and only there. -/
  | after (line : Nat) (e : Expr)
  deriving Inhabited

/-- An expression of a list without its mark. -/
def Expr.listed : Expr → Expr
  | after _ e => e
  | e => e

/-- A statement. The last line of a compound statement is that of its last word. -/
inductive Stmt where
  /-- New variables. The last value may be that of a constant, which takes no slot, and one of
  the variables, by its place, may have to be closed. -/
  | locals (names : List Bytes) (values : List Expr) (isFolded : Bool) (close : Option Nat) (line : Nat)
  | localFunction (name : Bytes) (f line : Nat)
  | assign (targets values : List Expr)
  /-- A named function, with the line of its first word and its last line. -/
  | function (target : Expr) (f line last : Nat)
  | call (e : Expr)
  | block (body : List Stmt) (last : Nat)
  /-- Loops and conditionals keep the line of the word in front of their bodies. -/
  | whileLoop (condition : Expr) (opened : Nat) (body : List Stmt) (last : Nat)
  | repeatLoop (body : List Stmt) (closed : Nat) (condition : Expr)
  | branch (condition : Expr) (opened : Nat) (body : List Stmt) (hasElse : Bool)
      (otherwise : List Stmt) (last : Nat)
  /-- Three hidden slots, then the loop variable. The line is that of the first word. -/
  | numericFor (name : Bytes) (start limit : Expr) (step : Option Expr) (opened : Nat)
      (body : List Stmt) (line last : Nat)
  /-- Four hidden slots, then the loop variables. The line is that of the first value. -/
  | genericFor (names : List Bytes) (values : List Expr) (opened : Nat) (body : List Stmt)
      (line last : Nat)
  | ret (values : List Expr) (line last : Nat)
  | goto (label : Bytes) (line : Nat)
  /-- A label, and whether it is the last thing in its block. -/
  | label (name : Bytes) (isLast : Bool) (line : Nat)
  | leave (line : Nat)
  /-- A token that does nothing. -/
  | skip (line : Nat)
  deriving Inhabited

/-- How a variable may be used. -/
inductive VariableKind where
  | plain
  | constant
  /-- A constant that is closed when it goes out of scope. -/
  | closing
  deriving DecidableEq, Repr, Inhabited

/-- Where a function finds a variable of an enclosing function when it is made. -/
inductive Capture where
  /-- In a slot of the function around it. -/
  | slot (i : Nat)
  /-- Among the variables that the function around it captured. -/
  | upvalue (i : Nat)
  deriving DecidableEq, Repr, Inhabited

/-- A function of a chunk. -/
structure FunctionBody where
  /-- The line of the word `function`; zero for the whole chunk. -/
  line : Nat
  /-- The line of the word `end`, or of the end of the text. -/
  lastLine : Nat
  parameters : List Bytes
  /-- The line of the dots that stand for more arguments. -/
  variadic : Option Nat
  captures : List (Bytes × Capture × VariableKind)
  body : List Stmt
  /-- The line of the token read last. -/
  closed : Nat
  deriving Inhabited

end LuaCapsule.Lua
