import LuaCapsule.Lua.Syntax
import LuaCapsule.Number.Numeral
import LuaCapsule.Number.Printf

/-! The operators on numbers and strings, without metamethods. Integers wrap at 64 bits,
floored division and remainder follow the divisor's sign, and bitwise operators take doubles
that denote integers. -/

namespace LuaCapsule.Lua

/-! ### Text and numbers -/

/-- The text of a double: 14 significant digits, marked as a double when it looks like an
integer. -/
def doubleText (x : Binary64) : String :=
  let s := Printf.general14 x
  if s.all fun c => c.isDigit || c == '-' then s ++ ".0" else s

/-- The text of a number. -/
def numberText? : Value → Option Bytes
  | .int i => some (Bytes.ofString (toString i.toInt))
  | .float x => some (Bytes.ofString (doubleText x))
  | _ => none

/-- The bytes of a string or a number. -/
def stringOf? : Value → Option Bytes
  | .str s => some s
  | v => numberText? v

/-- The number that a string is the numeral of. -/
def parseNumber? (s : Bytes) : Option Value :=
  (Numeral.read? s).map fun
    | .int i => .int i
    | .float x => .float x

/-- A number, or the number that a string is the numeral of. -/
def numberOf? : Value → Option Value
  | .int i => some (.int i)
  | .float x => some (.float x)
  | .str s => parseNumber? s
  | _ => none

/-- The double of a number. -/
def Value.double? : Value → Option Binary64
  | .int i => some (Binary64.ofInt64 i)
  | .float x => some x
  | _ => none

/-- The integer that a number denotes. -/
def Value.integer? : Value → Option Int64
  | .int i => some i
  | .float x => x.toInt64?
  | _ => none

def Value.isNumber : Value → Bool
  | .int _ => true
  | .float _ => true
  | _ => false

/-! ### Arithmetic -/

/-- Why an operator on numbers fails. -/
inductive ArithFault where
  | divisionByZero
  | remainderByZero
  deriving DecidableEq, Repr

namespace ArithFault

def message : ArithFault → String
  | divisionByZero => "attempt to divide by zero"
  | remainderByZero => "attempt to perform 'n%0'"

end ArithFault

/-- Logical shift, to the left for a positive count. -/
def shiftLeft (x y : Int64) : Int64 :=
  let n := y.toInt
  if n ≤ -64 || 64 ≤ n then 0
  else if 0 ≤ n then (x.toUInt64 <<< n.toNat.toUInt64).toInt64
  else (x.toUInt64 >>> (-n).toNat.toUInt64).toInt64

namespace ArithOp

/-- An operator on two integers, where it has an integer result. -/
def onInts (op : ArithOp) (a b : Int64) : Except ArithFault (Option Int64) :=
  match op with
  | add => .ok (some (a + b))
  | sub => .ok (some (a - b))
  | mul => .ok (some (a * b))
  | mod =>
    if b == 0 then .error .remainderByZero else .ok (some (Int64.ofInt (Int.fmod a.toInt b.toInt)))
  | idiv =>
    if b == 0 then .error .divisionByZero else .ok (some (Int64.ofInt (Int.fdiv a.toInt b.toInt)))
  | band => .ok (some (a &&& b))
  | bor => .ok (some (a ||| b))
  | bxor => .ok (some (a ^^^ b))
  | shl => .ok (some (shiftLeft a b))
  | shr => .ok (some (shiftLeft a (0 - b)))
  | pow => .ok none
  | div => .ok none

/-- An operator on two doubles. -/
def onDoubles (op : ArithOp) (x y : Binary64) : Option Binary64 :=
  match op with
  | add => some (x.add y)
  | sub => some (x.sub y)
  | mul => some (x.mul y)
  | mod => some (x.modulo y)
  | pow => some (x.pow y)
  | div => some (x.div y)
  | idiv => some (x.floorDiv y)
  | _ => none

/-- An operator on two values; `none` when it is not defined on them. -/
def apply (op : ArithOp) (a b : Value) : Except ArithFault (Option Value) :=
  if op.isBitwise then
    match a.integer?, b.integer? with
    | some i, some j => return (← op.onInts i j).map .int
    | _, _ => .ok none
  else
    match a, b with
    | .int i, .int j => do
      match ← op.onInts i j with
      | some k => return some (.int k)
      | none => return (op.onDoubles (Binary64.ofInt64 i) (Binary64.ofInt64 j)).map .float
    | a, b =>
      match a.double?, b.double? with
      | some x, some y => .ok ((op.onDoubles x y).map .float)
      | _, _ => .ok none

end ArithOp

/-- Negation of a number. -/
def negate? : Value → Option Value
  | .int i => some (.int (0 - i))
  | .float x => some (.float x.neg)
  | _ => none

/-- Bitwise complement of a number that denotes an integer. -/
def complement? (v : Value) : Option Value := v.integer?.map fun i => .int (~~~i)

/-! ### Order -/

/-- Is one number or string below another? -/
def lessThan? : Value → Value → Option Bool
  | .int i, .int j => some (i.toInt < j.toInt)
  | .float x, .float y => some (x.lt y)
  | .int i, .float y => some (!y.isNaN && y.compareInt i.toInt == .gt)
  | .float x, .int j => some (!x.isNaN && x.compareInt j.toInt == .lt)
  | .str s, .str t => some (Bytes.lt s t)
  | _, _ => none

/-- Is one number or string not above another? -/
def lessEqual? : Value → Value → Option Bool
  | .int i, .int j => some (i.toInt ≤ j.toInt)
  | .float x, .float y => some (x.le y)
  | .int i, .float y => some (!y.isNaN && y.compareInt i.toInt != .lt)
  | .float x, .int j => some (!x.isNaN && x.compareInt j.toInt != .gt)
  | .str s, .str t => some (Bytes.le s t)
  | _, _ => none

/-- The bytes of two strings or numbers, joined. -/
def join? (a b : Value) : Option Value :=
  match stringOf? a, stringOf? b with
  | some s, some t => some (.str (s ++ t))
  | _, _ => none

/-! ### Constants -/

/-- A number that may stand for an expression: neither zero as a double nor not a number. -/
def isFoldable : Value → Bool
  | .int _ => true
  | .float x => !x.isNaN && !x.isZero
  | _ => false

/-- An operator of two operands on two number constants, computed before the program runs. -/
def ArithOp.fold? (op : ArithOp) (v w : Value) : Option Value :=
  let divides := op == .div || op == .idiv || op == .mod
  if v.isNumber && w.isNumber && !(divides && w.double?.any (·.isZero)) then
    match op.apply v w with
    | .ok (some u) => if isFoldable u then some u else none
    | _ => none
  else none

/-- Negation and complement of a number constant, computed before the program runs. -/
def UnaryOp.fold? (op : UnaryOp) (v : Value) : Option Value :=
  match op with
  | .neg => (negate? v).filter isFoldable
  | .bnot => complement? v
  | _ => none

/-- The value of an expression that is known before the program runs. -/
def Expr.constant? : Expr → Option Value
  | .const v _ => some v
  | .known v _ _ => some v
  | .paren e _ => e.constant?
  | .binary (.arith op) l r _ => do op.fold? (← l.constant?) (← r.constant?)
  | .unary .not e _ => do return .bool (!(← e.constant?).truthy)
  | .unary op e _ => do op.fold? (← e.constant?)
  | .conj l r _ => do if (← l.constant?).truthy then r.constant? else none
  | .disj l r _ => do if (← l.constant?).truthy then none else r.constant?
  | _ => none

end LuaCapsule.Lua
