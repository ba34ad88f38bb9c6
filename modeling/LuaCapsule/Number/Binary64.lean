import LuaCapsule.Number.Range

/-! Double precision numbers kept as their 64 bits, so that order, conversion and rounding
are exact integer arithmetic. Arithmetic goes through core's `Float`; a result that is not
a number keeps the bits of the operand it came from, or is the default one. -/

namespace LuaCapsule

/-- An IEEE-754 double, as its bits. -/
structure Binary64 where
  bits : UInt64
  deriving DecidableEq, Inhabited, Hashable, Repr

namespace Binary64

/-! ### The parts of a double -/

def isNegative (x : Binary64) : Bool := x.bits >>> 63 == 1

def exponentField (x : Binary64) : Nat := ((x.bits >>> 52) &&& 0x7ff).toNat

def fraction (x : Binary64) : Nat := (x.bits &&& 0xfffffffffffff).toNat

def isNaN (x : Binary64) : Bool := x.exponentField == 0x7ff && x.fraction != 0

def isInfinite (x : Binary64) : Bool := x.exponentField == 0x7ff && x.fraction == 0

def isFinite (x : Binary64) : Bool := x.exponentField != 0x7ff

def isZero (x : Binary64) : Bool := x.exponentField == 0 && x.fraction == 0

def zero : Binary64 := ⟨0⟩

def infinity : Binary64 := ⟨0x7ff0000000000000⟩

/-- The double that an invalid operation yields: its sign bit is set. -/
def invalid : Binary64 := ⟨0xfff8000000000000⟩

/-- The quiet double that a literal spelling of "not a number" yields. -/
def quietNaN : Binary64 := ⟨0x7ff8000000000000⟩

/-- Significand `m` and exponent `e` of a finite double of absolute value `m * 2 ^ e`. -/
def magnitude (x : Binary64) : Nat × Int :=
  if x.exponentField == 0 then (x.fraction, -1074)
  else (4503599627370496 + x.fraction, (x.exponentField : Int) - 1075)

def withSign (negative : Bool) (x : Binary64) : Binary64 :=
  ⟨(x.bits &&& 0x7fffffffffffffff) ||| (if negative then 0x8000000000000000 else 0)⟩

def neg (x : Binary64) : Binary64 := ⟨x.bits ^^^ 0x8000000000000000⟩

/-! ### Rounding to the nearest double -/

/-- Bits of the double nearest to `m * 2 ^ e`, ties to even; `sticky` says that the value
meant lies a little above that. -/
def roundBits (m : Nat) (e : Int) (sticky : Bool) : Nat :=
  if m == 0 then 0
  else
    let target := max ((m.log2 : Int) + e - 52) (-1074)
    let shift := target - e
    let significand :=
      if shift ≤ 0 then m <<< (-shift).toNat
      else
        let s := shift.toNat
        let q := m >>> s
        let r := m - (q <<< s)
        let half := 1 <<< (s - 1)
        if r > half || (r == half && (sticky || q % 2 == 1)) then q + 1 else q
    min ((target + 1074).toNat * 4503599627370496 + significand) 0x7ff0000000000000

def ofMagnitude (negative : Bool) (m : Nat) (e : Int) (sticky : Bool) : Binary64 :=
  withSign negative ⟨(roundBits m e sticky).toUInt64⟩

/-- The double nearest to `num / den`. -/
def ofRatio (negative : Bool) (num den : Nat) : Binary64 :=
  if num == 0 || den == 0 then withSign negative zero
  else
    let k := 66 + den.log2 - num.log2
    let scaled := num <<< k
    ofMagnitude negative (scaled / den) (-(k : Int)) (scaled % den != 0)

/-- The double nearest to `digits * 10 ^ exponent`. -/
def ofDecimal (negative : Bool) (digits : Nat) (exponent : Int) : Binary64 :=
  if digits == 0 then withSign negative zero
  else if exponent > 400 then withSign negative infinity
  else if exponent ≥ 0 then ofMagnitude negative (digits * Nat.pow 10 exponent.toNat) 0 false
  else if exponent + ((digits.log2 : Int) / 3 + 1) < -400 then withSign negative zero
  else ofRatio negative digits (Nat.pow 10 (-exponent).toNat)

/-- The double nearest to an integer. -/
def ofInt (i : Int) : Binary64 := ofMagnitude (i < 0) i.natAbs 0 false

/-! ### Integers -/

/-- The integer that a double denotes, if it denotes one. -/
def toInt? (x : Binary64) : Option Int :=
  if !x.isFinite then none
  else
    let (m, e) := x.magnitude
    let signed (n : Nat) : Int := if x.isNegative then -(n : Int) else n
    if e ≥ 0 then some (signed (m <<< e.toNat))
    else
      let s := (-e).toNat
      let q := m >>> s
      if q <<< s == m then some (signed q) else none

/-- The greatest integer not above a finite double. -/
def floorInt? (x : Binary64) : Option Int :=
  if !x.isFinite then none
  else
    let (m, e) := x.magnitude
    if e ≥ 0 then some (if x.isNegative then -((m <<< e.toNat : Nat) : Int) else (m <<< e.toNat : Nat))
    else
      let s := (-e).toNat
      let q := m >>> s
      let whole := q <<< s == m
      some (if x.isNegative then (if whole then -(q : Int) else -(q : Int) - 1) else q)

/-- The least integer not below a finite double. -/
def ceilInt? (x : Binary64) : Option Int := (floorInt? x.neg).map (- ·)

/-- The 64-bit integer that a double denotes, if it denotes one. -/
def toInt64? (x : Binary64) : Option Int64 :=
  match x.toInt? with
  | some i => if isInt64 i then some (Int64.ofInt i) else none
  | none => none

def ofInt64 (i : Int64) : Binary64 := ofInt i.toInt

/-! ### Order -/

/-- An integer that orders all doubles but NaN as their values do, both zeros alike. -/
def orderKey (x : Binary64) : Int :=
  let m : Int := (x.bits &&& 0x7fffffffffffffff).toNat
  if x.isNegative then -m else m

def beq (x y : Binary64) : Bool := !x.isNaN && !y.isNaN && x.orderKey == y.orderKey

def lt (x y : Binary64) : Bool := !x.isNaN && !y.isNaN && x.orderKey < y.orderKey

def le (x y : Binary64) : Bool := !x.isNaN && !y.isNaN && x.orderKey ≤ y.orderKey

/-- How a finite or infinite double compares with an integer, by exact value. -/
def compareInt (x : Binary64) (i : Int) : Ordering :=
  if x.isInfinite then if x.isNegative then .lt else .gt
  else
    let (m, e) := x.magnitude
    let signed : Int := if x.isNegative then -(m : Int) else m
    if e ≥ 0 then compare (signed * Nat.pow 2 e.toNat) i else compare signed (i * Nat.pow 2 (-e).toNat)

/-! ### Arithmetic -/

def toFloat (x : Binary64) : Float := Float.ofBits x.bits

/-- The result of a function on doubles; what is not a number becomes `invalid`. -/
def ofResult (r : Float) : Binary64 := if r.isNaN then invalid else ⟨r.toBits⟩

def lift (f : Float → Float) (x : Binary64) : Binary64 :=
  if x.isNaN then x else ofResult (f x.toFloat)

def lift₂ (f : Float → Float → Float) (x y : Binary64) : Binary64 :=
  if x.isNaN then x else if y.isNaN then y else ofResult (f x.toFloat y.toFloat)

def add : Binary64 → Binary64 → Binary64 := lift₂ (· + ·)

def sub : Binary64 → Binary64 → Binary64 := lift₂ (· - ·)

def mul : Binary64 → Binary64 → Binary64 := lift₂ (· * ·)

def div : Binary64 → Binary64 → Binary64 := lift₂ (· / ·)

/-- Power; one to any power and any base to the power zero are one, NaN included. -/
def pow (x y : Binary64) : Binary64 :=
  let r := Float.pow x.toFloat y.toFloat
  if r.isNaN then if x.isNaN then x else if y.isNaN then y else invalid else ⟨r.toBits⟩

def floor : Binary64 → Binary64 := lift Float.floor

def ceil : Binary64 → Binary64 := lift Float.ceil

/-- Remainder of truncated division, with the sign of the dividend; it is exact. -/
def fmod (x y : Binary64) : Binary64 :=
  if x.isNaN then x else if y.isNaN then y
  else if x.isInfinite || y.isZero then invalid
  else if y.isInfinite then x
  else
    let (mx, ex) := x.magnitude
    let (my, ey) := y.magnitude
    let e := min ex ey
    ofMagnitude x.isNegative ((mx <<< (ex - e).toNat) % (my <<< (ey - e).toNat)) e false

/-- Remainder of floored division, with the sign of the divisor. -/
def modulo (x y : Binary64) : Binary64 :=
  let r := fmod x y
  if r.isNaN then r
  else if (if lt zero r then lt y zero else lt r zero && lt zero y) then add r y else r

/-- Floored quotient. -/
def floorDiv (x y : Binary64) : Binary64 := floor (div x y)

def abs (x : Binary64) : Binary64 := ⟨x.bits &&& 0x7fffffffffffffff⟩

end Binary64

end LuaCapsule
