import LuaCapsule.Lua.Library.Arguments
import LuaCapsule.Text.Utf8

/-! The library of encoded code points. Positions count bytes. -/

namespace LuaCapsule.Lua.CodePoints

/-- A position from the start, or from the end when it is negative. -/
def relative (pos : Int) (size : Nat) : Int :=
  if pos ≥ 0 then pos else if -pos > size then 0 else size + pos + 1

def char : Library := fun s => do
  let bs ← (List.range s.arguments.length).mapM fun i => do
    let c := (← s.checkInt (i + 1)).toInt
    unless 0 ≤ c && c ≤ 0x7fffffff do s.argumentFault (i + 1) "value out of range"
    return Utf8.encode c.toNat
  return [.str (Bytes.ofList bs.flatten)]

/-- Counts code points from `i` on, or gives the place that has none. -/
def countFrom (b : Bytes) (lax : Bool) (last : Int) : Nat → Nat → Nat → Except Nat Nat
  | 0, _, n => .ok n
  | fuel + 1, i, n =>
    if (i : Int) > last then .ok n
    else
      match Utf8.decode? b lax i with
      | some (_, next) => countFrom b lax last fuel next (n + 1)
      | none => .error i

def len : Library := fun s => do
  let b ← s.checkString 1
  let i := relative (← s.optInt 2 1) b.size
  let j := relative (← s.optInt 3 (-1)) b.size
  unless 1 ≤ i && i - 1 ≤ b.size do s.argumentFault 2 "initial position out of bounds"
  unless j - 1 < b.size do s.argumentFault 3 "final position out of bounds"
  match countFrom b (s.arg 4).truthy (j - 1) (b.size + 1) (i - 1).toNat 0 with
  | .ok n => return [.ofNat n]
  | .error i => return [.nil, .ofNat (i + 1)]

def codesFrom (b : Bytes) (lax : Bool) (stop : Int) : Nat → Nat → List Value → M (List Value)
  | 0, _, acc => return acc.reverse
  | fuel + 1, i, acc => do
    if (i : Int) ≥ stop then return acc.reverse
    match Utf8.decode? b lax i with
    | some (c, next) => codesFrom b lax stop fuel next (.ofNat c :: acc)
    | none => raiseText "invalid UTF-8 code"

def codepoint : Library := fun s => do
  let b ← s.checkString 1
  let i := relative (← s.optInt 2 1) b.size
  let j := relative (← s.optInt 3 i) b.size
  unless 1 ≤ i do s.argumentFault 2 "out of bounds"
  unless j ≤ b.size do s.argumentFault 3 "out of bounds"
  codesFrom b (s.arg 4).truthy j (b.size + 1) (i - 1).toNat []

/-- The first position from `i` on that does not go on with a code point. -/
def skipForward (b : Bytes) : Nat → Nat → Nat
  | 0, i => i
  | fuel + 1, i => if Utf8.isContinuation (b.at0 i) then skipForward b fuel (i + 1) else i

def skipBack (b : Bytes) : Nat → Nat
  | 0 => 0
  | i + 1 => if Utf8.isContinuation (b.at0 (i + 1)) then skipBack b i else i + 1

def forward (b : Bytes) : Nat → Nat → Option Nat
  | 0, i => some i
  | n + 1, i => if i < b.size then forward b n (skipForward b (b.size + 1) (i + 1)) else none

def back (b : Bytes) : Nat → Nat → Option Nat
  | 0, i => some i
  | n + 1, i => if i > 0 then back b n (skipBack b (i - 1)) else none

def offset : Library := fun s => do
  let b ← s.checkString 1
  let n := (← s.checkInt 2).toInt
  let i := relative (← s.optInt 3 (if n ≥ 0 then 1 else b.size + 1)) b.size
  unless 1 ≤ i && i - 1 ≤ b.size do s.argumentFault 3 "position out of bounds"
  let i := (i - 1).toNat
  if n == 0 then return [.ofNat (skipBack b i + 1)]
  if Utf8.isContinuation (b.at0 i) then raiseText "initial position is a continuation byte"
  let found := if n > 0 then forward b (min (n - 1).toNat (b.size + 1)) i
    else back b (min (-n).toNat (b.size + 1)) i
  match found with
  | some p => return [.ofNat (p + 1)]
  | none => return [.nil]

def codes : Library := fun s => do
  let b ← s.checkString 1
  if Utf8.isContinuation (b.at0 0) then s.argumentFault 1 "invalid UTF-8 code"
  return [.native (.codesStep (s.arg 2).truthy), .str b, .int 0]

def codesStep (lax : Bool) : Library := fun s => do
  let b ← s.checkString 1
  let n := (s.arg 2).integer?.getD 0
  let i := n.toUInt64.toNat
  let i := if i < b.size then skipForward b (b.size + 1) i else i
  if i ≥ b.size then return []
  match Utf8.decode? b lax i with
  | some (c, next) =>
    if Utf8.isContinuation (b.at0 next) then raiseText "invalid UTF-8 code"
    return [.ofNat (i + 1), .ofNat c]
  | none => raiseText "invalid UTF-8 code"

/-- A function of the library. -/
def run : Utf8Fn → Library
  | .char => char
  | .codepoint => codepoint
  | .codes => codes
  | .len => len
  | .offset => offset

end LuaCapsule.Lua.CodePoints
