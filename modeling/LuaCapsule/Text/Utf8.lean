import LuaCapsule.Text.Bytes

/-! The encoding of code points as one to six bytes, read one code point at a time. -/

namespace LuaCapsule.Utf8

/-- A byte that goes on with a code point. -/
def isContinuation (c : UInt8) : Bool := c &&& 0xc0 == 0x80

/-- How many bytes follow a first byte; none for a byte that is no first byte. -/
def following? (c : UInt8) : Option Nat :=
  if c < 0x80 then some 0
  else if c < 0xc0 then none
  else if c < 0xe0 then some 1
  else if c < 0xf0 then some 2
  else if c < 0xf8 then some 3
  else if c < 0xfc then some 4
  else if c < 0xfe then some 5
  else none

/-- The least code point that needs so many following bytes. -/
def least : Nat → Nat
  | 0 => 0
  | 1 => 0x80
  | 2 => 0x800
  | 3 => 0x10000
  | 4 => 0x200000
  | _ => 0x4000000

/-- The value of some continuation bytes after the bits `acc`. -/
def continued (b : Bytes) : Nat → Nat → Nat → Option Nat
  | 0, _, acc => some acc
  | n + 1, i, acc =>
    if isContinuation (b.at0 i) then continued b n (i + 1) (acc * 64 + (b.at0 i).toNat % 64)
    else none

/-- The code point at a position, and the position after it. Unless it is lax, reading refuses
surrogates and what is beyond Unicode. -/
def decode? (b : Bytes) (lax : Bool) (i : Nat) : Option (Nat × Nat) := do
  let c := b.at0 i
  let n ← following? c
  let first := if n == 0 then c.toNat else c.toNat % Nat.pow 2 (6 - n)
  let code ← continued b n (i + 1) first
  if code < least n then none
  else if !lax && (code > 0x10ffff || (0xd800 ≤ code && code ≤ 0xdfff)) then none
  else some (code, i + n + 1)

/-- The bytes of a code point of up to 31 bits. -/
def encode (n : Nat) : List UInt8 :=
  let tail (k : Nat) : List UInt8 :=
    (List.range k).reverse.map fun i => (0x80 + n / Nat.pow 64 i % 64).toUInt8
  if n < 0x80 then [n.toUInt8]
  else if n < 0x800 then (0xc0 + n / 64).toUInt8 :: tail 1
  else if n < 0x10000 then (0xe0 + n / 4096).toUInt8 :: tail 2
  else if n < 0x200000 then (0xf0 + n / 262144).toUInt8 :: tail 3
  else if n < 0x4000000 then (0xf8 + n / 16777216).toUInt8 :: tail 4
  else (0xfc + n / 1073741824).toUInt8 :: tail 5

end LuaCapsule.Utf8
