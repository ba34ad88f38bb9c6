import LuaCapsule.Text.Bytes

/-! The encodings of text in stored JSON. A byte order mark tells the encoding; without one,
the zero bytes among the first four do, since JSON starts with two ASCII characters. -/

namespace LuaCapsule

inductive TextEncoding where
  | utf8
  | utf16 (isBigEndian : Bool)
  | utf32 (isBigEndian : Bool)
  deriving DecidableEq, Repr, Inhabited

namespace TextEncoding

/-- The encoding of some bytes and the length of their byte order mark. -/
def detect (b : Bytes) : TextEncoding × Nat :=
  let starts (l : List UInt8) : Bool := b.startsWith (Bytes.ofList l)
  if starts [0, 0, 0xfe, 0xff] then (utf32 true, 4)
  else if starts [0xff, 0xfe, 0, 0] then (utf32 false, 4)
  else if starts [0xfe, 0xff] then (utf16 true, 2)
  else if starts [0xff, 0xfe] then (utf16 false, 2)
  else if starts [0xef, 0xbb, 0xbf] then (utf8, 3)
  else if 4 ≤ b.size then
    if b.at0 0 == 0 then (if b.at0 1 != 0 then utf16 true else utf32 true, 0)
    else if b.at0 1 == 0 then (if b.at0 2 != 0 || b.at0 3 != 0 then utf16 false else utf32 false, 0)
    else (utf8, 0)
  else if b.size == 2 then
    if b.at0 0 == 0 then (utf16 true, 0)
    else if b.at0 1 == 0 then (utf16 false, 0)
    else (utf8, 0)
  else (utf8, 0)

def isHighSurrogate (n : Nat) : Bool := 0xd800 ≤ n && n < 0xdc00

def isLowSurrogate (n : Nat) : Bool := 0xdc00 ≤ n && n < 0xe000

/-- The character of a code point. -/
def char? (n : Nat) : Option Char :=
  if isHighSurrogate n || isLowSurrogate n || 0x10ffff < n then none else some (Char.ofNat n)

/-- Groups of two bytes as numbers. -/
def units16 (isBigEndian : Bool) : List UInt8 → Option (List Nat)
  | [] => some []
  | a :: b :: rest =>
    let n := if isBigEndian then a.toNat * 256 + b.toNat else b.toNat * 256 + a.toNat
    (units16 isBigEndian rest).map (n :: ·)
  | [_] => none

/-- The characters of sixteen-bit units. -/
def chars16 : List Nat → Option (List Char)
  | [] => some []
  | hi :: rest =>
    if isHighSurrogate hi then
      match rest with
      | lo :: rest =>
        if isLowSurrogate lo then
          (chars16 rest).map (Char.ofNat (0x10000 + (hi - 0xd800) * 1024 + (lo - 0xdc00)) :: ·)
        else none
      | [] => none
    else
      match char? hi, chars16 rest with
      | some c, some cs => some (c :: cs)
      | _, _ => none

/-- The characters of groups of four bytes. -/
def chars32 (isBigEndian : Bool) : List UInt8 → Option (List Char)
  | [] => some []
  | a :: b :: c :: d :: rest =>
    let join (a b c d : UInt8) : Nat := ((a.toNat * 256 + b.toNat) * 256 + c.toNat) * 256 + d.toNat
    match char? (if isBigEndian then join a b c d else join d c b a), chars32 isBigEndian rest with
    | some ch, some cs => some (ch :: cs)
    | _, _ => none
  | _ => none

/-- The text that bytes of an encoding denote. -/
def decode? (b : Bytes) : TextEncoding → Option String
  | utf8 => b.toText?
  | utf16 e => ((units16 e b.data.toList).bind chars16).map String.ofList
  | utf32 e => (chars32 e b.data.toList).map String.ofList

end TextEncoding

/-- The text of bytes in whatever encoding they are. -/
def Bytes.detectText? (b : Bytes) : Option String :=
  let (encoding, marked) := TextEncoding.detect b
  encoding.decode? (b.slice marked b.size)

end LuaCapsule
