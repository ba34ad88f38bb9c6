/-! Byte strings: order, slices, the ASCII character classes, and the passage to and from
text. A byte string denotes text exactly when it is valid UTF-8. -/

namespace LuaCapsule

/-- A string of bytes. -/
abbrev Bytes := ByteArray

instance : DecidableEq Bytes := ByteArray.instDecidableEq

namespace Bytes

def ofString (s : String) : Bytes := s.toUTF8

/-- The text that a byte string encodes, if it is valid UTF-8. -/
def toText? (b : Bytes) : Option String := String.fromUTF8? b

/-- The byte at a position, or zero past the end. -/
def at0 (b : Bytes) (i : Nat) : UInt8 := if h : i < b.size then b[i] else 0

def ofList (l : List UInt8) : Bytes := ⟨l.toArray⟩

/-- Bytes `i` to `j`, the last one not included. -/
def slice (b : Bytes) (i j : Nat) : Bytes := b.extract i j

/-- Bytewise lexicographic order from a position on, given enough steps. -/
def compareFrom (a b : Bytes) : Nat → Nat → Ordering
  | 0, _ => compare a.size b.size
  | fuel + 1, i =>
    if ha : i < a.size then
      if hb : i < b.size then
        if a[i] < b[i] then .lt else if b[i] < a[i] then .gt else compareFrom a b fuel (i + 1)
      else .gt
    else if i < b.size then .lt else .eq

/-- Bytewise lexicographic order. -/
def cmp (a b : Bytes) : Ordering := compareFrom a b (min a.size b.size + 1) 0

def lt (a b : Bytes) : Bool := cmp a b == .lt

def le (a b : Bytes) : Bool := cmp a b != .gt

/-- The first position from `i` on, below `i + fuel`, whose byte satisfies `p`. -/
def findFrom (p : UInt8 → Bool) (b : Bytes) : Nat → Nat → Option Nat
  | 0, _ => none
  | fuel + 1, i =>
    if h : i < b.size then if p b[i] then some i else findFrom p b fuel (i + 1) else none

def find? (p : UInt8 → Bool) (b : Bytes) (i : Nat) : Option Nat := findFrom p b (b.size - i) i

/-- Does `pat` stand at position `i` of `b`? -/
def matchesAt (b pat : Bytes) (i : Nat) : Bool :=
  i + pat.size ≤ b.size && b.extract i (i + pat.size) == pat

/-- The first position from `i` on at which `pat` stands. -/
def indexFrom (b pat : Bytes) : Nat → Nat → Option Nat
  | 0, _ => none
  | fuel + 1, i =>
    if b.size < i + pat.size then none
    else if b.matchesAt pat i then some i
    else indexFrom b pat fuel (i + 1)

def indexOf? (b pat : Bytes) (i : Nat) : Option Nat := indexFrom b pat (b.size + 1 - i) i

def startsWith (b pat : Bytes) : Bool := b.matchesAt pat 0

def map (f : UInt8 → UInt8) (b : Bytes) : Bytes := ⟨b.data.map f⟩

def reverse (b : Bytes) : Bytes := ⟨b.data.reverse⟩

/-- `n` copies with a separator between them. -/
def repeated (b sep : Bytes) : Nat → Bytes
  | 0 => .empty
  | n + 1 => n.fold (fun _ _ acc => (acc ++ sep) ++ b) b

def concat (l : List Bytes) : Bytes := l.foldl (· ++ ·) .empty

/-! ### Classes of bytes -/

def isDigit (c : UInt8) : Bool := 48 ≤ c && c ≤ 57

def isLower (c : UInt8) : Bool := 97 ≤ c && c ≤ 122

def isUpper (c : UInt8) : Bool := 65 ≤ c && c ≤ 90

def isAlpha (c : UInt8) : Bool := isLower c || isUpper c

def isAlnum (c : UInt8) : Bool := isAlpha c || isDigit c

def isSpace (c : UInt8) : Bool := c == 32 || (9 ≤ c && c ≤ 13)

def isControl (c : UInt8) : Bool := c < 32 || c == 127

def isGraph (c : UInt8) : Bool := 33 ≤ c && c ≤ 126

def isPunct (c : UInt8) : Bool := isGraph c && !isAlnum c

def isHexDigit (c : UInt8) : Bool := isDigit c || (97 ≤ c && c ≤ 102) || (65 ≤ c && c ≤ 70)

def toLower (c : UInt8) : UInt8 := if isUpper c then c + 32 else c

def toUpper (c : UInt8) : UInt8 := if isLower c then c - 32 else c

/-- The value of a hexadecimal digit. -/
def hexValue (c : UInt8) : Nat :=
  if isDigit c then c.toNat - 48 else if 97 ≤ c then c.toNat - 87 else c.toNat - 55

def hexDigit (n : Nat) : UInt8 := (if n < 10 then 48 + n else 87 + n).toUInt8

/-- Two lower-case hexadecimal digits a byte. -/
def toHex (b : Bytes) : Bytes :=
  ofList (b.data.toList.flatMap fun c => [hexDigit (c.toNat / 16), hexDigit (c.toNat % 16)])

/-- Text with every byte from 128 on written as an escape, if it is not valid UTF-8. -/
def printable (b : Bytes) : Bytes :=
  if b.toText?.isSome then b
  else
    b.foldl (fun acc c =>
      if c < 128 then acc.push c
      else acc ++ ofString "\\x" ++ toHex ⟨#[c]⟩) .empty

/-- The text of a byte string, every byte read as the character of that number. -/
def latin1 (b : Bytes) : String :=
  String.ofList (b.data.toList.map fun c => Char.ofNat c.toNat)

/-- The text of a byte string, with stray bytes escaped. -/
def toText (b : Bytes) : String :=
  match b.toText? with
  | some s => s
  | none => (b.printable.toText?).getD b.latin1

/-! ### Laws -/

theorem toText?_ofString (s : String) : (ofString s).toText? = some s := by
  unfold toText? String.fromUTF8?
  rw [dif_pos]
  rfl

theorem ofString_toText? {b : Bytes} {s : String} (h : b.toText? = some s) : ofString s = b := by
  unfold toText? String.fromUTF8? at h
  split at h
  · obtain rfl := Option.some.inj h
    rfl
  · cases h

end Bytes

end LuaCapsule
