import LuaCapsule.Number.Binary64
import LuaCapsule.Text.Bytes

/-! The numerals of the language: decimal and hexadecimal integers and doubles, with blanks
around them and a sign in front. A decimal integer that does not fit 64 bits is read as a
double; a hexadecimal one wraps. -/

namespace LuaCapsule.Numeral

/-- The number that a numeral denotes. -/
inductive Number where
  | int (i : Int64)
  | float (x : Binary64)
  deriving DecidableEq, Repr

def trimLeft (cs : List UInt8) : List UInt8 := cs.dropWhile Bytes.isSpace

/-- A leading sign, and the rest. -/
def sign : List UInt8 → Bool × List UInt8
  | 45 :: cs => (true, cs)
  | 43 :: cs => (false, cs)
  | cs => (false, cs)

/-- The digits after `0x`, if the text starts so. -/
def hexBody? : List UInt8 → Option (List UInt8)
  | 48 :: c :: cs => if c == 120 || c == 88 then some cs else none
  | _ => none

def valueIn (base : Nat) (digits : List UInt8) : Nat :=
  digits.foldl (fun n c => n * base + Bytes.hexValue c) 0

/-- Is there nothing but blanks? -/
def isBlank (cs : List UInt8) : Bool := cs.all Bytes.isSpace

/-- A whole numeral as an integer. -/
def int? (cs : List UInt8) : Option Int64 :=
  let (negative, body) := sign (trimLeft cs)
  match hexBody? body with
  | some hex =>
    let digits := hex.takeWhile Bytes.isHexDigit
    if digits.isEmpty || !isBlank (hex.dropWhile Bytes.isHexDigit) then none
    else
      let n : Nat := valueIn 16 digits % 18446744073709551616
      some (Int64.ofInt (if negative then -(n : Int) else n))
  | none =>
    let digits := body.takeWhile Bytes.isDigit
    let n := valueIn 10 digits
    if digits.isEmpty || !isBlank (body.dropWhile Bytes.isDigit) then none
    else if n < 9223372036854775808 || (negative && n == 9223372036854775808) then
      some (Int64.ofInt (if negative then -(n : Int) else n))
    else none

/-- Digits on both sides of an optional point, and the rest. -/
def pointed (isDigit : UInt8 → Bool) (cs : List UInt8) : List UInt8 × List UInt8 × List UInt8 :=
  let whole := cs.takeWhile isDigit
  match cs.dropWhile isDigit with
  | 46 :: rest => (whole, rest.takeWhile isDigit, rest.dropWhile isDigit)
  | rest => (whole, [], rest)

/-- An exponent marked by `mark`, in lower case, and the rest. A mark without digits is left
where it stands. -/
def exponent (mark : UInt8) (cs : List UInt8) : Int × List UInt8 :=
  match cs with
  | c :: rest =>
    if Bytes.toLower c == mark then
      let (negative, body) := sign rest
      let digits := body.takeWhile Bytes.isDigit
      if digits.isEmpty then (0, cs)
      else
        let n := valueIn 10 digits
        (if negative then -(n : Int) else n, body.dropWhile Bytes.isDigit)
    else (0, cs)
  | [] => (0, [])

/-- `m * 2 ^ e`, with exponents beyond all doubles cut. -/
def scaled (negative : Bool) (m : Nat) (e : Int) : Binary64 :=
  if m == 0 then .withSign negative .zero
  else if e > 2000 then .withSign negative .infinity
  else if e < -2000 - 4 * (m.log2 : Int) then .withSign negative .zero
  else .ofMagnitude negative m e false

/-- A whole numeral as a double. -/
def float? (cs : List UInt8) : Option Binary64 :=
  let (negative, body) := sign (trimLeft cs)
  match hexBody? body with
  | some hex =>
    let (whole, fraction, rest) := pointed Bytes.isHexDigit hex
    let (e, rest) := exponent 112 rest
    if (whole.isEmpty && fraction.isEmpty) || !isBlank rest then none
    else some (scaled negative (valueIn 16 (whole ++ fraction)) (e - 4 * fraction.length))
  | none =>
    let (whole, fraction, rest) := pointed Bytes.isDigit body
    let (e, rest) := exponent 101 rest
    if (whole.isEmpty && fraction.isEmpty) || !isBlank rest then none
    else some (.ofDecimal negative (valueIn 10 (whole ++ fraction)) (e - fraction.length))

/-- The number that a whole text denotes. -/
def read? (b : Bytes) : Option Number :=
  let cs := b.data.toList
  match int? cs with
  | some i => some (.int i)
  | none => (float? cs).map .float

end LuaCapsule.Numeral
