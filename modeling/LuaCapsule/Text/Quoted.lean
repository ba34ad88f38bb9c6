import LuaCapsule.Text.Bytes
import LuaCapsule.Text.Printable

/-! Text in quotes. Single quotes stand around a text unless it holds a single quote and no
double one; what has no visible form is written as an escape. -/

namespace LuaCapsule.Quoted

def hexPadded (width n : Nat) : List Char :=
  let ds := Nat.toDigits 16 n
  List.replicate (width - ds.length) '0' ++ ds

/-- The quote that stands around characters. -/
def quoteFor (cs : List Char) : Char :=
  if cs.contains '\'' && !cs.contains '"' then '"' else '\''

/-- The form of one character between quotes. -/
def escape (quote c : Char) : List Char :=
  if c == quote || c == '\\' then ['\\', c]
  else if c == '\n' then ['\\', 'n']
  else if c == '\r' then ['\\', 'r']
  else if c == '\t' then ['\\', 't']
  else if Printable.isPrintable c then [c]
  else if c.toNat < 0x100 then '\\' :: 'x' :: hexPadded 2 c.toNat
  else if c.toNat < 0x10000 then '\\' :: 'u' :: hexPadded 4 c.toNat
  else '\\' :: 'U' :: hexPadded 8 c.toNat

/-- A text in quotes. -/
def text (s : String) : String :=
  let cs := s.toList
  let q := quoteFor cs
  String.ofList (q :: cs.flatMap (escape q) ++ [q])

/-- The form of one byte between quotes: what is not visible ASCII is escaped. -/
def escapeByte (quote : Char) (b : UInt8) : List Char :=
  if b < 128 then escape quote (Char.ofNat b.toNat) else '\\' :: 'x' :: hexPadded 2 b.toNat

/-- A byte string in quotes, marked by a leading `b`. -/
def bytes (b : Bytes) : String :=
  let l := b.data.toList
  let q := quoteFor (l.map fun c => Char.ofNat c.toNat)
  String.ofList ('b' :: q :: l.flatMap (escapeByte q) ++ [q])

end LuaCapsule.Quoted
