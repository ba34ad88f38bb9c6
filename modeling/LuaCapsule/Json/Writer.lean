import LuaCapsule.Datum.Basic
import LuaCapsule.Number.Digits

/-! Compact JSON with the keys of every object in order of their code points. Bytes and host
objects have no JSON form. -/

namespace LuaCapsule.Json

/-- Doubles in JSON; three spellings stand for the values that have no digits. -/
def doubleLayout : Digits.Layout := ⟨16, -4, "NaN", "Infinity"⟩

def hex4 (n : Nat) : List Char :=
  let ds := Nat.toDigits 16 n
  '\\' :: 'u' :: (List.replicate (4 - ds.length) '0' ++ ds)

/-- The form of a character in a string; with `ascii` all but visible ASCII is escaped. -/
def escape (ascii : Bool) (c : Char) : List Char :=
  if c == '"' then ['\\', '"']
  else if c == '\\' then ['\\', '\\']
  else if c == '\n' then ['\\', 'n']
  else if c == '\r' then ['\\', 'r']
  else if c == '\t' then ['\\', 't']
  else if c == '\x0c' then ['\\', 'f']
  else if c == '\x08' then ['\\', 'b']
  else if c.toNat < 32 then hex4 c.toNat
  else if !ascii || c.toNat < 127 then [c]
  else if c.toNat < 0x10000 then hex4 c.toNat
  else
    let n := c.toNat - 0x10000
    hex4 (0xd800 + n / 1024) ++ hex4 (0xdc00 + n % 1024)

def quote (ascii : Bool) (s : String) : String :=
  String.ofList ('"' :: s.toList.flatMap (escape ascii) ++ ['"'])

/-- Strings in order of their code points. -/
def textLe (a b : String) : Bool := !(b < a)

/-- Parts between brackets, with commas. -/
def bracketed (opening closing : String) (parts : List String) : String :=
  opening ++ ",".intercalate parts ++ closing

/-- Members of an object in order of their keys. -/
def object (ascii : Bool) (members : List (String × String)) : String :=
  bracketed "\x7b" "\x7d"
    ((members.mergeSort fun a b => textLe a.1 b.1).map fun m => quote ascii m.1 ++ ":" ++ m.2)

mutual

/-- The JSON text of a value whose mappings have text keys. -/
def write? (ascii : Bool) : Datum → Option String
  | .null => some "null"
  | .bool b => some (if b then "true" else "false")
  | .int i => some (toString i)
  | .float x => some (doubleLayout.render x)
  | .text s => some (quote ascii s)
  | .list items => (writeAll? ascii items).map (bracketed "[" "]")
  | .tuple items => (writeAll? ascii items).map (bracketed "[" "]")
  | .mapping entries => (writeMembers? ascii entries).map (object ascii)
  | _ => none

def writeAll? (ascii : Bool) : List Datum → Option (List String)
  | [] => some []
  | item :: rest =>
    match write? ascii item, writeAll? ascii rest with
    | some t, some ts => some (t :: ts)
    | _, _ => none

def writeMembers? (ascii : Bool) : List (Datum × Datum) → Option (List (String × String))
  | [] => some []
  | (.text k, v) :: rest =>
    match write? ascii v, writeMembers? ascii rest with
    | some t, some ts => some ((k, t) :: ts)
    | _, _ => none
  | _ :: _ => none

end

end LuaCapsule.Json
