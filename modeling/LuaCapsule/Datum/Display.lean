import LuaCapsule.Datum.Basic
import LuaCapsule.Number.Digits
import LuaCapsule.Text.Quoted

/-! The text of a structured value. A text displays as itself; inside a list, a tuple or a
mapping it stands in quotes, as `literal` writes it. -/

namespace LuaCapsule.Datum

/-- Doubles are written in the fewest digits that read back, positionally from `1e-4` to
below `1e16`. -/
def doubleLayout : Digits.Layout := ⟨16, -4, "nan", "inf"⟩

mutual

/-- The form of a value inside a container. -/
def literal : Datum → String
  | .null => "None"
  | .bool b => if b then "True" else "False"
  | .int i => toString i
  | .float x => doubleLayout.render x
  | .text s => Quoted.text s
  | .bytes b => Quoted.bytes b
  | .list items => "[" ++ literals items ++ "]"
  | .tuple [item] => "(" ++ literal item ++ ",)"
  | .tuple items => "(" ++ literals items ++ ")"
  | .mapping entries => "\x7b" ++ literalEntries entries ++ "\x7d"
  | .host .object => "<object object at 0x0>"
  | .host .set => "set()"
  | .host .function => "<built-in function len>"
  | .live _ => "<LuaVM Lua 5.4 at 0x0>"

/-- The forms of some values, with commas between them. -/
def literals : List Datum → String
  | [] => ""
  | [item] => literal item
  | item :: rest => literal item ++ ", " ++ literals rest

/-- The forms of some entries, with commas between them. -/
def literalEntries : List (Datum × Datum) → String
  | [] => ""
  | [(k, v)] => literal k ++ ": " ++ literal v
  | (k, v) :: rest => literal k ++ ": " ++ literal v ++ ", " ++ literalEntries rest

end

mutual

/-- Does a value hold, at any depth, an integer that is too long to be written? -/
def holdsLong : Datum → Bool
  | .int i => isLong i
  | .list items => anyHoldsLong items
  | .tuple items => anyHoldsLong items
  | .mapping entries => entriesHoldLong entries
  | _ => false

def anyHoldsLong : List Datum → Bool
  | [] => false
  | item :: rest => holdsLong item || anyHoldsLong rest

def entriesHoldLong : List (Datum × Datum) → Bool
  | [] => false
  | (k, v) :: rest => holdsLong k || holdsLong v || entriesHoldLong rest

end

/-- The text of a value. -/
def display : Datum → String
  | .text s => s
  | d => literal d

end LuaCapsule.Datum
