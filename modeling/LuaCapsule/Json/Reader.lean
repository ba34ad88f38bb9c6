import LuaCapsule.Datum.Basic

/-! Reading JSON. The grammar is the standard one with three more numbers, `NaN`, `Infinity`
and `-Infinity`; of a repeated key the last value counts. -/

namespace LuaCapsule.Json

/-- How deep arrays and objects may nest. -/
structure Limits where
  depth : Nat

abbrev Reading (α : Type) := Option (α × List Char)

def isBlank (c : Char) : Bool := c == ' ' || c == '\t' || c == '\n' || c == '\r'

def skipBlank (cs : List Char) : List Char := cs.dropWhile isBlank

def hexValue? (c : Char) : Option Nat :=
  if c.isDigit then some (c.toNat - 48)
  else if 'a' ≤ c && c ≤ 'f' then some (c.toNat - 87)
  else if 'A' ≤ c && c ≤ 'F' then some (c.toNat - 55)
  else none

/-- Four hexadecimal digits. -/
def readHex4 : List Char → Reading Nat
  | a :: b :: c :: d :: rest =>
    match hexValue? a, hexValue? b, hexValue? c, hexValue? d with
    | some a, some b, some c, some d => some (((a * 16 + b) * 16 + c) * 16 + d, rest)
    | _, _, _, _ => none
  | _ => none

def simpleEscape? : Char → Option Char
  | '"' => some '"'
  | '\\' => some '\\'
  | '/' => some '/'
  | 'b' => some '\x08'
  | 'f' => some '\x0c'
  | 'n' => some '\n'
  | 'r' => some '\r'
  | 't' => some '\t'
  | _ => none

/-- The rest of a string after its opening quote; `acc` holds its characters in reverse. -/
def readString : Nat → List Char → List Char → Reading String
  | 0, _, _ => none
  | fuel + 1, acc, cs =>
    match cs with
    | '"' :: rest => some (String.ofList acc.reverse, rest)
    | '\\' :: 'u' :: rest =>
      match readHex4 rest with
      | none => none
      | some (hi, rest) =>
        if 0xd800 ≤ hi && hi < 0xdc00 then
          match rest with
          | '\\' :: 'u' :: rest =>
            match readHex4 rest with
            | some (lo, rest) =>
              if 0xdc00 ≤ lo && lo < 0xe000 then
                readString fuel (Char.ofNat (0x10000 + (hi - 0xd800) * 1024 + (lo - 0xdc00)) :: acc) rest
              else none
            | none => none
          | _ => none
        else if 0xdc00 ≤ hi && hi < 0xe000 then none
        else readString fuel (Char.ofNat hi :: acc) rest
    | '\\' :: c :: rest =>
      match simpleEscape? c with
      | some c => readString fuel (c :: acc) rest
      | none => none
    | c :: rest => if c.toNat < 32 then none else readString fuel (c :: acc) rest
    | [] => none

def natOfDigits (ds : List Char) : Nat := ds.foldl (fun n c => n * 10 + (c.toNat - 48)) 0

/-- The integer part of a number: zero, or digits of which the first is not zero. -/
def readWhole : List Char → Reading (List Char)
  | '0' :: rest => some (['0'], rest)
  | cs =>
    match cs.takeWhile Char.isDigit with
    | [] => none
    | ds => some (ds, cs.dropWhile Char.isDigit)

/-- An exponent part, if one follows. -/
def readExponent (cs : List Char) : Option (Option Int × List Char) :=
  match cs with
  | e :: rest =>
    if e == 'e' || e == 'E' then
      let (negative, rest) : Bool × List Char :=
        match rest with
        | '-' :: r => (true, r)
        | '+' :: r => (false, r)
        | r => (false, r)
      match rest.takeWhile Char.isDigit with
      | [] => none
      | ds =>
        let n : Int := natOfDigits ds
        some (some (if negative then -n else n), rest.dropWhile Char.isDigit)
    else some (none, cs)
  | [] => some (none, [])

/-- A number after its sign. An integer that is too long is refused. -/
def readNumber (negative : Bool) (cs : List Char) : Reading Datum :=
  match readWhole cs with
  | none => none
  | some (whole, rest) =>
    let fraction : Option (List Char × List Char) :=
      match rest with
      | '.' :: r =>
        match r.takeWhile Char.isDigit with
        | [] => none
        | ds => some (ds, r.dropWhile Char.isDigit)
      | r => some ([], r)
    match fraction with
    | none => none
    | some (ds, rest) =>
      match readExponent rest with
      | none => none
      | some (exponent, rest) =>
        if ds.isEmpty && exponent.isNone then
          if whole.length > maxDigits then none
          else
            let n : Int := natOfDigits whole
            some (.int (if negative then -n else n), rest)
        else
          some (.float (Binary64.ofDecimal negative (natOfDigits (whole ++ ds))
            (exponent.getD 0 - ds.length)), rest)

def word? (w : String) (cs : List Char) : Option (List Char) :=
  let k := w.toList
  if k.isPrefixOf cs then some (cs.drop k.length) else none

/-- A number or a word. -/
def readScalar (cs : List Char) : Reading Datum :=
  match cs with
  | '-' :: rest =>
    match word? "Infinity" rest with
    | some r => some (.float Binary64.infinity.neg, r)
    | none => readNumber true rest
  | c :: _ =>
    if c.isDigit then readNumber false cs
    else
      let words : List (String × Datum) :=
        [("null", .null), ("true", .bool true), ("false", .bool false),
          ("NaN", .float Binary64.quietNaN), ("Infinity", .float Binary64.infinity)]
      words.findSome? fun w => (word? w.1 cs).map fun r => (w.2, r)
  | [] => none

mutual

/-- A value; blanks before it are skipped. -/
def readValue (depth : Nat) : Nat → List Char → Reading Datum
  | 0, _ => none
  | fuel + 1, cs =>
    match skipBlank cs with
    | '"' :: rest => (readString (rest.length + 1) [] rest).map fun r => (.text r.1, r.2)
    | '[' :: rest =>
      match depth with
      | 0 => none
      | depth + 1 =>
        match skipBlank rest with
        | ']' :: rest => some (.list [], rest)
        | rest => (readItems depth fuel [] rest).map fun r => (.list r.1, r.2)
    | '\x7b' :: rest =>
      match depth with
      | 0 => none
      | depth + 1 =>
        match skipBlank rest with
        | '\x7d' :: rest => some (.mapping [], rest)
        | rest => (readMembers depth fuel [] rest).map fun r => (.mapping r.1, r.2)
    | rest => readScalar rest

/-- The items of an array and its closing bracket. -/
def readItems (depth : Nat) : Nat → List Datum → List Char → Reading (List Datum)
  | 0, _, _ => none
  | fuel + 1, acc, cs =>
    match readValue depth fuel cs with
    | none => none
    | some (item, rest) =>
      match skipBlank rest with
      | ',' :: rest => readItems depth fuel (item :: acc) rest
      | ']' :: rest => some ((item :: acc).reverse, rest)
      | _ => none

/-- The members of an object and its closing brace. -/
def readMembers (depth : Nat) : Nat → List (Datum × Datum) → List Char → Reading (List (Datum × Datum))
  | 0, _, _ => none
  | fuel + 1, acc, cs =>
    match skipBlank cs with
    | '"' :: rest =>
      match readString (rest.length + 1) [] rest with
      | none => none
      | some (key, rest) =>
        match skipBlank rest with
        | ':' :: rest =>
          match readValue depth fuel rest with
          | none => none
          | some (value, rest) =>
            let acc := Datum.insert (.text key) value acc
            match skipBlank rest with
            | ',' :: rest => readMembers depth fuel acc rest
            | '\x7d' :: rest => some (acc, rest)
            | _ => none
        | _ => none
    | _ => none

end

/-- A whole text as one value. -/
def read? (limits : Limits) (s : String) : Option Datum :=
  let cs := s.toList
  match readValue limits.depth (cs.length + 1) cs with
  | some (v, rest) => if (skipBlank rest).isEmpty then some v else none
  | none => none

end LuaCapsule.Json
