import LuaCapsule.Datum.Basic

/-! Reading whole numbers leniently: truth values, doubles without a fraction and texts of
digits count as integers. A text may have blanks around it, a sign, leading zeros, single
underscores between its digits, and zeros after a point. -/

namespace LuaCapsule.Whole

/-- Why a value is no whole number. -/
inductive Refusal where
  /-- It is no number and no text. -/
  | type
  /-- It is a text that is no whole number. -/
  | parsing
  /-- It is a whole number with too many digits, or a double beyond 64 bits. -/
  | size
  /-- It is a double with a fraction. -/
  | fraction
  /-- It is infinite or no number at all. -/
  | infinite
  deriving DecidableEq, Repr, Inhabited

def Refusal.code : Refusal → String
  | type => "int_type"
  | parsing => "int_parsing"
  | size => "int_parsing_size"
  | fraction => "int_from_float"
  | infinite => "finite_number"

/-- The length beyond which no text is read. -/
def maxLength : Nat := 4300

def isDigit (c : Char) : Bool := '0' ≤ c && c ≤ '9'

/-- The characters that count as blank in text. -/
def isBlank (c : Char) : Bool :=
  let n := c.toNat
  (9 ≤ n && n ≤ 13) || n == 32 || n == 0x85 || n == 0xa0 || n == 0x1680
    || (0x2000 ≤ n && n ≤ 0x200a) || n == 0x2028 || n == 0x2029 || n == 0x202f || n == 0x205f
    || n == 0x3000

def trim (cs : List Char) : List Char :=
  ((cs.dropWhile isBlank).reverse.dropWhile isBlank).reverse

/-- Digits without a leading zero, or a single zero. -/
def natural? (cs : List Char) : Option Int :=
  match cs with
  | [] => none
  | ['0'] => some 0
  | '0' :: _ => none
  | cs =>
    if cs.all isDigit then some (cs.foldl (fun n c => n * 10 + (c.toNat - 48 : Nat)) (0 : Int))
    else none

def plain? : List Char → Option Int
  | '-' :: rest => (natural? rest).map (- ·)
  | cs => natural? cs

/-- The characters from the first digit that is not zero, or from a point. -/
def dropZeros (last : Char) : List Char → Option (List Char)
  | [] => some [last]
  | c :: rest =>
    if c == '0' || c == '_' then dropZeros c rest
    else if isDigit c || c == '.' then some (c :: rest)
    else none

def dropLeadingZeros : List Char → Option (List Char)
  | [] => none
  | '0' :: rest => dropZeros '0' rest
  | c :: rest => if isDigit c || c == '-' then some (c :: rest) else none

/-- Characters without a point that only zeros follow. -/
def dropPoint (cs : List Char) : List Char :=
  let whole := cs.takeWhile (· != '.')
  match cs.drop whole.length with
  | '.' :: zeros => if zeros.all (· == '0') then whole else cs
  | _ => cs

/-- Does an underscore stand at an end or beside another one? -/
def hasStrayUnderscore : List Char → Bool
  | [] => false
  | ['_'] => true
  | '_' :: '_' :: _ => true
  | _ :: rest => hasStrayUnderscore rest

def dropUnderscores (cs : List Char) : Option (List Char) :=
  if cs.head? == some '_' || hasStrayUnderscore cs then none else some (cs.filter (· != '_'))

/-- A text without all that may surround its digits. -/
def cleaned? (cs : List Char) : Option (List Char) := do
  let cs := trim cs
  let cs := match cs with | '+' :: rest => rest | cs => cs
  dropUnderscores (dropPoint (← dropLeadingZeros cs))

def ofText (s : String) : Except Refusal Int :=
  let cs := s.toList
  if s.utf8ByteSize > maxLength then .error .size
  else
    match plain? cs with
    | some i => .ok i
    | none =>
      match (cleaned? cs).bind plain? with
      | some i => .ok i
      | none => .error .parsing

def ofDouble (x : Binary64) : Except Refusal Int :=
  if !x.isFinite then .error .infinite
  else
    match x.toInt? with
    | none => .error .fraction
    | some i => if -int64Limit < i && i < int64Limit then .ok i else .error .size

/-- A value as a whole number. -/
def ofDatum : Datum → Except Refusal Int
  | .bool b => .ok (if b then 1 else 0)
  | .int i => .ok i
  | .float x => ofDouble x
  | .text s => ofText s
  | .bytes b =>
    match b.toText? with
    | some s => ofText s
    | none => .error .parsing
  | _ => .error .type

end LuaCapsule.Whole
