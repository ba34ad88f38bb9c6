import LuaCapsule.Number.Digits

/-! Numbers laid out by a conversion directive: flags, width, precision and one of the
conversions for integers and doubles, hexadecimal doubles included. -/

namespace LuaCapsule.Printf

/-- The flags, width and precision of a directive. -/
structure Spec where
  minus : Bool := false
  plus : Bool := false
  space : Bool := false
  alternate : Bool := false
  zero : Bool := false
  width : Nat := 0
  precision : Option Nat := none
  deriving Repr, Inhabited

def zeros (n : Nat) : String := String.ofList (List.replicate n '0')

def blanks (n : Nat) : String := String.ofList (List.replicate n ' ')

/-- Fills to the width: on the right, with zeros after the sign, or on the left. -/
def Spec.fill (s : Spec) (zeroAllowed : Bool) (sign body : String) : String :=
  let missing := s.width - (sign.length + body.length)
  if s.minus then sign ++ body ++ blanks missing
  else if s.zero && zeroAllowed then sign ++ zeros missing ++ body
  else blanks missing ++ sign ++ body

def Spec.sign (s : Spec) (negative : Bool) : String :=
  if negative then "-" else if s.plus then "+" else if s.space then " " else ""

/-- The least number of digits of an integer; a zero with precision zero has none. -/
def integerDigits (precision : Option Nat) (digits : String) : String :=
  match precision with
  | none => digits
  | some p => if p == 0 && digits == "0" then "" else zeros (p - digits.length) ++ digits

/-- A signed decimal integer. -/
def Spec.integer (s : Spec) (i : Int) : String :=
  s.fill s.precision.isNone (s.sign (i < 0)) (integerDigits s.precision (toString i.natAbs))

def digitChar (upper : Bool) (d : Nat) : Char :=
  if d < 10 then Char.ofNat (48 + d) else Char.ofNat ((if upper then 55 else 87) + d)

/-- Digits of a natural in a base, at most 64 of them. -/
def inBase (base : Nat) (upper : Bool) (n : Nat) : String :=
  String.ofList (go 64 n [])
where
  go : Nat → Nat → List Char → List Char
    | 0, _, acc => acc
    | fuel + 1, n, acc =>
      let acc := digitChar upper (n % base) :: acc
      if n < base then acc else go fuel (n / base) acc

/-- An unsigned integer in base 8 or 16. -/
def Spec.unsigned (s : Spec) (base : Nat) (upper : Bool) (n : Nat) : String :=
  let digits := integerDigits s.precision (inBase base upper n)
  let lead :=
    if !s.alternate then ""
    else if base == 16 then (if n == 0 then "" else if upper then "0X" else "0x")
    else if digits.startsWith "0" then "" else "0"
  s.fill s.precision.isNone lead digits

/-! ### Doubles -/

/-- Digits with a point before the last `count`. -/
def pointed (alternate : Bool) (n count : Nat) : String :=
  let ds := (Digits.padded n (count + 1)).toList
  let whole := String.ofList (ds.take (ds.length - count))
  if count == 0 then (if alternate then whole ++ "." else whole)
  else whole ++ "." ++ String.ofList (ds.drop (ds.length - count))

def fixedBody (alternate : Bool) (x : Binary64) (precision : Nat) : String :=
  pointed alternate (Digits.places x precision) precision

def exponentBody (alternate upper : Bool) (x : Binary64) (precision : Nat) : String :=
  let (n, lead) := Digits.significant x (precision + 1)
  pointed alternate n precision ++ (if upper then "E" else "e") ++ Digits.exponentText lead

/-- Drops the zeros at the end of a fraction, and its point if nothing else is left. -/
def dropTrailingZeros (s : String) : String :=
  if s.toList.contains '.' then
    let kept := s.toList.reverse.dropWhile (· == '0')
    String.ofList ((match kept with | '.' :: r => r | r => r).reverse)
  else s

/-- The shorter of the two layouts, for `precision` significant digits. -/
def generalBody (alternate upper : Bool) (x : Binary64) (precision : Nat) : String :=
  let p := if precision == 0 then 1 else precision
  let (n, lead) := Digits.significant x p
  if lead < -4 || lead ≥ p then
    let mantissa := pointed alternate n (p - 1)
    (if alternate then mantissa else dropTrailingZeros mantissa)
      ++ (if upper then "E" else "e") ++ Digits.exponentText lead
  else
    let body := fixedBody alternate x ((p : Int) - 1 - lead).toNat
    if alternate then body else dropTrailingZeros body

/-- Hexadecimal significand and binary exponent. -/
def hexBody (alternate upper : Bool) (x : Binary64) (precision : Option Nat) : String :=
  let (lead, frac, e) : Nat × Nat × Int :=
    if x.isZero then (0, 0, 0)
    else if x.exponentField == 0 then (0, x.fraction, -1022)
    else (1, x.fraction, (x.exponentField : Int) - 1023)
  let (lead, digits) : Nat × String :=
    match precision with
    | none =>
      let full := inBase 16 upper frac
      let full := zeros (13 - full.length) ++ full
      (lead, String.ofList ((full.toList.reverse.dropWhile (· == '0')).reverse))
    | some p =>
      if p ≥ 13 then
        let full := inBase 16 upper frac
        (lead, zeros (13 - full.length) ++ full ++ zeros (p - 13))
      else
        let q := Digits.roundDiv ((lead <<< 52) + frac) (1 <<< (4 * (13 - p)))
        let low := q % Nat.pow 16 p
        let text := inBase 16 upper low
        (q / Nat.pow 16 p, if p == 0 then "" else zeros (p - text.length) ++ text)
  let point := if digits.isEmpty && !alternate then "" else "."
  (if upper then "X" else "x") ++ toString lead ++ point ++ digits ++ (if upper then "P" else "p")
    ++ (if e < 0 then "-" else "+") ++ toString e.natAbs

/-- A double by its conversion letter: one of `a e f g` or their capitals. -/
def Spec.double (s : Spec) (conversion : Char) (x : Binary64) : String :=
  let upper := conversion.isUpper
  let sign := s.sign x.isNegative
  if !x.isFinite then
    let text := if x.isNaN then "nan" else "inf"
    s.fill false sign (if upper then text.toUpper else text)
  else
    let y := x.abs
    match conversion.toLower with
    | 'a' => s.fill true (sign ++ "0") (hexBody s.alternate upper y s.precision)
    | 'e' => s.fill true sign (exponentBody s.alternate upper y (s.precision.getD 6))
    | 'f' => s.fill true sign (fixedBody s.alternate y (s.precision.getD 6))
    | _ => s.fill true sign (generalBody s.alternate upper y (s.precision.getD 6))

/-- Fourteen significant digits, the general layout. -/
def general14 (x : Binary64) : String :=
  ({ precision := some 14 } : Spec).double 'g' x

/-- Hexadecimal text of a double, exact. -/
def hexadecimal (x : Binary64) : String := ({} : Spec).double 'a' x

end LuaCapsule.Printf
