import LuaCapsule.Number.Binary64

/-! Decimal digits of doubles. `shortest` finds the fewest digits that read back to the same
double, nearest to it among those; `significant` and `places` round the exact value to a
given number of digits, ties to even. -/

namespace LuaCapsule.Digits

/-- Quotient rounded to the nearest integer, ties to even. -/
def roundDiv (num den : Nat) : Nat :=
  let q := num / den
  let r := num % den
  if 2 * r > den || (2 * r == den && q % 2 == 1) then q + 1 else q

/-- `num * 10 ^ k / den` as a fraction of naturals. -/
def scale (num den : Nat) (k : Int) : Nat × Nat :=
  if k ≥ 0 then (num * Nat.pow 10 k.toNat, den) else (num, den * Nat.pow 10 (-k).toNat)

/-- A positive finite double as a fraction of naturals. -/
def fraction (m : Nat) (e : Int) : Nat × Nat :=
  if e ≥ 0 then (m <<< e.toNat, 1) else (m, 1 <<< (-e).toNat)

/-- The `x` with `10 ^ x ≤ num / den < 10 ^ (x + 1)`, for a positive fraction. -/
def exponentOf (num den : Nat) : Int :=
  let guess := (((num.log2 : Int) - (den.log2 : Int) - 1) * 30103) / 100000
  let fits (x : Int) : Bool := let (n, d) := scale num den (-x); n ≥ d
  if fits (guess + 2) then guess + 2
  else if fits (guess + 1) then guess + 1
  else if fits guess then guess
  else guess - 1

/-- A decimal: `digits * 10 ^ exponent`, with `digits` written in `count` places. -/
structure Decimal where
  digits : Nat
  exponent : Int
  deriving Repr, DecidableEq, Inhabited

/-- Does `c * 10 ^ k` round to the double of significand `m` and exponent `e`? -/
def readsBack (m : Nat) (e : Int) (c : Nat) (k : Int) : Bool :=
  Binary64.roundBits m e false ==
    (let (n, d) := scale c 1 k
     (Binary64.ofRatio false n d).bits.toNat)

/-- The distance of `c * 10 ^ k` from `num / den`, times a common factor. -/
def distance (num den c : Nat) (k : Int) : Nat :=
  let (n, d) := scale num den (-k)
  if n ≥ c * d then n - c * d else c * d - n

/-- Tries the grids of `count`, `count + 1`, … digits. -/
def shortestFrom (m : Nat) (e : Int) (num den : Nat) (x : Int) : Nat → Nat → Decimal
  | 0, _ => ⟨0, 0⟩
  | fuel + 1, count =>
    let k := x - (count : Int) + 1
    let (n, d) := scale num den (-k)
    let lower := n / d
    let lowOk := readsBack m e lower k
    let highOk := readsBack m e (lower + 1) k
    if lowOk && highOk then
      let dl := distance num den lower k
      let dh := distance num den (lower + 1) k
      if dl < dh || (dl == dh && lower % 2 == 0) then ⟨lower, k⟩ else ⟨lower + 1, k⟩
    else if lowOk then ⟨lower, k⟩
    else if highOk then ⟨lower + 1, k⟩
    else shortestFrom m e num den x fuel (count + 1)

/-- Drops trailing zeros of the digits. -/
def Decimal.normalize (d : Decimal) : Decimal := go 20 d
where
  go : Nat → Decimal → Decimal
    | 0, d => d
    | fuel + 1, d => if d.digits != 0 && d.digits % 10 == 0 then go fuel ⟨d.digits / 10, d.exponent + 1⟩ else d

/-- The shortest decimal that reads back as a positive finite double. -/
def shortest (x : Binary64) : Decimal :=
  let (m, e) := x.magnitude
  let (num, den) := fraction m e
  (shortestFrom m e num den (exponentOf num den) 17 1).normalize

/-- The `count` leading digits of a positive finite double, and the exponent of the first. -/
def significant (x : Binary64) (count : Nat) : Nat × Int :=
  let (m, e) := x.magnitude
  if m == 0 then (0, 0)
  else
    let (num, den) := fraction m e
    let lead := exponentOf num den
    let (n, d) := scale num den ((count : Int) - 1 - lead)
    let q := roundDiv n d
    if q ≥ Nat.pow 10 count then (Nat.pow 10 (count - 1), lead + 1) else (q, lead)

/-- A non-negative finite double times `10 ^ count`, rounded to an integer. -/
def places (x : Binary64) (count : Nat) : Nat :=
  let (m, e) := x.magnitude
  let (num, den) := fraction m e
  roundDiv (num * Nat.pow 10 count) den

/-- Decimal text of a natural, padded with zeros on the left to `width`. -/
def padded (n width : Nat) : String :=
  let s := toString n
  String.ofList (List.replicate (width - s.length) '0') ++ s

/-! ### Layouts -/

/-- How a double is written out in shortest form: the decimal exponents written positionally
and the texts of the values that have no digits. -/
structure Layout where
  /-- The first decimal exponent that needs the exponent form. -/
  exponentFrom : Int
  /-- The least decimal exponent that is still written positionally. -/
  positionalFrom : Int
  nan : String
  infinity : String
  deriving Repr

/-- Digits with a point after the first `before` of them. -/
def withPoint (ds : String) (before : Int) : String :=
  let cs := ds.toList
  if before ≤ 0 then "0." ++ String.ofList (List.replicate (-before).toNat '0') ++ ds
  else
    let b := before.toNat
    if b ≥ cs.length then
      ds ++ String.ofList (List.replicate (b - cs.length) '0') ++ ".0"
    else String.ofList (cs.take b) ++ "." ++ String.ofList (cs.drop b)

/-- An exponent with its sign and at least two digits. -/
def exponentText (x : Int) : String :=
  (if x < 0 then "-" else "+") ++ padded x.natAbs 2

/-- Shortest text of a double in a layout. -/
def Layout.render (l : Layout) (x : Binary64) : String :=
  if x.isNaN then l.nan
  else
    let sign := if x.isNegative then "-" else ""
    if x.isInfinite then sign ++ l.infinity
    else if x.isZero then sign ++ "0.0"
    else
      let d := shortest x.abs
      let ds := toString d.digits
      let lead : Int := d.exponent + ds.length - 1
      if l.positionalFrom ≤ lead && lead < l.exponentFrom then sign ++ withPoint ds (lead + 1)
      else
        let tail := String.ofList (ds.toList.drop 1)
        let body := if tail.isEmpty then ds else String.ofList (ds.toList.take 1) ++ "." ++ tail
        sign ++ body ++ "e" ++ exponentText lead

end LuaCapsule.Digits
