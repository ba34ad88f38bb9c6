import LuaCapsule.Lua.BinaryForm
import LuaCapsule.Lua.Library.Arguments
import LuaCapsule.Lua.Pattern

/-! The string library: slices, patterns, and formatting. Positions count bytes from 1, and
from the end when they are negative. -/

namespace LuaCapsule.Lua.Strings

/-! ### Slices -/

/-- The first position of a slice. -/
def firstPosition (pos : Int) (size : Nat) : Nat :=
  if pos > 0 then pos.toNat
  else if pos == 0 then 1
  else if pos < -(size : Int) then 1
  else (size + pos + 1).toNat

/-- The last position of a slice. -/
def lastPosition (pos : Int) (size : Nat) : Nat :=
  if pos > size then size
  else if pos ≥ 0 then pos.toNat
  else if pos < -(size : Int) then 0
  else (size + pos + 1).toNat

def sub : Library := fun s => do
  let b ← s.checkString 1
  let i := firstPosition (← s.checkInt 2).toInt b.size
  let j := lastPosition (← s.optInt 3 (-1)) b.size
  return [.str (if i ≤ j then b.slice (i - 1) j else .empty)]

def byte : Library := fun s => do
  let b ← s.checkString 1
  let p ← s.optInt 2 1
  let i := firstPosition p b.size
  let j := lastPosition (← s.optInt 3 p) b.size
  if i > j then return []
  return (b.slice (i - 1) j).data.toList.map fun c => .ofNat c.toNat

def char : Library := fun s => do
  let cs ← (List.range s.arguments.length).mapM fun i => do
    let c := (← s.checkInt (i + 1)).toInt
    unless 0 ≤ c && c ≤ 255 do s.argumentFault (i + 1) "value out of range"
    return c.toNat.toUInt8
  return [.str (Bytes.ofList cs)]

def len : Library := fun s => do return [.ofNat (← s.checkString 1).size]

def lower : Library := fun s => do return [.str ((← s.checkString 1).map Bytes.toLower)]

def upper : Library := fun s => do return [.str ((← s.checkString 1).map Bytes.toUpper)]

def reverse : Library := fun s => do return [.str (← s.checkString 1).reverse]

/-- The size beyond which no string is made. -/
def maxSize : Nat := 2147483648

def rep : Library := fun s => do
  let b ← s.checkString 1
  let n := (← s.checkInt 2).toInt
  let sep ← s.optString 3 .empty
  if n ≤ 0 then return [.text ""]
  let total := (b.size + sep.size) * n.toNat
  if int64Limit ≤ total then raiseText "resulting string too large"
  checkSize total
  if total > maxSize then throw .memory
  return [.str (Bytes.repeated b sep n.toNat)]

def dump : Library := fun s => do
  match ← s.checkFunction 1 with
  | .ref (.closure id) =>
    match (← getHeap).closure? id with
    | some c => return [.str (if (s.arg 2).truthy then c.code.stripped else c.code).dump]
    | none => raiseText "unable to dump given function"
  | _ => raiseText "unable to dump given function"

/-! ### Patterns -/

def captured : Pattern.Captured → Value
  | .text b => .str b
  | .position n => .ofNat n

/-- The result of matching, of which a fault in the pattern is an error. -/
def matched (r : Except String α) : M α :=
  match r with
  | .ok a => return a
  | .error m => raiseText m

def isAnchored (pat : Bytes) : Bool := pat.at0 0 == 94 && pat.size > 0

/-- Looks for a pattern; `finding` also gives where it was found. -/
def findOrMatch (finding : Bool) : Library := fun s => do
  let src ← s.checkString 1
  let pat ← s.checkString 2
  let start := firstPosition (← s.optInt 3 1) src.size - 1
  if start > src.size then return [.nil]
  if finding && ((s.arg 4).truthy || Pattern.isPlain pat) then
    match src.indexOf? pat start with
    | some i => return [.ofNat (i + 1), .ofNat (i + pat.size)]
    | none => return [.nil]
  let anchored := isAnchored pat
  let found ← matched <|
    Pattern.search src pat (if anchored then 1 else 0) anchored (src.size + 2) start
  match found with
  | none => return [.nil]
  | some (i, e, caps) =>
    if finding then
      let cs ← if caps.isEmpty then pure [] else matched (Pattern.captures src caps i e)
      return .ofNat (i + 1) :: .ofNat e :: cs.map captured
    else return (← matched (Pattern.captures src caps i e)).map captured

def gmatch : Library := fun s => do
  let src ← s.checkString 1
  let pat ← s.checkString 2
  let start := firstPosition (← s.optInt 3 1) src.size - 1
  let id ← make (·.newMatcher ⟨src, pat, min start (src.size + 1), none⟩)
  return [.native (.gmatchStep id)]

/-- The first match from a position on that does not end where the one before it did. -/
def nextMatch (m : Matcher) : Nat → Nat → Except String (Option (Nat × Nat × Pattern.Captures))
  | 0, _ => .ok none
  | fuel + 1, i => do
    if i > m.subject.size then return none
    match ← Pattern.matchAt m.subject m.pattern 0 i with
    | some (e, caps) => if m.lastEnd == some e then nextMatch m fuel (i + 1) else return some (i, e, caps)
    | none => nextMatch m fuel (i + 1)

def gmatchStep (id : Nat) : Library := fun _ => do
  match (← getHeap).matchers[id]? with
  | none => return []
  | some m =>
    match ← matched (nextMatch m (m.subject.size + 2) m.position) with
    | none =>
      modifyHeap fun h =>
        { h with matchers := h.matchers.modify id fun m => { m with position := m.subject.size + 1 } }
      return []
    | some (i, e, caps) =>
      modifyHeap fun h =>
        { h with matchers := h.matchers.modify id fun m => { m with position := e, lastEnd := some e } }
      return (← matched (Pattern.captures m.subject caps i e)).map captured

/-- The text that a replacement text stands for. -/
def expand (src : Bytes) (caps : Pattern.Captures) (start stop : Nat) :
    List UInt8 → Bytes → Except String Bytes
  | [], acc => .ok acc
  | 37 :: 37 :: rest, acc => expand src caps start stop rest (acc.push 37)
  | 37 :: c :: rest, acc =>
    if c == 48 then expand src caps start stop rest (acc ++ src.extract start stop)
    else if Bytes.isDigit c then
      match Pattern.capture src caps start stop (c.toNat - 49) with
      | .ok (.text b) => expand src caps start stop rest (acc ++ b)
      | .ok (.position n) => expand src caps start stop rest (acc ++ Bytes.ofString (toString n))
      | .error m =>
        .error (if m.startsWith "invalid capture" then m ++ " in replacement string" else m)
    else .error "invalid use of '%' in replacement string"
  | [37], _ => .error "invalid use of '%' in replacement string"
  | c :: rest, acc => expand src caps start stop rest (acc.push c)

/-- What takes the place of a match; the match itself if that is nil or false. -/
def replacement (s : Site) (src : Bytes) (caps : Pattern.Captures) (start stop : Nat) : M Bytes := do
  let whole := src.extract start stop
  let chosen (v : Value) : M Bytes := do
    if !v.truthy then return whole
    match stringOf? v with
    | some b => return b
    | none => raiseHere (Bytes.ofString s!"invalid replacement value (a {v.typeName})")
  match s.arg 3 with
  | .ref (.table id) =>
    let k ← matched (Pattern.capture src caps start stop 0)
    chosen (← s.index (.table id) (captured k))
  | f =>
    if Heap.isFunction f then
      let cs ← matched (Pattern.captures src caps start stop)
      chosen (← s.call1 f (cs.map captured))
    else
      match stringOf? f with
      | some r => matched (expand src caps start stop r.data.toList .empty)
      | none => return whole

/-- The replacement loop: the position, the end of the latest match, the count and the text
made so far. -/
def replaceFrom (s : Site) (src pat : Bytes) (anchored : Bool) (limit : Int) :
    Nat → Nat → Option Nat → Nat → Bytes → M (Bytes × Nat)
  | 0, _, _, n, acc => return (acc, n)
  | fuel + 1, i, lastEnd, n, acc => do
    let rest : M (Bytes × Nat) := return (acc ++ src.extract i src.size, n)
    if (n : Int) ≥ limit then rest
    else
      let found ← matched (Pattern.matchAt src pat (if anchored then 1 else 0) i)
      match found.filter fun m => lastEnd != some m.1 with
      | some (e, caps) =>
        let acc := acc ++ (← replacement s src caps i e)
        if anchored then return (acc ++ src.extract e src.size, n + 1)
        else replaceFrom s src pat anchored limit fuel e (some e) (n + 1) acc
      | none =>
        if i < src.size && !anchored then
          replaceFrom s src pat anchored limit fuel (i + 1) lastEnd n (acc.push (src.at0 i))
        else rest

def gsub : Library := fun s => do
  let src ← s.checkString 1
  let pat ← s.checkString 2
  let isFit := match s.arg 3 with
    | .int _ => true
    | .float _ => true
    | .str _ => true
    | .ref (.table _) => true
    | v => Heap.isFunction v
  unless isFit do s.typeError 3 "string/function/table"
  let limit ← s.optInt 4 (src.size + 1)
  let (b, n) ← replaceFrom s src pat (isAnchored pat) limit (2 * src.size + 3) 0 none 0 .empty
  return [.str b, .ofNat n]

/-! ### Formatting -/

def isFlag (c : UInt8) : Bool := c == 45 || c == 43 || c == 32 || c == 35 || c == 48

/-- A conversion specification without its `%`: flags, width and precision, as they stand in
the text, then the letter. -/
structure Conversion where
  flags : List UInt8
  width : List UInt8
  precision : Option (List UInt8)
  letter : UInt8
  /-- The whole, as it stands in the text. -/
  spelling : List UInt8

/-- Splits a specification; at most two digits make a width or a precision. -/
def Conversion.read (spelling : List UInt8) (letter : UInt8) : Option Conversion :=
  let flags := spelling.takeWhile isFlag
  let rest := spelling.drop flags.length
  let width := (rest.takeWhile Bytes.isDigit).take 2
  match rest.drop width.length with
  | [] => some ⟨flags, width, none, letter, spelling ++ [letter]⟩
  | 46 :: rest =>
    let precision := (rest.takeWhile Bytes.isDigit).take 2
    if (rest.drop precision.length).isEmpty then
      some ⟨flags, width, some precision, letter, spelling ++ [letter]⟩
    else none
  | _ => none

def Conversion.spec (c : Conversion) : Printf.Spec :=
  { minus := c.flags.contains 45
    plus := c.flags.contains 43
    space := c.flags.contains 32
    alternate := c.flags.contains 35
    zero := c.flags.contains 48
    width := Numeral.valueIn 10 c.width
    precision := c.precision.map (Numeral.valueIn 10) }

/-- Fills bytes with blanks to the width. -/
def Conversion.fill (c : Conversion) (b : Bytes) : Bytes :=
  let n := Numeral.valueIn 10 c.width - b.size
  let blanks := Bytes.ofList (List.replicate n 32)
  if c.flags.contains 45 then b ++ blanks else blanks ++ b

def badConversion (spelling : List UInt8) : M α :=
  raiseHere (Bytes.ofString "invalid conversion '%" ++ Bytes.ofList spelling
    ++ Bytes.ofString "' to 'format'")

/-- Reads a specification whose flags must be among the given ones. -/
def checked (spelling : List UInt8) (letter : UInt8) (flags : String) (withPrecision : Bool) :
    M Conversion := do
  match Conversion.read spelling letter with
  | some c =>
    if c.flags.all (fun f => (Bytes.ofString flags).data.contains f)
      && (withPrecision || c.precision.isNone) then return c
    else badConversion (spelling ++ [letter])
  | none => badConversion (spelling ++ [letter])

/-- A string as a literal of the language. -/
def quotedFrom : List UInt8 → Bytes → Bytes
  | [], acc => acc.push 34
  | c :: rest, acc =>
    if c == 34 || c == 92 || c == 10 then quotedFrom rest ((acc.push 92).push c)
    else if Bytes.isControl c then
      let digits := toString c.toNat
      let digits :=
        if rest.head?.any Bytes.isDigit then
          String.ofList (List.replicate (3 - digits.length) '0') ++ digits
        else digits
      quotedFrom rest (acc.push 92 ++ Bytes.ofString digits)
    else quotedFrom rest (acc.push c)

/-- A scalar as a literal of the language. -/
def literal (s : Site) (i : Nat) : M Bytes := do
  match s.arg i with
  | .str b => return quotedFrom b.data.toList (Bytes.ofString "\"")
  | .int n =>
    return Bytes.ofString (if n.toInt == -int64Limit then "0x8000000000000000" else toString n.toInt)
  | .float x =>
    return Bytes.ofString <|
      if x.isNaN then "(0/0)"
      else if x.isInfinite then (if x.isNegative then "-1e9999" else "1e9999")
      else Printf.hexadecimal x
  | .nil => return Bytes.ofString "nil"
  | .bool b => return Bytes.ofString (if b then "true" else "false")
  | _ => s.argumentFault i "value has no literal form"

/-- One conversion of the argument `i`. -/
def convert (s : Site) (i : Nat) (spelling : List UInt8) (letter : UInt8) : M Bytes := do
  let signedFlags := "-+ 0"
  let hexFlags := "-#0"
  let doubleFlags := "-+ #0"
  match letter with
  | 99 =>
    let c ← checked spelling letter "-" false
    let n := (← s.checkInt i).toUInt64.toUInt8
    return c.fill (Bytes.ofList [n])
  | 115 =>
    let b ← s.toText (s.arg i)
    if spelling.isEmpty then return b
    if (b.find? (· == 0) 0).isSome then s.argumentFault i "string contains zeros"
    let c ← checked spelling letter "-" true
    match c.precision with
    | none => return if b.size ≥ 100 then b else c.fill b
    | some p => return c.fill (b.slice 0 (min b.size (Numeral.valueIn 10 p)))
  | 113 =>
    unless spelling.isEmpty do raiseText "specifier '%q' cannot have modifiers"
    literal s i
  | 112 =>
    let c ← checked spelling letter "-" false
    match s.arg i with
    | .ref r => return c.fill (Bytes.ofString r.address)
    | .str _ => return c.fill (Bytes.ofString "0x55d0bfff0000")
    | _ => return c.fill (Bytes.ofString "(null)")
  | l =>
    if l == 100 || l == 105 then
      let n ← s.checkInt i
      let c ← checked spelling letter signedFlags true
      return Bytes.ofString (c.spec.integer n.toInt)
    else if l == 117 then
      let n ← s.checkInt i
      let c ← checked spelling letter "-0" true
      return Bytes.ofString (c.spec.unsigned 10 false n.toUInt64.toNat)
    else if l == 111 || l == 120 || l == 88 then
      let n ← s.checkInt i
      let c ← checked spelling letter hexFlags true
      return Bytes.ofString (c.spec.unsigned (if l == 111 then 8 else 16) (l == 88) n.toUInt64.toNat)
    else if l == 97 || l == 65 then
      let c ← checked spelling letter doubleFlags true
      let x ← s.checkDouble i
      return Bytes.ofString (c.spec.double (Char.ofNat l.toNat) x)
    else if l == 102 || l == 101 || l == 69 || l == 103 || l == 71 then
      let x ← s.checkDouble i
      let c ← checked spelling letter doubleFlags true
      return Bytes.ofString (c.spec.double (Char.ofNat l.toNat) x)
    else badConversion (spelling ++ if l == 0 then [] else [l])

/-- Goes through a format; `i` is the argument used last. -/
def formatFrom (s : Site) : Nat → List UInt8 → Nat → Bytes → M Bytes
  | 0, _, _, acc => return acc
  | fuel + 1, cs, i, acc => do
    match cs with
    | [] => return acc
    | 37 :: 37 :: rest => formatFrom s fuel rest i (acc.push 37)
    | 37 :: rest =>
      let spelling := rest.takeWhile fun c => isFlag c || Bytes.isDigit c || c == 46
      if spelling.length + 1 ≥ 22 then raiseText "invalid format string to 'format'"
      if (s.arg? (i + 1)).isNone then s.argumentFault (i + 1) "no value"
      let letter := (rest.drop spelling.length).headD 0
      let b ← convert s (i + 1) spelling letter
      formatFrom s fuel (rest.drop (spelling.length + 1)) (i + 1) (acc ++ b)
    | c :: rest => formatFrom s fuel rest i (acc.push c)

def format : Library := fun s => do
  let f ← s.checkString 1
  return [.str (← formatFrom s (f.size + 1) f.data.toList 1 .empty)]

/-! ### Arithmetic on numerals -/

def StringArith.op : StringArith → ArithOp
  | .add => .add
  | .sub => .sub
  | .mul => .mul
  | .mod => .mod
  | .pow => .pow
  | .div => .div
  | .idiv => .idiv
  | .unm => .sub

/-- Arithmetic on strings that are numerals; otherwise the second operand's own operator. -/
def arith (op : StringArith) : Library := fun s => do
  match numberOf? (s.arg 1), numberOf? (s.arg 2) with
  | some a, some b =>
    let r ← match op with
      | .unm => pure ((negate? a).getD .nil)
      | op => s.resolve ((← getHeap).arith (StringArith.op op) a b)
    return [r]
  | _, _ =>
    let b := s.arg 2
    let refuse : M (List Value) :=
      raiseText s!"attempt to {op.name} a '{(s.arg 1).typeName}' with a '{b.typeName}'"
    match b with
    | .str _ => refuse
    | b =>
      match (← getHeap).metamethod b ("__" ++ op.name) with
      | .nil => refuse
      | f => s.call f [s.arg 1, b]

/-! ### Packing -/

/-- How a number or string is laid out in bytes. -/
inductive Field where
  | int (size : Nat) (signed : Bool)
  | float
  | double
  /-- A string of a fixed size. -/
  | fixed (size : Nat)
  /-- A string after its size. -/
  | counted (size : Nat)
  | zeroEnded
  | pad
  | align
  | none
  deriving DecidableEq, Inhabited

structure Layout where
  little : Bool := true
  maxAlign : Nat := 1

/-- The digits that come next, as a number. -/
def readSize (cs : List UInt8) (default : Nat) : Nat × List UInt8 :=
  let ds := cs.takeWhile Bytes.isDigit
  if ds.isEmpty then (default, cs) else (Numeral.valueIn 10 ds, cs.drop ds.length)

/-- One option of a format, with the layout after it. -/
def readOption (l : Layout) (c : UInt8) (cs : List UInt8) :
    Except String (Field × Layout × List UInt8) :=
  let sized (default : Nat) (k : Nat → Field) : Except String (Field × Layout × List UInt8) :=
    let (n, rest) := readSize cs default
    if n < 1 || n > 16 then .error s!"integral size ({n}) out of limits [1,16]"
    else .ok (k n, l, rest)
  match Char.ofNat c.toNat with
  | 'b' => .ok (.int 1 true, l, cs)
  | 'B' => .ok (.int 1 false, l, cs)
  | 'h' => .ok (.int 2 true, l, cs)
  | 'H' => .ok (.int 2 false, l, cs)
  | 'l' => .ok (.int 8 true, l, cs)
  | 'L' => .ok (.int 8 false, l, cs)
  | 'j' => .ok (.int 8 true, l, cs)
  | 'J' => .ok (.int 8 false, l, cs)
  | 'T' => .ok (.int 8 false, l, cs)
  | 'f' => .ok (.float, l, cs)
  | 'd' => .ok (.double, l, cs)
  | 'n' => .ok (.double, l, cs)
  | 'i' => sized 4 fun n => .int n true
  | 'I' => sized 4 fun n => .int n false
  | 's' => sized 8 .counted
  | 'c' =>
    let ds := cs.takeWhile Bytes.isDigit
    if ds.isEmpty then .error "missing size for format option 'c'"
    else .ok (.fixed (Numeral.valueIn 10 ds), l, cs.drop ds.length)
  | 'z' => .ok (.zeroEnded, l, cs)
  | 'x' => .ok (.pad, l, cs)
  | 'X' => .ok (.align, l, cs)
  | ' ' => .ok (.none, l, cs)
  | '<' => .ok (.none, { l with little := true }, cs)
  | '>' => .ok (.none, { l with little := false }, cs)
  | '=' => .ok (.none, { l with little := true }, cs)
  | '!' =>
    let (n, rest) := readSize cs 8
    if n < 1 || n > 16 then .error s!"integral size ({n}) out of limits [1,16]"
    else .ok (.none, { l with maxAlign := n }, rest)
  | c => .error s!"invalid format option '{c}'"

def Field.size : Field → Nat
  | int n _ => n
  | float => 4
  | double => 8
  | fixed n => n
  | counted n => n
  | pad => 1
  | _ => 0

/-- The natural alignment of a field; zero when it has none. -/
def Field.alignment : Field → Nat
  | int n _ => n
  | float => 4
  | double => 8
  | counted n => n
  | _ => 0

/-- The bytes of padding before a field. -/
def padding (l : Layout) (alignment offset : Nat) : Except String Nat :=
  let a := min alignment l.maxAlign
  if a ≤ 1 then .ok 0
  else if Nat.pow 2 a.log2 != a then .error "format asks for alignment not power of 2"
  else .ok ((a - offset % a) % a)

/-- The next field of a format, with the padding before it. -/
def nextField (l : Layout) (cs : List UInt8) (offset : Nat) :
    Except String (Option (Field × Nat × Layout × List UInt8)) := do
  match cs with
  | [] => return Option.none
  | c :: rest =>
    let (f, l, rest) ← readOption l c rest
    match f with
    | .align =>
      match rest with
      | [] => throw "invalid next option for option 'X'"
      | d :: rest' =>
        let (g, _, rest'') ← readOption l d rest'
        if g.alignment == 0 then throw "invalid next option for option 'X'"
        return some (.none, ← padding l g.alignment offset, l, rest'')
    | f => return some (f, ← padding l f.alignment offset, l, rest)

def bytesOfNat (little : Bool) (size n : Nat) : List UInt8 :=
  let bs := (List.range size).map fun i => (n >>> (8 * i)).toUInt8
  if little then bs else bs.reverse

def natOfBytes (little : Bool) (bs : List UInt8) : Nat :=
  (if little then bs.reverse else bs).foldl (fun n b => n * 256 + b.toNat) 0

/-- The single-precision bits nearest to a double. -/
def singleBits (x : Binary64) : Nat := x.toFloat.toFloat32.toBits.toNat

def ofSingleBits (n : Nat) : Binary64 :=
  Binary64.ofResult (Float32.ofBits n.toUInt32).toFloat

def packFrom (s : Site) : Nat → Layout → List UInt8 → Nat → Bytes → M Bytes
  | 0, _, _, _, acc => return acc
  | fuel + 1, l, cs, i, acc => do
    match nextField l cs acc.size with
    | .error m => s.argumentFault 1 m
    | .ok none => return acc
    | .ok (some (f, pad, l, rest)) =>
      let acc := acc ++ Bytes.ofList (List.replicate pad 0)
      match f with
      | .int n signed =>
        let v := (← s.checkInt i).toInt
        if n < 8 then
          if signed then
            unless -(Nat.pow 2 (8 * n - 1) : Int) ≤ v && v < Nat.pow 2 (8 * n - 1) do s.argumentFault i "integer overflow"
          else unless 0 ≤ v && v < Nat.pow 2 (8 * n) do s.argumentFault i "unsigned overflow"
        packFrom s fuel l rest (i + 1) (acc ++ Bytes.ofList (bytesOfNat l.little n (v % Nat.pow 2 (8 * n)).toNat))
      | .float =>
        let x ← s.checkDouble i
        packFrom s fuel l rest (i + 1) (acc ++ Bytes.ofList (bytesOfNat l.little 4 (singleBits x)))
      | .double =>
        let x ← s.checkDouble i
        packFrom s fuel l rest (i + 1) (acc ++ Bytes.ofList (bytesOfNat l.little 8 x.bits.toNat))
      | .fixed n =>
        let b ← s.checkString i
        if b.size > n then s.argumentFault i "string longer than given size"
        packFrom s fuel l rest (i + 1) (acc ++ b ++ Bytes.ofList (List.replicate (n - b.size) 0))
      | .counted n =>
        let b ← s.checkString i
        unless n ≥ 8 || b.size < Nat.pow 2 (8 * n) do s.argumentFault i "string length does not fit in given size"
        packFrom s fuel l rest (i + 1) (acc ++ Bytes.ofList (bytesOfNat l.little n b.size) ++ b)
      | .zeroEnded =>
        let b ← s.checkString i
        if (b.find? (· == 0) 0).isSome then s.argumentFault i "string contains zeros"
        packFrom s fuel l rest (i + 1) ((acc ++ b).push 0)
      | .pad => packFrom s fuel l rest i (acc.push 0)
      | _ => packFrom s fuel l rest i acc

def pack : Library := fun s => do
  let f ← s.checkString 1
  return [.str (← packFrom s (f.size + 1) {} f.data.toList 2 .empty)]

def packsizeFrom (s : Site) : Nat → Layout → List UInt8 → Nat → M Nat
  | 0, _, _, n => return n
  | fuel + 1, l, cs, n => do
    match nextField l cs n with
    | .error m => s.argumentFault 1 m
    | .ok none => return n
    | .ok (some (f, pad, l, rest)) =>
      match f with
      | .counted _ => s.argumentFault 1 "variable-length format"
      | .zeroEnded => s.argumentFault 1 "variable-length format"
      | f => packsizeFrom s fuel l rest (n + pad + f.size)

def packsize : Library := fun s => do
  let f ← s.checkString 1
  return [.ofNat (← packsizeFrom s (f.size + 1) {} f.data.toList 0)]

def unpackFrom (s : Site) (b : Bytes) : Nat → Layout → List UInt8 → Nat → List Value → M (List Value)
  | 0, _, _, _, acc => return acc.reverse
  | fuel + 1, l, cs, pos, acc => do
    match nextField l cs pos with
    | .error m => s.argumentFault 1 m
    | .ok none => return (.ofNat (pos + 1) :: acc).reverse
    | .ok (some (f, pad, l, rest)) =>
      let start := pos + pad
      unless start + f.size ≤ b.size do s.argumentFault 2 "data string too short"
      let bs := (b.slice start (start + f.size)).data.toList
      match f with
      | .int n signed =>
        let v := natOfBytes l.little bs
        let v : Int := if signed && v ≥ Nat.pow 2 (8 * n - 1) then (v : Int) - Nat.pow 2 (8 * n) else v
        if n > 8 && !(-int64Limit ≤ v && v < word64Limit) then
          raiseText s!"{n}-byte integer does not fit into Lua Integer"
        unpackFrom s b fuel l rest (start + n) (.int (Int64.ofInt v) :: acc)
      | .float => unpackFrom s b fuel l rest (start + 4) (.float (ofSingleBits (natOfBytes l.little bs)) :: acc)
      | .double =>
        unpackFrom s b fuel l rest (start + 8) (.float ⟨(natOfBytes l.little bs).toUInt64⟩ :: acc)
      | .fixed n => unpackFrom s b fuel l rest (start + n) (.str (Bytes.ofList bs) :: acc)
      | .counted n =>
        let size := natOfBytes l.little bs
        unless start + n + size ≤ b.size do s.argumentFault 2 "data string too short"
        unpackFrom s b fuel l rest (start + n + size) (.str (b.slice (start + n) (start + n + size)) :: acc)
      | .zeroEnded =>
        match b.find? (· == 0) start with
        | some e => unpackFrom s b fuel l rest (e + 1) (.str (b.slice start e) :: acc)
        | none => s.argumentFault 2 "unfinished string for format 'z'"
      | .pad => unpackFrom s b fuel l rest (start + 1) acc
      | _ => unpackFrom s b fuel l rest start acc

def unpack : Library := fun s => do
  let f ← s.checkString 1
  let b ← s.checkString 2
  let pos := firstPosition (← s.optInt 3 1) b.size - 1
  unless pos ≤ b.size do s.argumentFault 3 "initial position out of string"
  unpackFrom s b (f.size + 1) {} f.data.toList pos []

/-- A function of the string library. -/
def run : StringFn → Library
  | .byte => byte
  | .char => char
  | .dump => dump
  | .find => findOrMatch true
  | .format => format
  | .gmatch => gmatch
  | .gsub => gsub
  | .len => len
  | .lower => lower
  | .matchPattern => findOrMatch false
  | .pack => pack
  | .packsize => packsize
  | .rep => rep
  | .reverse => reverse
  | .sub => sub
  | .unpack => unpack
  | .upper => upper

end LuaCapsule.Lua.Strings
