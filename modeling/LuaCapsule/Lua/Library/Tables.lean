import LuaCapsule.Lua.Library.Arguments

/-! The table library. It works on tables, and on any object whose metatable makes it one. -/

namespace LuaCapsule.Lua.Tables

/-- An argument that can be read, written or measured as the metamethods named ask. -/
def checkList (s : Site) (i : Nat) (events : List String) : M Value := do
  match s.arg i with
  | .ref (.table id) => return .table id
  | v =>
    let h ← getHeap
    if (h.metatable? v).isSome && events.all (fun e => h.metamethod v e != .nil) then return v
    else s.typeError i "table"

def reading : List String := ["__index"]

def measured : List String := ["__index", "__len"]

def writing : List String := ["__index", "__newindex", "__len"]

def item (s : Site) (t : Value) (i : Int) : M Value := s.index t (.int (Int64.ofInt i))

def setItem (s : Site) (t : Value) (i : Int) (v : Value) : M Unit := s.store t (.int (Int64.ofInt i)) v

/-- Joins the items from `i` on, of which `n` are left. -/
def concatFrom (s : Site) (t : Value) (sep : Bytes) : Nat → Int → Bytes → M Bytes
  | 0, _, acc => return acc
  | n + 1, i, acc => do
    let v ← item s t i
    match stringOf? v with
    | some b => concatFrom s t sep n (i + 1) (acc ++ b ++ if n == 0 then .empty else sep)
    | none => raiseText s!"invalid value ({v.typeName}) at index {i} in table for 'concat'"

def concat : Library := fun s => do
  let t ← checkList s 1 measured
  let last ← s.length t
  let sep ← s.optString 2 .empty
  let i ← s.optInt 3 1
  let last ← s.optInt 4 last
  return [.str (← concatFrom s t sep (last - i + 1).toNat i .empty)]

/-- Moves the items before `i` that are not below `stop` up by one place, last one first. -/
def shiftUp (s : Site) (t : Value) (stop : Int) : Nat → Int → M Unit
  | 0, _ => return
  | n + 1, i => do
    if i > stop then
      setItem s t i (← item s t (i - 1))
      shiftUp s t stop n (i - 1)

def insert : Library := fun s => do
  let t ← checkList s 1 writing
  let e := (← s.length t) + 1
  match s.arguments.length with
  | 2 =>
    setItem s t e (s.arg 2)
    return []
  | 3 =>
    let pos := (← s.checkInt 2).toInt
    unless 1 ≤ pos && pos ≤ e do s.argumentFault 2 "position out of bounds"
    shiftUp s t pos (e - pos).toNat e
    setItem s t pos (s.arg 3)
    return []
  | _ => raiseText "wrong number of arguments to 'insert'"

/-- Moves the items after `i` down by one place, up to the last one. -/
def shiftDown (s : Site) (t : Value) : Nat → Int → M Int
  | 0, i => return i
  | n + 1, i => do
    setItem s t i (← item s t (i + 1))
    shiftDown s t n (i + 1)

def remove : Library := fun s => do
  let t ← checkList s 1 writing
  let size ← s.length t
  let pos ← s.optInt 2 size
  if pos != size then
    unless 1 ≤ pos && pos ≤ size + 1 do s.argumentFault 2 "position out of bounds"
  let v ← item s t pos
  let last ← shiftDown s t (size - pos).toNat pos
  setItem s t last .nil
  return [v]

/-- Copies `n` items, from below or from above. -/
def copyItems (s : Site) (a b : Value) (f t : Int) (upward : Bool) : Nat → Nat → M Unit
  | 0, _ => return
  | n + 1, i => do
    let k : Int := if upward then i else n
    setItem s b (t + k) (← item s a (f + k))
    copyItems s a b f t upward n (i + 1)

def move : Library := fun s => do
  let f := (← s.checkInt 2).toInt
  let e := (← s.checkInt 3).toInt
  let t := (← s.checkInt 4).toInt
  let target := if s.isAbsent 5 then 1 else 5
  let a ← checkList s 1 reading
  let b ← checkList s target ["__newindex"]
  if e ≥ f then
    unless f > 0 || e < int64Limit - 1 + f do s.argumentFault 3 "too many elements to move"
    let n := (e - f + 1).toNat
    unless t ≤ int64Limit - 1 - (n : Int) + 1 do s.argumentFault 4 "destination wrap around"
    let upward := t > e || t ≤ f || (target == 5 && a != b)
    copyItems s a b f t upward n 0
  return [b]

def pack : Library := fun s => do
  let n := s.arguments.length
  let items := s.arguments.zipIdx 1
  let t := items.foldl (fun t (v, i) => t.set (.int (Int64.ofNat i)) v) (Table.withRoom n 1)
  return [.table (← newTable (t.set (.text "n") (.ofNat n)))]

/-- The number of results beyond which there is no room. -/
def maxResults : Int := 999900

def itemsFrom (s : Site) (t : Value) : Nat → Int → List Value → M (List Value)
  | 0, _, acc => return acc.reverse
  | n + 1, i, acc => do itemsFrom s t n (i + 1) ((← item s t i) :: acc)

def unpack : Library := fun s => do
  let i ← s.optInt 2 1
  let e ← if s.isAbsent 3 then s.length (s.arg 1) else do pure (← s.checkInt 3).toInt
  if i > e then return []
  if e - i ≥ maxResults then raiseText "too many results to unpack"
  itemsFrom s (s.arg 1) (e - i + 1).toNat i []

/-! ### Sorting -/

/-- Does one value come before another? -/
def before (s : Site) (a b : Value) : M Bool := do
  match s.arg 2 with
  | .nil => s.lessThan a b
  | f => return (← s.call1 f [a, b]).truthy

def badOrder : M α := raiseText "invalid order function for sorting"

/-- The first item from `i` on that does not come before the pivot. -/
def scanUp (s : Site) (t pivot : Value) (stop : Int) : Nat → Int → M (Int × Value)
  | 0, _ => badOrder
  | fuel + 1, i => do
    let v ← item s t i
    if ← before s v pivot then
      if i == stop then badOrder else scanUp s t pivot stop fuel (i + 1)
    else return (i, v)

/-- The first item from `j` downward that the pivot does not come before. -/
def scanDown (s : Site) (t pivot : Value) (stop : Int) : Nat → Int → M (Int × Value)
  | 0, _ => badOrder
  | fuel + 1, j => do
    let v ← item s t j
    if ← before s pivot v then
      if j < stop then badOrder else scanDown s t pivot stop fuel (j - 1)
    else return (j, v)

/-- Divides the items between `i` and `j` by the pivot, which stands just below the last one;
the result is the pivot's place. -/
def partition (s : Site) (t pivot : Value) (size : Nat) (up : Int) : Nat → Int → Int → M Int
  | 0, _, _ => badOrder
  | fuel + 1, i, j => do
    let (i, vi) ← scanUp s t pivot (up - 1) (size + 2) (i + 1)
    let (j, vj) ← scanDown s t pivot i (size + 2) (j - 1)
    if j < i then
      setItem s t (up - 1) vi
      setItem s t i pivot
      return i
    setItem s t i vj
    setItem s t j vi
    partition s t pivot size up fuel i j

/-- Sorts the items from `lo` to `up`. -/
def sortRange (s : Site) (t : Value) : Nat → Int → Int → M Unit
  | 0, _, _ => return
  | fuel + 1, lo, up => do
    if lo ≥ up then return
    let a ← item s t lo
    let b ← item s t up
    if ← before s b a then
      setItem s t lo b
      setItem s t up a
    if up - lo == 1 then return
    let p := (lo + up) / 2
    let mid ← item s t p
    let low ← item s t lo
    if ← before s mid low then
      setItem s t p low
      setItem s t lo mid
    else
      let high ← item s t up
      if ← before s high mid then
        setItem s t p high
        setItem s t up mid
    if up - lo == 2 then return
    let pivot ← item s t p
    let other ← item s t (up - 1)
    setItem s t p other
    setItem s t (up - 1) pivot
    let p ← partition s t pivot (up - lo).toNat up ((up - lo).toNat + 2) lo (up - 1)
    if p - lo < up - p then
      sortRange s t fuel lo (p - 1)
      sortRange s t fuel (p + 1) up
    else
      sortRange s t fuel (p + 1) up
      sortRange s t fuel lo (p - 1)

def sort : Library := fun s => do
  let t ← checkList s 1 writing
  let n ← s.length t
  if n > 1 then
    unless n < 2147483647 do s.argumentFault 1 "array too big"
    unless s.isAbsent 2 do
      let _ ← s.checkFunction 2
    sortRange s t n.toNat 1 n
  return []

/-- A function of the table library. -/
def run : TableFn → Library
  | .concat => concat
  | .insert => insert
  | .move => move
  | .pack => pack
  | .remove => remove
  | .sort => sort
  | .unpack => unpack

end LuaCapsule.Lua.Tables
