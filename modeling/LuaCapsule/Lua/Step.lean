import LuaCapsule.Lua.Access

/-! Single operations of a running function. An operation changes the function and the heap, or
comes down to a call, a return or a fault; what becomes of those is the machine's affair. -/

namespace LuaCapsule.Lua

/-- Values cut or filled up with nil to a number of them. -/
def fit (vs : List Value) : Nat → List Value
  | 0 => []
  | n + 1 => vs.headD .nil :: fit vs.tail n

@[simp] theorem length_fit (vs : List Value) (n : Nat) : (fit vs n).length = n := by
  induction n generalizing vs with
  | zero => rfl
  | succ n ih => simp [fit, ih]

@[simp] theorem fit_length (vs : List Value) : fit vs vs.length = vs := by
  induction vs with
  | nil => rfl
  | cons v vs ih => simp [fit, ih]

namespace Activation

/-! ### Registers -/

/-- The value of a register. -/
@[inline] def register (a : Activation) (h : Heap) (r : Nat) : Value :=
  match a.shared.lookup r with
  | some c => h.cell c
  | none => a.registers.getD r .nil

@[inline] def setRegister (a : Activation) (h : Heap) (r : Nat) (v : Value) : Activation × Heap :=
  match a.shared.lookup r with
  | some c => (a, h.setCell c v)
  | none => ({ a with registers := a.registers.setIfInBounds r v }, h)

/-- Sets consecutive registers. -/
def setRegisters (a : Activation) (h : Heap) (r : Nat) : List Value → Activation × Heap
  | [] => (a, h)
  | v :: vs =>
    let (a, h) := a.setRegister h r v
    a.setRegisters h (r + 1) vs

/-- The values of `n` consecutive registers. -/
def range (a : Activation) (h : Heap) (first n : Nat) : List Value :=
  (List.range' first n).map (a.register h)

/-- Values from a register on: so many, or all up to the last one held. -/
def taken (a : Activation) (h : Heap) (first : Nat) : Option Nat → List Value
  | some n => a.range h first n
  | none => a.range h first (a.heldAt - first) ++ a.held

@[inline] def source (a : Activation) (h : Heap) : Source → Value
  | .register r => a.register h r
  | .upvalue i => h.cell (a.upvalues.getD i h.cells.size)
  | .constant v => v

/-- How messages name an operand of the operation at hand. -/
def nameOf (a : Activation) (s : Source) : Origin := s.origin a.code.proto (a.pc - 1)

/-! ### Captured variables -/

/-- Registers with their cells, the highest register first. -/
def insertShared (r c : Nat) : List (Nat × Nat) → List (Nat × Nat)
  | [] => [(r, c)]
  | (s, d) :: rest => if s < r then (r, c) :: (s, d) :: rest else (s, d) :: insertShared r c rest

/-- The cell of a register, which is made when it is captured for the first time. -/
def share (a : Activation) (h : Heap) (r : Nat) : Nat × Activation × Heap :=
  match a.shared.lookup r with
  | some c => (c, a, h)
  | none =>
    let (c, h) := h.newCell (a.registers.getD r .nil)
    (c, { a with shared := insertShared r c a.shared }, h)

/-- The cells that a function captures when it is made. -/
def capture (a : Activation) (h : Heap) : List CaptureSource → Array Nat → Array Nat × Activation × Heap
  | [], cells => (cells, a, h)
  | s :: rest, cells =>
    if s.inRegister then
      let (c, a, h) := a.share h s.index.toNat
      a.capture h rest (cells.push c)
    else a.capture h rest (cells.push (a.upvalues.getD s.index.toNat h.cells.size))

/-- Gives registers from one on up for other variables. -/
def unshare (a : Activation) (r : Nat) : Activation :=
  { a with shared := a.shared.dropWhile (r ≤ ·.1) }

/-! ### Results -/

/-- A function with the results of the call that it waited for. -/
def receive (a : Activation) (h : Heap) (vs : List Value) : Activation × Heap :=
  match a.want with
  | .registers first n => a.setRegisters h first (fit vs n)
  | .hold first => ({ a with held := vs, heldAt := first }, h)
  | .test sense =>
    (if (vs.headD .nil).truthy == sense then a else { a with pc := a.pc + 1 }, h)
  | .join left => ({ a with joining := some (left ++ [vs.headD .nil]), pc := a.pc - 1 }, h)
  | .again => ({ a with pc := a.pc - 1 }, h)

end Activation

/-! ### Numeric loops -/

/-- A numeric loop about to run: its first value, and the count of further rounds or the
limit, as its hidden variables hold them. -/
inductive Loop where
  | skip
  | counting (first bound step : Value)
  | fault (message : Bytes)

def loopFault (h : Heap) (what : String) (v : Value) : Loop :=
  .fault (Bytes.ofString s!"bad 'for' {what} (number expected, got " ++ h.typeName v
    ++ Bytes.ofString ")")

/-- A loop over integers. -/
def intLoop (h : Heap) (first step : Int64) (limit : Value) : Loop :=
  let up := step > 0
  let count (limit : Int64) : Loop :=
    if (if up then first > limit else first < limit) then .skip
    else
      let n : Int :=
        if up then (limit.toInt - first.toInt) / step.toInt
        else (first.toInt - limit.toInt) / -step.toInt
      .counting (.int first) (.int (Int64.ofInt n)) (.int step)
  match numberOf? limit with
  | some (.int l) => count l
  | some (.float x) =>
    match if up then x.floorInt? else x.ceilInt? with
    | some i =>
      if i > Int64.maxValue.toInt then (if up then count Int64.maxValue else .skip)
      else if i < Int64.minValue.toInt then (if up then .skip else count Int64.minValue)
      else count (Int64.ofInt i)
    | none =>
      if Binary64.zero.lt x then (if up then count Int64.maxValue else .skip)
      else (if up then .skip else count Int64.minValue)
  | _ => loopFault h "limit" limit

/-- A loop over doubles. -/
def doubleLoop (first limit step : Binary64) : Loop :=
  if step.isZero then .fault (Bytes.ofString "'for' step is zero")
  else if (if Binary64.zero.lt step then limit.lt first else first.lt limit) then .skip
  else .counting (.float first) (.float limit) (.float step)

def Loop.prepare (h : Heap) (first limit step : Value) : Loop :=
  match first, step with
  | .int i, .int s =>
    if s == 0 then .fault (Bytes.ofString "'for' step is zero") else intLoop h i s limit
  | _, _ =>
    let double? (v : Value) : Option Binary64 := (numberOf? v).bind Value.double?
    match double? limit, double? step, double? first with
    | none, _, _ => loopFault h "limit" limit
    | _, none, _ => loopFault h "step" step
    | _, _, none => loopFault h "initial value" first
    | some l, some s, some i => doubleLoop i l s

/-- The next value of a loop, and what is left of its bound. -/
def Loop.next (value bound step : Value) : Option (Value × Value) :=
  match value, bound, step with
  | .int i, .int n, .int s => if n == 0 then none else some (.int (i + s), .int (n - 1))
  | .float x, .float l, .float s =>
    let x := x.add s
    if (if Binary64.zero.lt s then x.le l else l.le x) then some (.float x, bound) else none
  | _, _, _ => none

/-! ### Operations -/

/-- What an operation comes to. -/
inductive Effect where
  | go (a : Activation) (h : Heap)
  /-- It calls a function, directly or on behalf of an operator or a loop. -/
  | call (f : Value) (args : List Value) (direct : Bool) (a : Activation) (h : Heap)
  /-- It calls a function in place of itself. -/
  | replace (f : Value) (args : List Value) (a : Activation) (h : Heap)
  | ret (vs : List Value) (h : Heap)
  | fault (message : Bytes) (a : Activation) (h : Heap)
  | outOfMemory (a : Activation) (h : Heap)

namespace Effect

/-- Goes on with the results of an operation put where they are wanted. -/
def received (a : Activation) (h : Heap) (vs : List Value) : Effect :=
  let (a, h) := a.receive h vs
  go a h

@[inline] def goWith (r : Nat) (v : Value) (a : Activation) (h : Heap) : Effect :=
  let (a, h) := a.setRegister h r v
  go a h

/-- Goes on unless an object of so many bytes is beyond the cap. -/
def within (cap : Option Nat) (bytes : Nat) (e : Activation → Heap → Effect) (a : Activation)
    (h : Heap) : Effect :=
  match cap with
  | some cap => if bytes > cap then outOfMemory a h else e a h
  | none => e a h

/-- Fails with a complaint about an operand. -/
def complain (c : Complaint) (first second : Source) (a : Activation) (h : Heap) : Effect :=
  fault (c.message h (a.nameOf first) (a.nameOf second)) a h

/-- Goes on with the result of an operation, which a metamethod may have to give. -/
def settle (o : Outcome) (want : Want) (first second : Source) (a : Activation) (h : Heap) : Effect :=
  match o with
  | .value v => received { a with want } h [v]
  | .call f args => call f args false { a with want } h
  | .fault c => complain c first second a h

/-- Closes the latest variable that is marked to be closed, and comes back to the operation. -/
def closeFirst (v : Value) (rest : List (Nat × Value)) (a : Activation) (h : Heap) : Effect :=
  call (h.metamethod v "__close") [v, .nil] false { a with marked := rest, want := .again } h

/-- Joins values from the right, of which the last one is `v` and the first one is in a
register. -/
def joined (cap : Option Nat) (first : Nat) (a : Activation) (h : Heap) (v : Value) :
    List Value → Effect
  | [] => goWith first v { a with joining := none } h
  | x :: left =>
    let size : Nat := match x, v with
      | .str s, .str t => s.size + t.size
      | _, _ => 0
    if cap.any (size > ·) then outOfMemory a h
    else
      match h.concat x v with
      | .value w => joined cap first a h w left
      | .call f args =>
        call f args false { a with joining := none, want := .join left.reverse } h
      | .fault c =>
        complain c (.register (first + left.length)) (.register (first + left.length + 1)) a h

/-- Stores consecutive items in a table. -/
def storeItems (t : Table) (i : Nat) : List Value → Table
  | [] => t
  | v :: vs => storeItems (t.set (.int (Int64.ofNat i)) v) (i + 1) vs

/-- Marks a variable to be closed, if it has a value to be closed. -/
def mark (r : Nat) (e : Activation → Heap → Effect) (a : Activation) (h : Heap) : Effect :=
  let v := a.register h r
  if !v.truthy then e a h
  else if h.metamethod v "__close" == .nil then
    let name := (a.code.proto.variableName? r (a.pc - 1)).getD Prototype.unnamed
    fault (Bytes.ofString "variable '" ++ name ++ Bytes.ofString "' got a non-closable value") a h
  else e { a with marked := (r, v) :: a.marked } h

/-- A function that is made where it is written. -/
def makeClosure (dest : Nat) (code : Code) (a : Activation) (h : Heap) : Effect :=
  let (cells, a, h) := a.capture h code.proto.captures.toList #[]
  if sized : cells.size = code.proto.captures.size then
    let (id, h) := h.newClosure ⟨code, cells, sized⟩
    goWith dest (.closure id) a h
  else go a h

/-- A table of a given layout. Tables that were given up count for a quarter of what they
took. -/
def makeTable (cap : Option Nat) (dest items fields : Nat) (a : Activation) (h : Heap) : Effect :=
  within cap (h.tables.size * 14)
    (fun a h =>
      let (id, h) := h.newTable (Table.withRoom items fields)
      goWith dest (.table id) a h) a h

end Effect

/-- Moves a place by a distance of either sign. -/
def Activation.moved (a : Activation) (d : Int) : Activation := { a with pc := ((a.pc : Int) + d).toNat }

open Effect in
/-- Carries out an operation of a function whose place is already behind it. -/
def Operation.exec (cap : Option Nat) (h : Heap) (a : Activation) (op : Operation) : Effect :=
  match op with
  | .load dest s => goWith dest (a.source h s) a h
  | .loadOver dest v => goWith dest v { a with pc := a.pc + 1 } h
  | .loadNil first n =>
    let (a, h) := a.setRegisters h first (List.replicate n .nil)
    .go a h
  | .setUpvalue i r => .go a (h.setCell (a.upvalues.getD i h.cells.size) (a.register h r))
  | .index dest o k =>
    match h.index (a.source h o) (a.source h k) with
    | .value v => goWith dest v a h
    | r => settle r (.registers dest 1) o k a h
  | .setIndex o k v =>
    let value := a.source h v
    match h.store (a.source h o) (a.source h k) value with
    | .entry id key =>
      let h := h.rawSet id key value
      match cap with
      | none => .go a h
      | some cap => if (h.table id).bytes > cap then .outOfMemory a h else .go a h
    | .call f args => .call f args false { a with want := .nothing } h
    | .fault c => complain c o k a h
  | .newTable dest items fields => makeTable cap dest items fields a h
  | .method dest r key =>
    let o := a.register h r
    let k := a.source h key
    let (a, h) := a.setRegister h (dest + 1) o
    settle (h.index o k) (.registers dest 1) (.register r) key a h
  | .arith dest op l r =>
    match op.apply (a.source h l) (a.source h r) with
    | .ok (some v) => goWith dest v { a with pc := a.pc + 1 } h
    | .ok none => .go a h
    | .error f => .fault (Bytes.ofString f.message) a h
  | .fallback dest op l r =>
    settle (h.arith op (a.source h l) (a.source h r)) (.registers dest 1) l r a h
  | .unary dest op r =>
    settle (h.unary op (a.register h r)) (.registers dest 1) (.register r) (.register r) a h
  | .concat first n =>
    match (a.joining.getD (a.range h first n)).reverse with
    | [] => .go a h
    | v :: left => joined cap first a h v left
  | .close r =>
    match a.marked with
    | (m, v) :: rest => if r ≤ m then closeFirst v rest a h else .go (a.unshare r) h
    | [] => .go (a.unshare r) h
  | .markClose r => mark r .go a h
  | .jump d => .go (a.moved d) h
  | .compare op l r sense =>
    match (h.compare op (a.source h l) (a.source h r)).1 with
    | .value v => if v.truthy == sense then .go a h else .go { a with pc := a.pc + 1 } h
    | o => settle o (.test sense) l r a h
  | .test r sense =>
    if (a.register h r).truthy == sense then .go a h else .go { a with pc := a.pc + 1 } h
  | .testSet dest r sense =>
    let v := a.register h r
    if v.truthy == sense then goWith dest v a h else .go { a with pc := a.pc + 1 } h
  | .call base arguments results =>
    let want := match results with
      | some n => .registers base n
      | none => .hold base
    let args := a.taken h (base + 1) arguments
    .call (a.register h base) args true { a with want, held := [] } h
  | .tailCall base arguments =>
    let args := a.taken h (base + 1) arguments
    .replace (a.register h base) args { a with want := .hold base, held := [] } h
  | .ret first n =>
    match a.marked with
    | (_, v) :: rest => closeFirst v rest a h
    | [] => .ret (a.taken h first n) h
  | .forLoop base back =>
    match Loop.next (a.register h base) (a.register h (base + 1)) (a.register h (base + 2)) with
    | none => .go a h
    | some (v, bound) =>
      let (a, h) := a.setRegister h base v
      let (a, h) := a.setRegister h (base + 1) bound
      goWith (base + 3) v (a.moved (-(back : Int))) h
  | .forPrep base forth =>
    match Loop.prepare h (a.register h base) (a.register h (base + 1)) (a.register h (base + 2)) with
    | .skip => .go (a.moved (forth + 1 : Nat)) h
    | .counting v bound step =>
      let (a, h) := a.setRegisters h base [v, bound, step, v]
      .go a h
    | .fault m => .fault m a h
  | .iteratorPrep base forth => mark (base + 3) (fun a h => .go (a.moved forth) h) a h
  | .iteratorCall base n =>
    .call (a.register h base) (a.range h (base + 1) 2) false { a with want := .registers (base + 4) n } h
  | .iteratorLoop base back =>
    match a.register h (base + 4) with
    | .nil => .go a h
    | v => goWith (base + 2) v (a.moved (-(back : Int))) h
  | .setItems t n before =>
    let vs := a.taken h (t + 1) n
    match a.register h t with
    | .ref (.table id) =>
      .go { a with held := [] }
        (h.modifyTable id fun t => storeItems (t.grow (before + vs.length)) (before + 1) vs)
    | _ => .go a h
  | .closure dest f =>
    match a.code.inner? f with
    | some code => makeClosure dest code a h
    | none => .go a h
  | .vararg dest n =>
    match n with
    | some n =>
      let (a, h) := a.setRegisters h dest (fit a.extra n)
      .go a h
    | none => .go { a with held := a.extra, heldAt := dest } h
  | .nothing => .go a h

end LuaCapsule.Lua
