import LuaCapsule.Lua.Heap
import LuaCapsule.Lua.Operator

/-! Operations that metamethods can override. Each one either has a result at once, or comes
down to a call, or fails with a complaint about one of its operands. -/

namespace LuaCapsule.Lua

/-- The operand that an operation complains about. -/
inductive Culprit where
  | first
  | second
  /-- A value that is no operand itself. -/
  | other
  deriving DecidableEq, Inhabited

/-- Why an operation fails. -/
inductive Complaint where
  /-- The operation cannot be done on a value. -/
  | operand (action : String) (v : Value) (culprit : Culprit)
  /-- A number that should denote an integer does not. -/
  | noInteger (culprit : Culprit)
  | order (a b : Value)
  | text (message : String)
  deriving Inhabited

/-- What an operation comes down to. -/
inductive Outcome where
  | value (v : Value)
  | call (f : Value) (args : List Value)
  | fault (c : Complaint)
  deriving Inhabited

namespace Complaint

/-- The message; operands are named by their origins. -/
def message (h : Heap) (first second : Origin) (c : Complaint) : Bytes :=
  let origin : Culprit → Origin
    | .first => first
    | .second => second
    | .other => .unknown
  match c with
  | operand action v culprit =>
    Bytes.ofString s!"attempt to {action} a " ++ h.typeName v ++ Bytes.ofString " value"
      ++ (origin culprit).describe
  | noInteger culprit =>
    Bytes.ofString "number" ++ (origin culprit).describe
      ++ Bytes.ofString " has no integer representation"
  | order a b =>
    let s := h.typeName a
    let t := h.typeName b
    if s == t then
      Bytes.ofString "attempt to compare two " ++ s ++ Bytes.ofString " values"
    else Bytes.ofString "attempt to compare " ++ s ++ Bytes.ofString " with " ++ t
  | text m => Bytes.ofString m

end Complaint

namespace Heap

/-- How far a chain of metatables is followed. -/
def maxChain : Nat := 2000

def isFunction : Value → Bool
  | .ref (.closure _) => true
  | .ref (.native _) => true
  | _ => false

/-- The value under a key, from an object that is reached after some steps of a chain. -/
def indexFrom (h : Heap) (k : Value) : Nat → Culprit → Value → Outcome
  | 0, _, _ => .fault (.text "'__index' chain too long; possibly a loop")
  | fuel + 1, culprit, o =>
    let viaMetatable (missing : Outcome) : Outcome :=
      match h.metamethod o "__index" with
      | .nil => missing
      | m => if isFunction m then .call m [o, k] else indexFrom h k fuel .other m
    match o with
    | .ref (.table id) =>
      match h.rawGet id k with
      | .nil => viaMetatable (.value .nil)
      | v => .value v
    | _ => viaMetatable (.fault (.operand "index" o culprit))

/-- The value under a key. -/
def index (h : Heap) (o k : Value) : Outcome := h.indexFrom k maxChain .first o

/-- What storing a value comes down to. -/
inductive Storing where
  /-- The value goes under a key of a table. -/
  | entry (id : Nat) (k : Key)
  | call (f : Value) (args : List Value)
  | fault (c : Complaint)

/-- Storing under a key of a table, without metamethods. -/
def storeRaw (id : Nat) (k : Value) : Storing :=
  match Key.ofValue? k, k with
  | some key, _ => .entry id key
  | none, .nil => .fault (.text "table index is nil")
  | none, _ => .fault (.text "table index is NaN")

/-- Storing under a key of an object that is reached after some steps of a chain. -/
def storeFrom (h : Heap) (k v : Value) : Nat → Culprit → Value → Storing
  | 0, _, _ => .fault (.text "'__newindex' chain too long; possibly a loop")
  | fuel + 1, culprit, o =>
    let viaMetatable (missing : Storing) : Storing :=
      match h.metamethod o "__newindex" with
      | .nil => missing
      | m => if isFunction m then .call m [o, k, v] else storeFrom h k v fuel .other m
    match o with
    | .ref (.table id) =>
      match h.rawGet id k with
      | .nil => viaMetatable (storeRaw id k)
      | _ => storeRaw id k
    | _ => viaMetatable (.fault (.operand "index" o culprit))

/-- Storing a value under a key. -/
def store (h : Heap) (o k v : Value) : Storing := h.storeFrom k v maxChain .first o

/-- The metamethod of the first operand, or else of the second. -/
def binaryMetamethod (h : Heap) (a b : Value) (event : String) : Value :=
  match h.metamethod a event with
  | .nil => h.metamethod b event
  | m => m

/-- The operand that is no number. -/
def notNumber (a b : Value) : Value × Culprit :=
  if a.isNumber then (b, .second) else (a, .first)

/-- Arithmetic. -/
def arith (h : Heap) (op : ArithOp) (a b : Value) : Outcome :=
  match op.apply a b with
  | .ok (some v) => .value v
  | .error f => .fault (.text f.message)
  | .ok none =>
    match h.binaryMetamethod a b op.event with
    | .nil =>
      if op.isBitwise then
        if a.isNumber && b.isNumber then
          .fault (.noInteger (if a.integer?.isNone then .first else .second))
        else
          let (v, c) := notNumber a b
          .fault (.operand "perform bitwise operation on" v c)
      else
        let (v, c) := notNumber a b
        .fault (.operand "perform arithmetic on" v c)
    | m => .call m [a, b]

/-- Joining two values as text. -/
def concat (h : Heap) (a b : Value) : Outcome :=
  match join? a b with
  | some v => .value v
  | none =>
    match h.binaryMetamethod a b "__concat" with
    | .nil =>
      let (v, c) := if (stringOf? a).isSome then (b, Culprit.second) else (a, Culprit.first)
      .fault (.operand "concatenate" v c)
    | m => .call m [a, b]

def unary (h : Heap) (op : UnaryOp) (a : Value) : Outcome :=
  match op with
  | .not => .value (.bool (!a.truthy))
  | .neg =>
    match negate? a with
    | some v => .value v
    | none =>
      match h.metamethod a "__unm" with
      | .nil => .fault (.operand "perform arithmetic on" a .first)
      | m => .call m [a, a]
  | .bnot =>
    match complement? a with
    | some v => .value v
    | none =>
      match h.metamethod a "__bnot" with
      | .nil =>
        if a.isNumber then .fault (.noInteger .first)
        else .fault (.operand "perform bitwise operation on" a .first)
      | m => .call m [a, a]
  | .len =>
    match a with
    | .str s => .value (.ofNat s.size)
    | a =>
      match h.metamethod a "__len", a with
      | .nil, .ref (.table id) => .value (.ofNat (h.table id).length)
      | .nil, _ => .fault (.operand "get length of" a .first)
      | m, _ => .call m [a, a]

/-- Equality; only tables have metamethods for it. -/
def equal (h : Heap) (a b : Value) : Outcome :=
  if Value.rawEq a b then .value (.bool true)
  else
    match a, b with
    | .ref (.table _), .ref (.table _) =>
      match h.binaryMetamethod a b "__eq" with
      | .nil => .value (.bool false)
      | m => .call m [a, b]
    | .ref (.handle _), .ref (.handle _) =>
      match h.binaryMetamethod a b "__eq" with
      | .nil => .value (.bool false)
      | m => .call m [a, b]
    | _, _ => .value (.bool false)

theorem equal_self (h : Heap) (t : Nat) : h.equal (.table t) (.table t) = .value (.bool true) :=
  if_pos (beq_self_eq_true (Ref.table t))

theorem equal_of_silent {h : Heap} {t u : Nat} (other : t ≠ u) (silent : h.binaryMetamethod (.table t) (.table u) "__eq" = .nil) :
    h.equal (.table t) (.table u) = .value (.bool false) := by
  have apart : Value.rawEq (.table t) (.table u) = false := beq_false_of_ne fun same => other (Ref.table.inj same)
  rw [equal, apart, if_neg Bool.false_ne_true, silent]

/-- Order, strict or not. -/
def ordered (h : Heap) (strict : Bool) (a b : Value) : Outcome :=
  match if strict then lessThan? a b else lessEqual? a b with
  | some r => .value (.bool r)
  | none =>
    match h.binaryMetamethod a b (if strict then "__lt" else "__le") with
    | .nil => .fault (.order a b)
    | m => .call m [a, b]

/-- A comparison, and whether its result has to be negated. -/
def compare (h : Heap) (op : CompareOp) (a b : Value) : Outcome × Bool :=
  match op with
  | .eq => (h.equal a b, false)
  | .ne => (h.equal a b, true)
  | .lt => (h.ordered true a b, false)
  | .le => (h.ordered false a b, false)
  | .gt => (h.ordered true b a, false)
  | .ge => (h.ordered false b a, false)

end Heap

end LuaCapsule.Lua
