import LuaCapsule.Number.Binary64
import LuaCapsule.Text.Bytes

/-! Structured values: scalars, lists, tuples and mappings, and the two kinds of leaves that
have no structure, host objects and live interpreters. A mapping keeps its entries in order
of insertion; two keys are one when they are equal as numbers or equal as data. -/

namespace LuaCapsule

/-- The host objects that can stand where a structured value is expected. -/
inductive HostObject where
  | object
  | set
  | function
  deriving DecidableEq, Repr, Inhabited

/-- A structured value. -/
inductive Datum where
  | null
  | bool (b : Bool)
  | int (i : Int)
  | float (x : Binary64)
  | text (s : String)
  | bytes (b : Bytes)
  | list (items : List Datum)
  | tuple (items : List Datum)
  | mapping (entries : List (Datum × Datum))
  | host (o : HostObject)
  /-- A live interpreter, by its number among those in use. -/
  | live (handle : Nat)
  deriving Inhabited

namespace Datum

/-- A number as an integer or a double; truth values count as zero and one. -/
def numeric? : Datum → Option (Int ⊕ Binary64)
  | bool b => some (.inl (if b then 1 else 0))
  | int i => some (.inl i)
  | float x => some (match x.toInt? with | some i => .inl i | none => .inr x)
  | _ => none

mutual

/-- Equality of keys: numbers by value, whatever their kind, and all else by structure. -/
def sameKey : Datum → Datum → Bool
  | .null, .null => true
  | .text a, .text b => a == b
  | .bytes a, .bytes b => a == b
  | .tuple as, .tuple bs => sameKeys as bs
  | .list as, .list bs => sameKeys as bs
  | .host a, .host b => a == b
  | .live a, .live b => a == b
  | a, b =>
    match numeric? a, numeric? b with
    | some (.inl i), some (.inl j) => i == j
    | some (.inr x), some (.inr y) => x.bits == y.bits
    | _, _ => false

def sameKeys : List Datum → List Datum → Bool
  | [], [] => true
  | a :: as, b :: bs => sameKey a b && sameKeys as bs
  | _, _ => false

end

/-- The value under a key in a list of entries. -/
def lookup (key : Datum) : List (Datum × Datum) → Option Datum
  | [] => none
  | (k, v) :: rest => if sameKey k key then some v else lookup key rest

/-- Entries with a key set: a present key keeps its place. -/
def insert (key value : Datum) : List (Datum × Datum) → List (Datum × Datum)
  | [] => [(key, value)]
  | (k, v) :: rest => if sameKey k key then (k, value) :: rest else (k, v) :: insert key value rest

/-- Entries without a key. -/
def erase (key : Datum) (entries : List (Datum × Datum)) : List (Datum × Datum) :=
  entries.filter fun e => !sameKey e.1 key

/-- Entries of one list, then those of another set over them. -/
def insertAll (entries later : List (Datum × Datum)) : List (Datum × Datum) :=
  later.foldl (fun acc e => insert e.1 e.2 acc) entries

/-- A mapping from pairs in order, of which a repeated key keeps its first place and its
last value. -/
def ofPairs (pairs : List (Datum × Datum)) : Datum := mapping (insertAll [] pairs)

def isNull : Datum → Bool
  | null => true
  | _ => false

def asText? : Datum → Option String
  | text s => some s
  | _ => none

/-- Does a value count as true? Zero and what is empty does not. -/
def truthy : Datum → Bool
  | null => false
  | bool b => b
  | int i => i != 0
  | float x => !x.isZero
  | text s => s != ""
  | bytes b => b.size != 0
  | list items => !items.isEmpty
  | tuple items => !items.isEmpty
  | mapping entries => !entries.isEmpty
  | host o => o != .set
  | live _ => true

/-- The name of the kind of a value. -/
def typeName : Datum → String
  | null => "NoneType"
  | bool _ => "bool"
  | int _ => "int"
  | float _ => "float"
  | text _ => "str"
  | bytes _ => "bytes"
  | list _ => "list"
  | tuple _ => "tuple"
  | mapping _ => "dict"
  | host .object => "object"
  | host .set => "set"
  | host .function => "builtin_function_or_method"
  | live _ => "LuaVM"

end Datum

end LuaCapsule
