import LuaCapsule.Datum.Basic
import LuaCapsule.Lua.Operator
import LuaCapsule.Number.Printf

/-! Listings of heaps: one record for each object, with references to objects by their place
in the listing, counted from 1. A listing can be written as structured values and read back. -/

namespace LuaCapsule.Snapshot

open Lua

/-- A value in a listing. -/
inductive Reference where
  | nil
  | bool (b : Bool)
  | int (i : Int64)
  | float (x : Binary64)
  /-- A string that is text. -/
  | text (s : String)
  /-- A string that is no text. -/
  | bytes (b : Bytes)
  /-- An object, by its place. -/
  | object (place : Nat)
  deriving DecidableEq, Inhabited

/-- A captured variable of a function. -/
inductive Upvalue where
  | value (r : Reference)
  /-- The variable that was met before, as the given one of the function at a place. -/
  | join (owner index : Nat)
  deriving DecidableEq, Inhabited

/-- An object in a listing. -/
inductive Record where
  | table (path : Option String) (entries : List (Reference × Reference)) (metatable : Option Reference)
  /-- A library value, by its path. -/
  | native (path : String)
  | function (code : Bytes) (upvalues : List Upvalue)
  deriving DecidableEq, Inhabited

/-- The records of a heap, in the order of their places. -/
abbrev Listing := List Record

/-! ### Writing -/

/-- The spelling of a double: hexadecimal, so that no digit is lost. -/
def doubleText (x : Binary64) : String :=
  if x.isNaN then "nan"
  else if x.isInfinite then (if x.isNegative then "-inf" else "inf")
  else Printf.hexadecimal x

def hexText (b : Bytes) : String := b.toHex.latin1

/-- A value with the tag of its kind. -/
def tagged (tag : String) (v : Datum) : Datum := .mapping [(.text "t", .text tag), (.text "v", v)]

def Reference.toDatum : Reference → Datum
  | nil => .mapping [(.text "t", .text "nil")]
  | bool b => tagged "b" (.bool b)
  | int i => tagged "i" (.int i.toInt)
  | float x => tagged "f" (.text (doubleText x))
  | text s => tagged "s" (.text s)
  | bytes b => tagged "x" (.text (hexText b))
  | object n => tagged "r" (.int n)

def Upvalue.toDatum : Upvalue → Datum
  | value r => .mapping [(.text "value", r.toDatum)]
  | join owner index => .mapping [(.text "join", .list [.int owner, .int index])]

def entryDatum (e : Reference × Reference) : Datum := .list [e.1.toDatum, e.2.toDatum]

def Record.toDatum : Record → Datum
  | table path entries metatable =>
    .mapping ([(.text "kind", .text "table")]
      ++ (match path with | some p => [(.text "builtin", .text p)] | none => [])
      ++ [(.text "entries", .list (entries.map entryDatum))]
      ++ match metatable with | some r => [(.text "metatable", r.toDatum)] | none => [])
  | native path => .mapping [(.text "kind", .text "native"), (.text "builtin", .text path)]
  | function code upvalues =>
    .mapping [(.text "kind", .text "function"), (.text "code", .text (hexText code)),
      (.text "upvalues", .list (upvalues.map Upvalue.toDatum))]

def Listing.toDatum (l : Listing) : Datum := .list (l.map Record.toDatum)

/-! ### Reading -/

/-- The bytes that pairs of lower-case hexadecimal digits spell. -/
def unhexList : List Char → Option (List UInt8)
  | [] => some []
  | a :: b :: rest =>
    if isDigit a && isDigit b then
      (unhexList rest).map ((digitValue a * 16 + digitValue b).toUInt8 :: ·)
    else none
  | [_] => none
where
  isDigit (c : Char) : Bool := ('0' ≤ c && c ≤ '9') || ('a' ≤ c && c ≤ 'f')
  digitValue (c : Char) : Nat := if c ≤ '9' then c.toNat - 48 else c.toNat - 87

def unhex? (s : String) : Option Bytes := (unhexList s.toList).map Bytes.ofList

/-- The double that a spelling stands for. -/
def readDouble? (s : String) : Option Binary64 :=
  if s == "nan" then some .invalid
  else if s == "inf" then some .infinity
  else if s == "-inf" then some Binary64.infinity.neg
  else
    match Numeral.read? (Bytes.ofString s) with
    | some (.float x) => some x
    | _ => none

def readInt64? (i : Int) : Option Int64 :=
  if isInt64 i then some (Int64.ofInt i) else none

def field? (name : String) (d : Datum) : Option Datum :=
  match d with
  | .mapping entries => Datum.lookup (.text name) entries
  | _ => none

def Reference.ofDatum? (d : Datum) : Option Reference :=
  match field? "t" d, field? "v" d with
  | some (.text "nil"), none => some .nil
  | some (.text "b"), some (.bool b) => some (.bool b)
  | some (.text "i"), some (.int i) => (readInt64? i).map .int
  | some (.text "f"), some (.text s) => (readDouble? s).map .float
  | some (.text "s"), some (.text s) => some (.text s)
  | some (.text "x"), some (.text s) => (unhex? s).map .bytes
  | some (.text "r"), some (.int (.ofNat n)) => some (.object n)
  | _, _ => none

def Upvalue.ofDatum? (d : Datum) : Option Upvalue :=
  match field? "value" d, field? "join" d with
  | some r, none => (Reference.ofDatum? r).map .value
  | none, some (.list [.int (.ofNat owner), .int (.ofNat index)]) => some (.join owner index)
  | _, _ => none

def entryOfDatum? : Datum → Option (Reference × Reference)
  | .list [k, v] =>
    match Reference.ofDatum? k, Reference.ofDatum? v with
    | some k, some v => some (k, v)
    | _, _ => none
  | _ => none

def Record.ofDatum? (d : Datum) : Option Record :=
  match field? "kind" d, field? "builtin" d with
  | some (.text "table"), path =>
    let path : Option (Option String) :=
      match path with
      | none => some none
      | some (.text p) => some (some p)
      | some _ => none
    let metatable : Option (Option Reference) :=
      match field? "metatable" d with
      | none => some none
      | some r => (Reference.ofDatum? r).map some
    match path, field? "entries" d, metatable with
    | some path, some (.list entries), some metatable =>
      (entries.mapM entryOfDatum?).map fun entries => .table path entries metatable
    | _, _, _ => none
  | some (.text "native"), some (.text p) => some (.native p)
  | some (.text "function"), _ =>
    match field? "code" d, field? "upvalues" d with
    | some (.text code), some (.list upvalues) =>
      match unhex? code, upvalues.mapM Upvalue.ofDatum? with
      | some code, some upvalues => some (.function code upvalues)
      | _, _ => none
    | _, _ => none
  | _, _ => none

def Listing.ofDatum? : Datum → Option Listing
  | .list records => records.mapM Record.ofDatum?
  | _ => none

end LuaCapsule.Snapshot
