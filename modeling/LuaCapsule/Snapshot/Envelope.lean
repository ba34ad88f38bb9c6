import LuaCapsule.Datum.Whole
import LuaCapsule.Json.Reader
import LuaCapsule.Json.Writer
import LuaCapsule.Snapshot.Capture
import LuaCapsule.Snapshot.Rebuild
import LuaCapsule.Snapshot.Unchecked
import LuaCapsule.Snapshot.Walk

/-! Snapshots as bytes: a mark, then the listing of a heap in canonical JSON, in an envelope
that names the format, its version and the version of the language. Equal heaps have equal
snapshots. -/

namespace LuaCapsule.Snapshot

open Lua

/-- What every snapshot starts with. -/
def mark : Bytes := Bytes.ofString "LUASNAP\n"

def formatName : String := "lua-heap"

def formatVersion : Int := 1

/-- A listing with what is said about it. -/
structure Envelope where
  engine : String
  root : Int
  heap : List Datum

namespace Envelope

def toDatum (e : Envelope) : Datum :=
  .mapping [(.text "format", .text formatName), (.text "version", .int formatVersion),
    (.text "engine", .text e.engine), (.text "root", .int e.root), (.text "heap", .list e.heap)]

/-! ### Reading -/

/-- One error unless a field that may be missing has a value it may have. -/
def checkOptional (fields : List (Datum × Datum)) (name : String) (ok : Datum → Bool) : Nat :=
  match Datum.lookup (.text name) fields with
  | none => 0
  | some d => if ok d then 0 else 1

def isFormat (d : Datum) : Bool := d.sameKey (.text formatName)

def isVersion (d : Datum) : Bool := d.sameKey (.int formatVersion)

def text? (d : Option Datum) : Option String := d.bind Datum.asText?

def whole? (d : Option Datum) : Option Int :=
  d.bind fun d =>
    match Whole.ofDatum d with
    | .ok i => some i
    | .error _ => none

def isMapping : Datum → Bool
  | .mapping _ => true
  | _ => false

/-- The records, or the number of errors in them. -/
def records : Option Datum → Except Nat (List Datum)
  | some (.list items) =>
    match items.countP fun d => !isMapping d with
    | 0 => .ok items
    | n => .error n
  | _ => .error 1

/-- The envelope that a value is, or the number of errors in it. -/
def ofDatum : Datum → Except Nat Envelope
  | .mapping fields =>
    let wrong := checkOptional fields "format" isFormat + checkOptional fields "version" isVersion
    let engine := text? (Datum.lookup (.text "engine") fields)
    let root := whole? (Datum.lookup (.text "root") fields)
    let missing := (if engine.isNone then 1 else 0) + (if root.isNone then 1 else 0)
    match records (Datum.lookup (.text "heap") fields), engine, root, wrong with
    | .ok heap, some engine, some root, 0 => .ok ⟨engine, root, heap⟩
    | .ok _, _, _, _ => .error (wrong + missing)
    | .error n, _, _, _ => .error (wrong + missing + n)
  | _ => .error 1

end Envelope

/-! ### Numbers -/

mutual

/-- Do all integers in a value fit in 64 bits? -/
def fits : Datum → Bool
  | .int i => isInt64 i
  | .list items => fitsAll items
  | .mapping entries => fitsEntries entries
  | _ => true

def fitsAll : List Datum → Bool
  | [] => true
  | d :: rest => fits d && fitsAll rest

def fitsEntries : List (Datum × Datum) → Bool
  | [] => true
  | (_, d) :: rest => fits d && fitsEntries rest

end

/-! ### Writing -/

/-- The result of a run in which a failure is one of a snapshot. -/
def orFail (done : Except Failure α) : VmM α :=
  match done with
  | .ok a => return a
  | .error f =>
    match Vm.failureText f with
    | .ok s => throw (.snapshot (Vm.reverseTrace s))
    | .error f => throw f

/-- The listing of an interpreter's heap by the operations of the language. -/
def externalizeByWalk : VmM Datum := do
  let done ← Vm.run do
    let handler ← Vm.traceHandler
    Machine.asHost handler do
      let heap ← Walk.listing
      Machine.deliver [heap] (← get).frames
  Codec.decode Codec.maxDepth ((← orFail done).headD .nil)

/-- The listing of an interpreter's heap, as a structured value. Places are 64-bit integers. -/
def externalize : VmM Datum := do
  let h ← Vm.getHeap
  if Walk.isIdle h then
    match capture h with
    | .ok l =>
      let records := l.map Record.toDatum
      if fitsAll records then return .list records else throw .outOfMemory
    | .error e => throw (.snapshot e.message)
  else externalizeByWalk

/-- The place of the global table in every listing. -/
def rootPlace : Int := 1

/-- The bytes of an envelope, if it has a JSON form. -/
def write? (e : Envelope) : Option Bytes :=
  (Json.write? false e.toDatum).map fun s => mark ++ Bytes.ofString s

/-- The snapshot of an interpreter. -/
def dumps : VmM Bytes := do
  match Envelope.records (some (← externalize)) with
  | .error _ => throw .invalid
  | .ok heap =>
    match write? ⟨Vm.version, rootPlace, heap⟩ with
    | some b => return b
    | none => throw .wrongType

/-! ### Reading -/

/-- How deep the values of a snapshot may nest. -/
def limits : Json.Limits := ⟨200⟩

/-- The envelope that bytes hold after the mark. -/
def readEnvelope (b : Bytes) : Except Nat Envelope :=
  match b.toText? with
  | none => .error 1
  | some s =>
    match Json.read? limits s with
    | none => .error 1
    | some d => Envelope.ofDatum d

/-- Rebuilds a heap from records that are not a listing in order. -/
def internalizeUnchecked (root : Int) (records : List Datum) : VmM Unit := do
  let heap ← Codec.encode (.list records)
  let root ← Codec.encode (.int root)
  let done ← Vm.run do
    let handler ← Vm.traceHandler
    Machine.asHost handler do
      Unchecked.rebuild root heap
      Machine.deliver [] (← get).frames
  let _ ← orFail done

/-- Rebuilds a heap from records, in a fresh interpreter. -/
def internalize (root : Int) (records : List Datum) (vm : Vm) : Except Fault Vm :=
  if !(fitsAll records && fits (.int root)) then .error .overflow
  else
    match (records.mapM Record.ofDatum?).bind (rebuild? vm.heap root.toNat) with
    | some h => .ok { vm with heap := h }
    | none =>
      match internalizeUnchecked root records vm with
      | .ok _ vm => .ok vm
      | .error f _ => .error f

/-- The bytes that a value holds as a snapshot. -/
def bytesOf? : Datum → Option Bytes
  | .bytes b => some b
  | .text s => some (Bytes.ofString s)
  | _ => none

/-- The interpreter of a snapshot. -/
def loads (blob : Datum) (memory : Option Int) : Except Fault Vm :=
  match bytesOf? blob with
  | none => .error (.snapshot "not a Lua state snapshot")
  | some b =>
    if !b.startsWith mark then .error (.snapshot "not a Lua state snapshot")
    else
      match readEnvelope (b.slice mark.size b.size) with
      | .error n => .error (.snapshot s!"malformed snapshot: {n} error(s)")
      | .ok e => do
        let vm ← Vm.fresh memory
        if e.engine != Vm.version then
          throw (.snapshot ("snapshot taken with " ++ (Datum.text e.engine).literal
            ++ ", runtime is " ++ (Datum.text Vm.version).literal))
        internalize e.root e.heap vm

end LuaCapsule.Snapshot
