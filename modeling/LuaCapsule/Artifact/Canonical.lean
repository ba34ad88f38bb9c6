import LuaCapsule.Datum.Display
import LuaCapsule.Fault
import LuaCapsule.Hash.Sha256
import LuaCapsule.Json.Writer
import LuaCapsule.Text.Base64Url

/-! The canonical form of an artifact and the identity that it gives: equal artifacts have one
identity, whatever the order of their fields. -/

namespace LuaCapsule.Artifact

/-- The text of a key. -/
def keyText (k : Datum) : Except Fault String := if k.holdsLong then .error .tooLong else .ok k.display

mutual

/-- A value as JSON can hold it: bytes as text, and all keys as texts. -/
def plain : Datum → Except Fault Datum
  | .bytes b =>
    match b.toText? with
    | some s => .ok (.text s)
    | none => .error .undecodable
  | .mapping entries => (plainEntries entries).map Datum.ofPairs
  | .list items => (plainItems items).map .list
  | .tuple items => (plainItems items).map .list
  | d => .ok d

def plainItems : List Datum → Except Fault (List Datum)
  | [] => .ok []
  | d :: rest => do return (← plain d) :: (← plainItems rest)

def plainEntries : List (Datum × Datum) → Except Fault (List (Datum × Datum))
  | [] => .ok []
  | (k, d) :: rest => do return (.text (← keyText k), ← plain d) :: (← plainEntries rest)

end

mutual

/-- Why a plain value cannot be written: the first integer in it that is too long, or the first
value without a JSON form. -/
def refusal? : Datum → Option Fault
  | .null => none
  | .bool _ => none
  | .int i => if isLong i then some .tooLong else none
  | .float _ => none
  | .text _ => none
  | .list items => anyRefusal? items
  | .tuple items => anyRefusal? items
  | .mapping entries => ((refusals entries).mergeSort fun a b => Json.textLe a.1 b.1).findSome? (·.2)
  | _ => some .wrongType

def anyRefusal? : List Datum → Option Fault
  | [] => none
  | d :: rest => (refusal? d).or (anyRefusal? rest)

/-- Why the values of some entries cannot be written, by the texts of their keys. -/
def refusals : List (Datum × Datum) → List (String × Option Fault)
  | [] => []
  | (.text k, d) :: rest => (k, refusal? d) :: refusals rest
  | _ :: rest => ("", some .wrongType) :: refusals rest

end

/-- The JSON text of a plain value, in ASCII with sorted keys. -/
def written (d : Datum) : Except Fault String :=
  match refusal? d with
  | some f => .error f
  | none =>
    match Json.write? true d with
    | some s => .ok s
    | none => .error .wrongType

/-- The canonical form of an artifact. -/
def canonical (artifact : Datum) : Except Fault String := do written (← plain artifact)

/-- The identity of an artifact: the digest of its canonical form. -/
def identity (artifact : Datum) : Except Fault String :=
  (canonical artifact).map fun s => Base64Url.encode (Sha256.digest (Bytes.ofString s))

/-- The key under which an artifact is kept in a map of many things. -/
def storeKey (id : String) : String := "artifact:" ++ id

end LuaCapsule.Artifact
