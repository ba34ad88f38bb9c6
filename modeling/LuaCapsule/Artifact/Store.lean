import LuaCapsule.Artifact.Canonical
import LuaCapsule.Context.Private
import LuaCapsule.Json.Reader
import LuaCapsule.Text.Encoding

/-! Stores of artifacts under their identities: one that holds the artifacts themselves, and
one that holds their JSON in a map of bytes and texts. What cannot be read there counts as
missing. -/

namespace LuaCapsule.Artifact

inductive Store where
  /-- Artifacts by identity. -/
  | memory (artifacts : List (Datum × Datum))
  /-- Any values by key, of which some are the JSON of artifacts. -/
  | keyed (values : List (Datum × Datum))
  deriving Inhabited

/-- The artifact in a stored text, which may nest as deep as it is long. A text cannot start with a
byte order mark. -/
def readText? (s : String) : Option Datum :=
  match Json.read? ⟨s.length⟩ s with
  | some (.mapping es) => some (.mapping es)
  | _ => none

/-- An operation on a store. What was written before a failure stays written. -/
abbrev StoreM := EStateM Fault Store

namespace Store

/-- The number of values in a store. -/
def size : Store → Nat
  | memory es => es.length
  | keyed es => es.length

/-- All values in a store. -/
def entries : Store → List (Datum × Datum)
  | memory es => es
  | keyed es => es

/-- Writes an artifact; gives its identity. -/
def write (artifact : Datum) : StoreM String := do
  let id ← MonadExcept.ofExcept (identity artifact)
  match ← get with
  | memory es =>
    let held ← MonadExcept.ofExcept (plain artifact)
    set (memory (Datum.insert (.text id) held es))
  | keyed es =>
    let text ← MonadExcept.ofExcept (canonical artifact)
    set (keyed (Datum.insert (.text (storeKey id)) (.bytes (Bytes.ofString text)) es))
  return id

/-- Reads the artifact of an identity. -/
def read? (s : Store) (id : String) : Except Fault (Option Datum) :=
  match s with
  | memory es =>
    match Datum.lookup (.text id) es with
    | some .null => .ok none
    | found => .ok found
  | keyed es =>
    match Datum.lookup (.text (storeKey id)) es with
    | none => .ok none
    | some .null => .ok none
    | some (.text s) => .ok (readText? s)
    | some (.bytes b) => .ok (b.detectText?.bind readText?)
    | some _ => .error .wrongType

/-- Writes artifacts one after the other. -/
def writeAll (artifacts : List Datum) : StoreM Unit := artifacts.forM fun artifact => discard (write artifact)

end Store

end LuaCapsule.Artifact
