import LuaCapsule.Artifact.Store
import LuaCapsule.Context.Path

/-! The program of a context: that of a stored artifact if the context names one, or else the
one that the context carries. -/

namespace LuaCapsule.Script

/-- A program as text. -/
def asText : Datum → Except Fault String
  | .bytes b =>
    match b.toText? with
    | some s => .ok s
    | none => .error .undecodable
  | d => .ok d.display

/-- Can a program be taken from data of this kind? Numbers and truth values have no length. -/
def hasLength : Datum → Bool
  | .bool _ => false
  | .int _ => false
  | .float _ => false
  | .host .set => true
  | .host _ => false
  | .live _ => false
  | _ => true

/-- The program of the artifact with an identity. -/
def read (id : String) (store : Option Artifact.Store) : Except Fault String := do
  match store with
  | none => throw (.scriptNotFound id "no content store configured")
  | some store =>
    match ← store.read? id with
    | none => throw (.scriptNotFound id "not_found")
    | some artifact =>
      match Path.field? "data" artifact with
      | none => throw (.scriptNotFound id "artifact has no data")
      | some .null => throw (.scriptNotFound id "artifact has no data")
      | some data => if hasLength data then asText data else throw .wrongType

/-- A field that is present and not null. -/
def present? (name : String) (d : Datum) : Option Datum :=
  (Path.field? name d).filter fun v => !v.isNull

/-- The program of a context. -/
def find (context : Datum) (store : Option Artifact.Store) : Except Fault String := do
  let shared ← Private.publicView context
  match present? "script-id" shared with
  | some id => read id.display store
  | none =>
    match present? "script" shared with
    | some script => asText script
    | none => throw .missingScript

end LuaCapsule.Script
