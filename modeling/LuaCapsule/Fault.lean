import LuaCapsule.Datum.Display

/-! Why an operation fails. The faults of the device have a status and a message, and render
to a mapping; the others come from values that an operation cannot work with at all. -/

namespace LuaCapsule

/-- The cause of a fault of the device. -/
inductive Cause where
  | plain (message : Datum)
  | missingScript
  | scriptNotFound (id storeError : Datum)
  | init (detail : Datum)
  | compute (function body details : Datum)
  | decode (kind detail : Datum)
  | encode (kind : Datum)
  | notInitialized
  | snapshotNotFound (path : Datum)
  | snapshot (detail : Datum)
  deriving Inhabited

/-- The parts of a sequence of texts, with slashes between them. -/
def joinPath? (path : Datum) : Option String :=
  let join (items : List Datum) : Option String :=
    (items.mapM Datum.asText?).map (String.intercalate "/")
  match path with
  | .list items => join items
  | .tuple items => join items
  | .mapping entries => join (entries.map (·.1))
  | .text s => some (String.intercalate "/" (s.toList.map fun c => c.toString))
  | .bytes b => if b.size == 0 then some "" else none
  | .host .set => some ""
  | _ => none

namespace Cause

/-- The status of a fault that was not given one. -/
def status : Cause → Int
  | missingScript => 400
  | scriptNotFound .. => 404
  | encode _ => 400
  | notInitialized => 400
  | snapshotNotFound _ => 404
  | _ => 500

def message : Cause → String
  | plain m => m.display
  | missingScript => "missing-script-id-or-script"
  | scriptNotFound id _ => s!"Lua script '" ++ id.display ++ "' not available."
  | init detail => "Lua state initialisation failed: " ++ detail.display
  | compute f body _ => "Lua function " ++ f.literal ++ " failed: " ++ body.display
  | decode kind detail =>
    "Cannot decode Lua " ++ kind.display ++ " value"
      ++ if detail.truthy then ": " ++ detail.display else ""
  | encode kind => "Cannot encode Python " ++ kind.display ++ " value for Lua"
  | notInitialized => "Cannot snapshot Lua state: state not initialized."
  | snapshotNotFound path =>
    "No Lua state snapshot found at " ++ (Datum.text ((joinPath? path).getD "")).literal
  | snapshot detail => "Lua state snapshot failed: " ++ detail.display

end Cause

/-- A fault of the device. -/
structure DeviceFault where
  cause : Cause
  status : Datum
  deriving Inhabited

namespace DeviceFault

def message (f : DeviceFault) : String := f.cause.message

/-- The fault as a mapping. -/
def render (f : DeviceFault) : Datum :=
  match f.cause with
  | .compute _ body details =>
    .mapping [(.text "status", f.status), (.text "body", body), (.text "details", details)]
  | .scriptNotFound _ storeError =>
    .mapping ([(.text "status", f.status), (.text "body", .text f.message)]
      ++ if storeError.truthy then [(.text "cache-error", storeError)] else [])
  | _ => .mapping [(.text "status", f.status), (.text "body", .text f.message)]

end DeviceFault

/-- Why an operation fails. -/
inductive Fault where
  | device (f : DeviceFault)
  /-- An integer beyond 64 bits was given to an interpreter. -/
  | overflow
  /-- Bytes that are no text stand where text is needed. -/
  | undecodable
  /-- An integer has too many digits to be written. -/
  | tooLong
  /-- A value has the wrong type. -/
  | wrongType
  /-- A value lacks an operation. -/
  | noAttribute
  /-- A sequence has no such item. -/
  | badIndex
  /-- A value does not have the fields it should have. -/
  | invalid
  /-- The interpreter failed outside of any call of the device. -/
  | engine (message : String)
  | outOfMemory
  deriving Inhabited

namespace Fault

/-- A fault of the device with the status of its cause. -/
def of (c : Cause) : Fault := device ⟨c, .int c.status⟩

def missingScript : Fault := of .missingScript

def scriptNotFound (id storeError : String) : Fault := of (.scriptNotFound (.text id) (.text storeError))

def init (detail : String) : Fault := of (.init (.text detail))

def compute (function : String) (body : Datum) (details : Datum) : Fault :=
  of (.compute (.text function) body details)

def decode (kind detail : String) : Fault := of (.decode (.text kind) (.text detail))

/-- Is it that a value has no structured form? -/
def isDecode : Fault → Bool
  | .device ⟨.decode _ _, _⟩ => true
  | _ => false

def encode (kind : String) : Fault := of (.encode (.text kind))

def snapshotNotFound (path : List String) : Fault := of (.snapshotNotFound (.list (path.map .text)))

def snapshot (detail : String) : Fault := of (.snapshot (.text detail))

end Fault

/-! ### Faults from arguments -/

/-- The kinds of faults that can be made from arguments. -/
inductive FaultClass where
  | plain | missingScript | scriptNotFound | init | compute | decode | encode | notInitialized
  | snapshotNotFound | snapshot
  deriving DecidableEq, Repr, Inhabited

/-- A parameter: its name, what stands for it when it is missing, and whether it is given by
name only. -/
structure Parameter where
  name : String
  default : Option Datum
  isNamed : Bool

namespace FaultClass

def parameters : FaultClass → List Parameter
  | plain => [⟨"message", none, false⟩, ⟨"status", some .null, true⟩]
  | missingScript => []
  | scriptNotFound => [⟨"script_id", none, false⟩, ⟨"store_error", some (.text ""), false⟩]
  | init => [⟨"detail", none, false⟩]
  | compute =>
    [⟨"function", none, false⟩, ⟨"body", none, false⟩, ⟨"details", some .null, true⟩,
      ⟨"status", some (.int 500), true⟩]
  | decode => [⟨"lua_type", none, false⟩, ⟨"detail", some (.text ""), false⟩]
  | encode => [⟨"python_type", none, false⟩]
  | notInitialized => []
  | snapshotNotFound => [⟨"path", none, false⟩]
  | snapshot => [⟨"detail", none, false⟩]

end FaultClass

/-- The values of parameters, from positional and named arguments. -/
def bindArguments (ps : List Parameter) (args : List Datum) (named : List (Datum × Datum)) :
    Option (List Datum) :=
  let known := named.all fun (k, _) => ps.any fun p => k.sameKey (.text p.name)
  if !known then none
  else
    let rec go : List Parameter → List Datum → Option (List Datum)
      | [], [] => some []
      | [], _ :: _ => none
      | p :: ps, args =>
        let given := Datum.lookup (.text p.name) named
        match p.isNamed, args, given with
        | false, a :: args, none => (go ps args).map (a :: ·)
        | false, _ :: _, some _ => none
        | _, args, some v => (go ps args).map (v :: ·)
        | _, args, none =>
          match p.default with
          | some d => (go ps args).map (d :: ·)
          | none => none
    go ps args

namespace FaultClass

/-- The fault of a class that arguments describe. -/
def build (c : FaultClass) (args : List Datum) (named : List (Datum × Datum)) :
    Except Fault DeviceFault := do
  let plainly (cause : Cause) : DeviceFault := ⟨cause, .int cause.status⟩
  let withStatus (cause : Cause) (status : Datum) : DeviceFault :=
    if status.isNull then plainly cause else ⟨cause, status⟩
  match bindArguments c.parameters args named with
  | none => throw .wrongType
  | some vs =>
    match c, vs with
    | plain, [m, status] => return withStatus (.plain m) status
    | missingScript, _ => return plainly .missingScript
    | scriptNotFound, [id, e] => return plainly (.scriptNotFound id e)
    | init, [d] => return plainly (.init d)
    | compute, [f, body, details, status] => return withStatus (.compute f body details) status
    | decode, [kind, detail] => return plainly (.decode kind detail)
    | encode, [kind] => return plainly (.encode kind)
    | notInitialized, _ => return plainly .notInitialized
    | snapshotNotFound, [path] =>
      if (joinPath? path).isSome then return plainly (.snapshotNotFound path) else throw .wrongType
    | snapshot, [d] => return plainly (.snapshot d)
    | _, _ => throw .wrongType

end FaultClass

end LuaCapsule
