import LuaCapsule.Datum.Whole

/-! The settings of a device. They are read from named values and from the environment, where
each has the name of its field after a common beginning, in letters of any case; a named value
goes before the environment, and an unknown name is ignored. -/

namespace LuaCapsule

structure Settings where
  /-- The most memory that an interpreter may use, if there is a limit. -/
  maxMemory : Option Int
  /-- How deep the tables of a result may nest. -/
  maxDecodeDepth : Int
  /-- The private key of the live interpreter. -/
  stateKey : String
  /-- The public key of stored snapshots. -/
  snapshotKey : String
  deriving DecidableEq, Repr, Inhabited

namespace Settings

/-- The settings when nothing else is said. -/
def standard : Settings := ⟨none, 64, "state", "snapshot"⟩

/-- The beginning of the names in the environment. -/
def environmentPrefix : String := "lua_device_"

/-- Why a field cannot have a value. -/
inductive Invalid where
  | notWhole (r : Whole.Refusal)
  | tooSmall
  | notText
  | notUnicode
  deriving DecidableEq, Repr, Inhabited

def Invalid.code : Invalid → String
  | notWhole r => r.code
  | tooSmall => "greater_than_equal"
  | notText => "string_type"
  | notUnicode => "string_unicode"

/-- A whole number from 1 on. -/
def positive (d : Datum) : Except Invalid Int :=
  match Whole.ofDatum d with
  | .ok i => if 1 ≤ i then .ok i else .error .tooSmall
  | .error r => .error (.notWhole r)

/-- A whole number from 1 on, or nothing. -/
def optionalPositive : Datum → Except Invalid (Option Int)
  | .null => .ok none
  | d => (positive d).map some

def text : Datum → Except Invalid String
  | .text s => .ok s
  | .bytes b =>
    match b.toText? with
    | some s => .ok s
    | none => .error .notUnicode
  | _ => .error .notText

/-! ### Sources -/

/-- The value of a field in the environment: the last one, if there are several. -/
def fromEnvironment? (env : List (String × String)) (field : String) : Option Datum :=
  (env.reverse.find? fun (name, _) => name.toLower == environmentPrefix ++ field).map fun e => .text e.2

/-- The given value of a field. -/
def given? (env : List (String × String)) (named : List (Datum × Datum)) (field : String) :
    Option Datum :=
  match Datum.lookup (.text field) named with
  | some d => some d
  | none => fromEnvironment? env field

/-- The outcome of one field. -/
def field (env : List (String × String)) (named : List (Datum × Datum)) (name : String)
    (read : Datum → Except Invalid α) (default : α) : Except (String × Invalid) α :=
  match given? env named name with
  | none => .ok default
  | some d => (read d).mapError fun e => (name, e)

/-- The faults of a field. -/
def faultOf : Except (String × Invalid) α → List (String × Invalid)
  | .ok _ => []
  | .error e => [e]

/-- The settings that values give, or all faults in them. -/
def read (env : List (String × String)) (named : List (Datum × Datum)) :
    Except (List (String × Invalid)) Settings :=
  let memory := field env named "max_memory" optionalPositive standard.maxMemory
  let depth := field env named "max_decode_depth" positive standard.maxDecodeDepth
  let state := field env named "state_key" text standard.stateKey
  let snapshot := field env named "snapshot_key" text standard.snapshotKey
  match memory, depth, state, snapshot with
  | .ok m, .ok d, .ok st, .ok sn => .ok ⟨m, d, st, sn⟩
  | m, d, st, sn => .error (faultOf m ++ faultOf d ++ faultOf st ++ faultOf sn)

/-- The settings as a mapping. -/
def toDatum (s : Settings) : Datum :=
  .mapping [(.text "max_memory", (s.maxMemory.map .int).getD .null),
    (.text "max_decode_depth", .int s.maxDecodeDepth), (.text "state_key", .text s.stateKey),
    (.text "snapshot_key", .text s.snapshotKey)]

end Settings

end LuaCapsule
