import LuaCapsule.Lua.Library.Base

/-! The debug library: what is waiting, where it is, and the variables that functions have
captured. -/

namespace LuaCapsule.Lua.Debugging

/-! ### What is waiting -/

/-- The name of a function among the loaded modules. -/
def globalName? (h : Heap) (f : Value) : Option Bytes :=
  (h.table Fixed.loaded).toList.findSome? fun (k, m) =>
    match k, m with
    | .str module, .ref (.table id) =>
      (h.table id).toList.findSome? fun (k, v) =>
        match k with
        | .str name =>
          if v == f then
            some (if module == Bytes.ofString "_G" then name
              else module ++ Bytes.ofString "." ++ name)
          else none
        | _ => none
    | _, _ => none

/-- How a trace names a function. -/
def functionName (h : Heap) (f : Value) (calledAs : Origin) (otherwise : Bytes) : Bytes :=
  match globalName? h f with
  | some n => Bytes.ofString "function '" ++ n ++ Bytes.ofString "'"
  | none =>
    match calledAs with
    | .named kind name => Bytes.ofString (kind ++ " '") ++ name ++ Bytes.ofString "'"
    | .unknown => otherwise

/-- The lines of a trace about one level, with the levels below it. -/
def traceFrame (h : Heap) (below : List Frame) : Frame → List Bytes
  | .activation a =>
    let otherwise :=
      if a.code.proto.line == 0 then Bytes.ofString "main chunk"
      else
        Bytes.ofString "function <" ++ a.code.display
          ++ Bytes.ofString s!":{a.code.proto.line}>"
    let name := functionName h (.closure a.closure) (a.origin below) otherwise
    (a.place ++ Bytes.ofString "in " ++ name)
      :: if a.isTail then [Bytes.ofString "(...tail calls...)"] else []
  | .boundary (some f) => [Bytes.ofString "[C]: in " ++ functionName h (.native f) .unknown (Bytes.ofString "?")]
  | .protected' handler =>
    let f : BaseFn := if handler.isSome then .xpcall else .pcall
    [Bytes.ofString "[C]: in " ++ functionName h (.native (.base f)) .unknown (Bytes.ofString "?")]
  | .host line => [Bytes.ofString s!"[string \"<python>\"]:{line}: in function <[string \"<python>\"]>"]
  | _ => []

/-- The lines of a trace about some levels. -/
def traceFrames (h : Heap) : List Frame → List Bytes
  | [] => []
  | f :: below => traceFrame h below f ++ traceFrames h below

/-- Lines of a trace, of which the middle is left out when there are many. -/
def abridged (lines : List Bytes) : List Bytes :=
  let n := lines.length
  if n ≤ 22 then lines
  else lines.take 10 ++ [Bytes.ofString s!"...\t(skipping {n - 21} levels)"] ++ lines.drop (n - 11)

/-- A message with a trace below it. -/
def trace (message : Option Bytes) (lines : List Bytes) : Bytes :=
  let start := match message with | some m => m ++ Bytes.ofString "\n" | none => .empty
  (abridged lines).foldl (fun acc l => acc ++ Bytes.ofString "\n\t" ++ l)
    (start ++ Bytes.ofString "stack traceback:")

def traceback : Library := fun s => do
  let offset := match s.arg 1 with | .ref (.thread _) => 1 | _ => 0
  let v := s.arg (1 + offset)
  match v, stringOf? v with
  | .nil, _ => finish s none offset
  | _, some m => finish s (some m) offset
  | v, none => return [v]
where
  finish (s : Site) (m : Option Bytes) (offset : Nat) : M (List Value) := do
    let st ← get
    let level ← s.optInt (2 + offset) 1
    let lines := traceFrames st.heap ((levels st.frames).drop (level.toNat - 1))
    return [.str (trace m lines)]

/-! ### Functions -/

def info (function : Value) (frame : Option Activation) : M (List (String × Value)) := do
  let h ← getHeap
  match function with
  | .ref (.closure id) =>
    match h.closure? id with
    | none => return []
    | some c =>
      let p := c.code.proto
      let line : Value :=
        match frame.bind fun a => p.lineOf? (a.pc - 1) with
        | some l => .ofNat l
        | none => .int (-1)
      return [("source", .str (c.code.chunk.getD (Bytes.ofString "=?"))),
        ("short_src", .str c.code.display),
        ("what", .text (if p.line == 0 then "main" else "Lua")),
        ("currentline", line),
        ("linedefined", .ofNat p.line), ("lastlinedefined", .ofNat p.lastLine),
        ("nups", .ofNat p.captures.size), ("nparams", .ofNat p.parameters.toNat),
        ("isvararg", .bool p.isVariadic), ("istailcall", .bool (frame.any (·.isTail))),
        ("func", function)]
  | _ =>
    return [("source", .text "=[C]"), ("short_src", .text "[C]"), ("what", .text "C"),
      ("currentline", .int (-1)), ("linedefined", .int (-1)), ("lastlinedefined", .int (-1)),
      ("nups", .int 0), ("nparams", .int 0), ("isvararg", .bool true),
      ("istailcall", .bool false), ("func", function)]

/-- The fields that a letter asks for. -/
def fieldsOf (letter : UInt8) : List String :=
  match Char.ofNat letter.toNat with
  | 'S' => ["source", "short_src", "what", "linedefined", "lastlinedefined"]
  | 'l' => ["currentline"]
  | 'u' => ["nups", "nparams", "isvararg"]
  | 'n' => ["name", "namewhat"]
  | 't' => ["istailcall"]
  | 'f' => ["func"]
  | _ => []

def getinfo : Library := fun s => do
  let offset := match s.arg 1 with | .ref (.thread _) => 1 | _ => 0
  let options ← s.optString (2 + offset) (Bytes.ofString "flnSrtu")
  let v := s.arg (1 + offset)
  let fields ←
    if Heap.isFunction v then pure (some ((← info v none) ++ [("namewhat", .text "")]))
    else do
      let level := (← s.checkInt (1 + offset)).toInt
      if level < 0 then pure none
      else if level == 0 then
        pure (some ((← info (.native s.function) none) ++ [("namewhat", .text "")]))
      else
        match (levels (← get).frames).drop (level.toNat - 1) with
        | [] => pure none
        | .activation a :: below =>
          let names := match a.origin below with
            | .named kind name => [("name", Value.str name), ("namewhat", Value.text kind)]
            | .unknown => [("namewhat", Value.text "")]
          pure (some ((← info (.closure a.closure) (some a)) ++ names))
        | _ => pure (some ((← info (.native (.base .pcall)) none) ++ [("namewhat", .text "")]))
  match fields with
  | none => return [.nil]
  | some fields =>
    let wanted := options.data.toList.flatMap fieldsOf
    let t := fields.foldl
      (fun (t : Table) (k, v) => if wanted.contains k then t.set (.text k) v else t) {}
    return [.table (← newTable t)]

/-! ### Captured variables -/

/-- The cell of a captured variable, with the variable's name. -/
def upvalue? (h : Heap) (f : Value) (i : Int) : Option (Bytes × Nat) :=
  match f with
  | .ref (.closure id) =>
    match h.closure? id with
    | some c =>
      if i < 1 then none
      else do
        let cell ← c.upvalues[i.toNat - 1]?
        some ((c.code.proto.captureName? (i.toNat - 1)).getD (Bytes.ofString "(no name)"), cell)
    | none => none
  | _ => none

def getupvalue : Library := fun s => do
  let i := (← s.checkInt 2).toInt
  let f ← s.checkFunction 1
  let h ← getHeap
  match upvalue? h f i with
  | some (name, cell) => return [.str name, h.cell cell]
  | none => return []

def setupvalue : Library := fun s => do
  let v ← s.checkAny 3
  let i := (← s.checkInt 2).toInt
  let f ← s.checkFunction 1
  match upvalue? (← getHeap) f i with
  | some (name, cell) =>
    modifyHeap (·.setCell cell v)
    return [.str name]
  | none => return []

def upvalueid : Library := fun s => do
  let i := (← s.checkInt 2).toInt
  let f ← s.checkFunction 1
  match upvalue? (← getHeap) f i with
  | some (_, cell) => return [.ref (.cell cell)]
  | none => return [.nil]

def upvaluejoin : Library := fun s => do
  let i := (← s.checkInt 2).toInt
  let f ← s.checkFunction 1
  let h ← getHeap
  if (upvalue? h f i).isNone then s.argumentFault 2 "invalid upvalue index"
  let j := (← s.checkInt 4).toInt
  let g ← s.checkFunction 3
  match upvalue? h g j, f with
  | some (_, cell), .ref (.closure id) =>
    modifyHeap (·.setUpvalue id (i.toNat - 1) cell)
    return []
  | _, _ => s.argumentFault 4 "invalid upvalue index"

/-! ### Metatables -/

def getmetatable : Library := fun s => do
  let v ← s.checkAny 1
  return [match (← getHeap).metatable? v with | some m => .table m | none => .nil]

def setmetatable : Library := fun s => do
  let m ←
    match s.arg? 2 with
    | some .nil => pure none
    | some (.ref (.table m)) => pure (some m)
    | _ => s.typeError 2 "nil or table"
  modifyHeap (·.setMetatable (s.arg 1) m)
  return [s.arg 1]

/-- A function of the debug library. -/
def run : DebugFn → Library
  | .debugPrompt => fun _ => return []
  | .gethook => fun _ => return [.nil]
  | .getinfo => getinfo
  | .getlocal => fun _ => return [.nil]
  | .getmetatable => getmetatable
  | .getregistry => fun _ => return [.table Fixed.registry]
  | .getupvalue => getupvalue
  | .getuservalue => fun _ => return [.nil, .bool false]
  | .setcstacklimit => fun _ => return [.int 200]
  | .sethook => fun _ => return []
  | .setlocal => fun _ => return [.nil]
  | .setmetatable => setmetatable
  | .setupvalue => setupvalue
  | .setuservalue => fun _ => return [.nil]
  | .traceback => traceback
  | .upvalueid => upvalueid
  | .upvaluejoin => upvaluejoin

end LuaCapsule.Lua.Debugging
