import LuaCapsule.Codec.Decode

/-! Running programs and calling their functions. A program runs under the trace function that
it would find itself. A global function is called under the host's own handler, so that
whatever the error, its value and a trace come back as text or as a structured value. -/

namespace LuaCapsule.Vm

open Lua

/-! ### Programs -/

/-- The name of a program in messages. -/
def programName : Bytes := Bytes.ofString "<python>"

/-- The head of a trace. -/
def traceHead : String := "stack traceback:"

/-- A message with the lines of the trace at its end in the opposite order. -/
def reverseTrace (message : String) : String :=
  let lines := message.splitOn "\n"
  let trace := lines.reverse.takeWhile (· != traceHead)
  if trace.length == lines.length then message
  else String.intercalate "\n" (lines.take (lines.length - trace.length) ++ trace)

/-- A failed program, as a fault of initialisation. -/
def programFault (f : Failure) : Fault :=
  match failureText f with
  | .ok s => .init (reverseTrace s)
  | .error f => f

/-- Runs a program. -/
def load (source : String) : VmM Unit := do
  let made ← runOrFail do
    Base.loadFunction (Bytes.ofString source) programName (Bytes.ofString "bt") (.table Fixed.globals)
  match made with
  | .error m => throw (.init ("error loading code: " ++ m.toText))
  | .ok id =>
    let results ← run do
      let handler ← traceHandler
      Machine.asHost handler (Machine.begin' Machine.callFunction none false true (.closure id) [])
    match results with
    | .ok vs => vs.forM see
    | .error f => throw (programFault f)

/-! ### Calls of global functions -/

/-- How messages name the function that is called. -/
def calledOrigin : Origin := .named "field" (Bytes.ofString "?")

/-- The arguments of a call, from a table of them and their number. -/
def spread (args : Value) (n : Nat) : M (List Value) :=
  (Native.table .unpack).run
    ⟨.table .unpack, some (.named "upvalue" (Bytes.ofString "unpack")), [args, .int 1, .ofNat n],
      Machine.callFunction (some (.table .unpack))⟩

/-- Calls a global function with some arguments. -/
def callGlobal (name : Bytes) (args : List Value) : M Machine.Progress := do
  Machine.pushFrame (.protected' (some (.native .reporter)))
  Machine.pushFrame (.host 122)
  let h ← Lua.getHeap
  let f ←
    match h.index (.table Fixed.globals) (.str name) with
    | .value v => pure v
    | .call f args => pure ((← Machine.callFunction none f args).headD .nil)
    | .fault c => raiseHere (c.message h (.named "upvalue" (Bytes.ofString "G")) .unknown)
  let (f, args) ← Machine.callee (some calledOrigin) 100 f args
  if let .ref (.closure _) := f then
    modify fun st => { st with frames := st.frames.tail }
    Machine.begin' Machine.callFunction (some calledOrigin) true true f args
  else Machine.begin' Machine.callFunction (some calledOrigin) false true f args

/-- Begins the protected call of a global function with the first `n` items of a table. -/
def beginGlobal (name : Bytes) (args : Value) (n : Nat) : M Machine.Progress := do
  Machine.pushFrame (.host 126)
  callGlobal name (← spread args n)

/-- How a protected call came out: with its first result, or with an error and perhaps a
trace. -/
inductive Outcome where
  | result (v : Value)
  | error (v : Value) (trace : Value)

/-- What a report has under a name. A program that got hold of the report can answer for it. -/
def reported (t : Nat) (name : String) : M Value := do
  match (← Lua.getHeap).index (.table t) (.text name) with
  | .value v => return v
  | answer => do
    let handler ← traceHandler
    let results ← Machine.asHost handler do
      let v ← Reporting.atLine 129 (resolve answer)
      Machine.deliver [v] (← get).frames
    return results.headD .nil

/-- Reads the error of a protected call, which is a report unless the handler could not make one. -/
def Outcome.ofError : Value → M Outcome
  | .ref (.table t) => do
    if (((← Lua.getHeap).table t).get Reporting.mark).truthy then
      let v ← reported t "err"
      return .error v (← reported t "trace")
    else return .error (.table t) .nil
  | v => return .error (Reporting.printable v) .nil

/-- Reads the results of a protected call, of which the first says whether it went well. -/
def Outcome.ofResults : List Value → M Outcome
  | .bool true :: vs => return .result (vs.headD .nil)
  | vs => ofError (vs.tail.headD .nil)

/-- The text of a value that has no structured form. -/
def describe (v : Value) : VmM String := do
  let h ← getHeap
  let plain : String :=
    match v with
    | .ref r => s!"<Lua {v.typeName} at {r.address}>"
    | v => s!"<Lua {v.typeName}>"
  match h.metamethod v "__tostring" with
  | .nil => return plain
  | f =>
    match ← run (Machine.asHost none (Machine.begin' Machine.callFunction none false true f [v])) with
    | .ok vs =>
      match stringOf? (vs.headD .nil) with
      | some b => return (b.toText?).getD b.latin1
      | none => return plain
    | .error _ => return plain

/-- A value that the host holds: a coroutine that has not begun stands for its function. -/
def held (h : Heap) : Value → Value
  | .ref (.thread t) =>
    match h.thread t with
    | .fresh body => body
    | _ => .thread t
  | v => v

/-- The error of a call as a structured value, or as text if it has no structured form. -/
def errorBody (v : Value) : VmM Datum := do
  let h ← getHeap
  tryCatch (Codec.decode Codec.maxDepth v) fun f => do
    if f.isDecode then return .text (← describe (held h v)) else throw f

/-- The protected call of a global function with the first `n` items of a table. -/
def called (function : String) (args : Value) (n : Nat) : VmM (Except Failure (List Value)) := run do
  let handler ← traceHandler
  Machine.asHost handler (beginGlobal (Bytes.ofString function) args n)

/-- The outcome of a protected call that may have failed. -/
def outcomeOf : Except Failure (List Value) → VmM (Except Failure Outcome)
  | .ok vs => run (Outcome.ofResults vs)
  | .error f => return .error f

/-- Calls a global function with the first `n` items of a table. A string that leaves the interpreter
must be text. -/
def invoke (function : String) (args : Value) (n : Nat) : VmM Value := do
  match ← outcomeOf (← called function args n) with
  | .ok (.result v) => if Codec.isText v then return v else throw Codec.textFault
  | .ok (.error v trace) =>
    if Codec.isText v && Codec.isText trace then
      let body ← errorBody v
      throw (.compute function body ((Codec.scalar? trace).getD .null))
    else throw Codec.textFault
  | .error f =>
    match failureText f with
    | .ok s => throw (.compute function (.text (reverseTrace s)) .null)
    | .error _ => throw Codec.textFault

end LuaCapsule.Vm
