import LuaCapsule.Lua.Library.Debugging

/-! The host's own handler of errors that leave a call. It pairs the error with a trace, both
as text that can leave the interpreter. -/

namespace LuaCapsule.Lua.Reporting

/-- Acts as a function of the host at a line of its own text. -/
def atLine (line : Nat) (act : M α) : M α := do
  modify fun st => { st with frames := .host line :: st.frames }
  let r ← act
  modify fun st => { st with frames := st.frames.tail }
  return r

/-- A string as text that can leave the interpreter; other values stay as they are. -/
def printable : Value → Value
  | .str b => .str b.printable
  | v => v

/-- The mark of a report. -/
def mark : Key := .text "kernel_error"

/-- Reports an error: a table with the error and a trace. -/
def report : Library := fun s => do
  let v := s.arg 1
  let message ← atLine 116 (s.toText v)
  let st ← get
  let trace := Debugging.trace (some message) (Debugging.traceFrames st.heap (levels st.frames))
  let t := ((Table.withRoom 0 3).set mark (.bool true)).set (.text "err") (printable v)
  return [.table (← newTable (t.set (.text "trace") (.str trace.printable)))]

end LuaCapsule.Lua.Reporting
