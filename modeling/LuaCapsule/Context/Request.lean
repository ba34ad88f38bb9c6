import LuaCapsule.Context.Path

/-! What a request asks for: which function is called and with which arguments. The request's
body goes before the request itself, and the request before the context. -/

namespace LuaCapsule.Request

/-- A request in its full form: a bare key asks for that path, and nothing asks for nothing. -/
def normalize : Datum → Datum
  | .null => .mapping []
  | .text key => .mapping [(.text "path", .text key)]
  | request => request

/-- The value of a field of a request's body, of the request, or of a context. -/
def find? (field : String) (context request : Datum) : Except Fault (Option Datum) := do
  let shared ← Private.publicView context
  Path.first? [(request, .text ("body/" ++ field)), (request, .text field), (shared, .text field)]

/-- The name of the function to call. -/
def functionName (key context request : Datum) : Except Fault String := do
  return ((← find? "function" context request).getD key).display

/-- The parameters of the call; unless they are given, the public context, the request, and an
empty mapping. -/
def parameters (context request : Datum) : Except Fault Datum := do
  let shared ← Private.publicView context
  return (← find? "parameters" context request).getD (.list [shared, request, .mapping []])

/-- The arguments that parameters stand for: the items of a list, or a single value. -/
def arguments : Datum → List Datum
  | .list items => items
  | .tuple items => items
  | d => [d]

end LuaCapsule.Request
