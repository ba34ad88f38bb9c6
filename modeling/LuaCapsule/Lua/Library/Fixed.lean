import LuaCapsule.Lua.Heap

/-! The objects that every interpreter has from the beginning. Their numbers are fixed, and
all but three of the tables have a path from the global table by which they can be named
outside the interpreter. -/

namespace LuaCapsule.Lua.Fixed

/-! ### Tables -/

def globals : Nat := 0

/-- The metatable that marks lists. -/
def sequence : Nat := 1

/-- The metatable of all strings. -/
def string : Nat := 2

def loaded : Nat := 9

def preload : Nat := 10

/-- The metatable of all handles. -/
def handle : Nat := 15

/-- The methods of handles. -/
def handleMethods : Nat := 16

/-- The table of what the host keeps. -/
def registry : Nat := 17

/-- The paths of the tables, in the order of their numbers. -/
def tablePaths : List String :=
  ["", "@sequence", "@string", "coroutine", "debug", "io", "math", "os", "package",
    "package.loaded", "package.preload", "package.searchers", "string", "table", "utf8"]

/-- The paths of the standard streams, in the order of their numbers. -/
def streamPaths : List String := ["io.stdin", "io.stdout", "io.stderr"]

/-! ### Paths -/

/-- The path of a library value. -/
def pathOf? : Value → Option String
  | .ref (.table id) => tablePaths[id]?
  | .ref (.handle id) => streamPaths[id]?
  | .ref (.native f) => f.path?
  | _ => none

/-- The library values that have a path. -/
def values : List Value :=
  (List.range tablePaths.length).map Value.table ++ (List.range streamPaths.length).map Value.handle
    ++ Native.library.map Value.native

/-- The library value of a path. -/
def valueOf? (path : String) : Option Value := values.find? fun v => pathOf? v == some path

/-! ### The fresh interpreter -/

/-- A table of named fields. -/
def tableOf (fields : List (String × Value)) : Table :=
  fields.foldl (fun t (k, v) => t.set (.text k) v) (Table.withRoom 0 fields.length)

def listOf (items : List Value) : Table :=
  (items.zipIdx 1).foldl (fun t (v, i) => t.set (.int (Int64.ofNat i)) v)
    (Table.withRoom items.length 0)

/-- The tables of the libraries, by name. -/
def libraries : List (String × Value) :=
  [("_G", .table globals), ("coroutine", .table 3), ("debug", .table 4), ("io", .table 5),
    ("math", .table 6), ("os", .table 7), ("package", .table 8), ("string", .table 12),
    ("table", .table 13), ("utf8", .table 14)]

def searchPath : String :=
  "/usr/local/share/lua/5.4/?.lua;/usr/local/share/lua/5.4/?/init.lua;"
    ++ "/usr/local/lib/lua/5.4/?.lua;/usr/local/lib/lua/5.4/?/init.lua;./?.lua;./?/init.lua"

def nativeSearchPath : String :=
  "/usr/local/lib/lua/5.4/?.so;/usr/local/lib/lua/5.4/loadall.so;./?.so"

/-- Matches one character of a text in UTF-8. -/
def characterPattern : Bytes :=
  Bytes.ofList [0x5b, 0x00, 0x2d, 0x7f, 0xc2, 0x2d, 0xfd, 0x5d, 0x5b, 0x80, 0x2d, 0xbf, 0x5d, 0x2a]

/-- All tables, in the order of their numbers. -/
def tables : Array Table :=
  let methods := HandleFn.all.filterMap fun f =>
    match f with
    | .gc => none
    | .toString => none
    | f => some (f.name, Value.native (.handle f))
  #[tableOf (BaseFn.all.map (fun f => (f.name, .native (.base f))) ++ libraries
      ++ [("_VERSION", .text "Lua 5.4")]),
    tableOf [("__name", .text "sequence")],
    tableOf (("__index", .table 12)
      :: StringArith.all.map fun op => ("__" ++ op.name, .native (.stringArith op))),
    tableOf (CoroutineFn.all.map fun f => (f.name, .native (.coroutine f))),
    tableOf (DebugFn.all.map fun f => (f.name, .native (.debug f))),
    tableOf (StreamFn.all.map (fun f => (f.name, .native (.stream f)))
      ++ [("stdin", .handle 0), ("stdout", .handle 1), ("stderr", .handle 2)]),
    tableOf (MathFn.all.map (fun f => (f.name, .native (.math f)))
      ++ [("huge", .float .infinity), ("maxinteger", .int Int64.maxValue),
        ("mininteger", .int Int64.minValue), ("pi", .float ⟨0x400921fb54442d18⟩)]),
    tableOf (SystemFn.all.map fun f => (f.name, .native (.system f))),
    tableOf (PackageFn.all.map (fun f => (f.name, .native (.package f)))
      ++ [("config", .text "/\n;\n?\n!\n-\n"), ("cpath", .text nativeSearchPath),
        ("loaded", .table loaded), ("path", .text searchPath), ("preload", .table preload),
        ("searchers", .table 11)]),
    tableOf libraries,
    tableOf [],
    listOf ([1, 2, 3, 4].map fun i => .native (.searcher i)),
    tableOf (StringFn.all.map fun f => (f.name, .native (.string f))),
    tableOf (TableFn.all.map fun f => (f.name, .native (.table f))),
    tableOf (Utf8Fn.all.map (fun f => (f.name, .native (.utf8 f)))
      ++ [("charpattern", .str characterPattern)]),
    tableOf [("__name", .text "FILE*"), ("__index", .table handleMethods),
      ("__gc", .native (.handle .gc)), ("__close", .native (.handle .gc)),
      ("__tostring", .native (.handle .toString))],
    tableOf methods,
    (tableOf [("_LOADED", .table loaded), ("_PRELOAD", .table preload),
      ("FILE*", .table handle)]).set (.int 2) (.table globals)]

/-- The objects of an interpreter that has not run anything. The first coroutine is the one
in which the host's calls run. -/
def heap : Heap :=
  { tables, founded := Nat.le_refl _, threads := #[.running], handles := 3,
    metatables := { string := some string, handle := some handle } }

end LuaCapsule.Lua.Fixed
