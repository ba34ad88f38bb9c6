/-! The functions of the standard library, by library. Each has a name in its library and, when
it stands in the library tables, a path from the global table. -/

namespace LuaCapsule.Lua

/-- Functions of the base library. -/
inductive BaseFn where
  | assert | collectgarbage | dofile | error | getmetatable | ipairs | load | loadfile | next
  | pairs | pcall | print | rawequal | rawget | rawlen | rawset | require | select
  | setmetatable | tonumber | tostring | typeOf | warn | xpcall
  deriving DecidableEq, Repr, Inhabited

namespace BaseFn

def name : BaseFn → String
  | assert => "assert"
  | collectgarbage => "collectgarbage"
  | dofile => "dofile"
  | error => "error"
  | getmetatable => "getmetatable"
  | ipairs => "ipairs"
  | load => "load"
  | loadfile => "loadfile"
  | next => "next"
  | pairs => "pairs"
  | pcall => "pcall"
  | print => "print"
  | rawequal => "rawequal"
  | rawget => "rawget"
  | rawlen => "rawlen"
  | rawset => "rawset"
  | require => "require"
  | select => "select"
  | setmetatable => "setmetatable"
  | tonumber => "tonumber"
  | tostring => "tostring"
  | typeOf => "type"
  | warn => "warn"
  | xpcall => "xpcall"

def all : List BaseFn :=
  [.assert, .collectgarbage, .dofile, .error, .getmetatable, .ipairs, .load, .loadfile, .next,
    .pairs, .pcall, .print, .rawequal, .rawget, .rawlen, .rawset, .require, .select,
    .setmetatable, .tonumber, .tostring, .typeOf, .warn, .xpcall]

end BaseFn

/-- Functions of `coroutine`. -/
inductive CoroutineFn where
  | close | create | isyieldable | resume | running | status | wrap | yield
  deriving DecidableEq, Repr, Inhabited

namespace CoroutineFn

def name : CoroutineFn → String
  | close => "close"
  | create => "create"
  | isyieldable => "isyieldable"
  | resume => "resume"
  | running => "running"
  | status => "status"
  | wrap => "wrap"
  | yield => "yield"

def all : List CoroutineFn :=
  [.close, .create, .isyieldable, .resume, .running, .status, .wrap, .yield]

end CoroutineFn

/-- Functions of `debug`. -/
inductive DebugFn where
  | debugPrompt | gethook | getinfo | getlocal | getmetatable | getregistry | getupvalue
  | getuservalue | setcstacklimit | sethook | setlocal | setmetatable | setupvalue
  | setuservalue | traceback | upvalueid | upvaluejoin
  deriving DecidableEq, Repr, Inhabited

namespace DebugFn

def name : DebugFn → String
  | debugPrompt => "debug"
  | gethook => "gethook"
  | getinfo => "getinfo"
  | getlocal => "getlocal"
  | getmetatable => "getmetatable"
  | getregistry => "getregistry"
  | getupvalue => "getupvalue"
  | getuservalue => "getuservalue"
  | setcstacklimit => "setcstacklimit"
  | sethook => "sethook"
  | setlocal => "setlocal"
  | setmetatable => "setmetatable"
  | setupvalue => "setupvalue"
  | setuservalue => "setuservalue"
  | traceback => "traceback"
  | upvalueid => "upvalueid"
  | upvaluejoin => "upvaluejoin"

def all : List DebugFn :=
  [.debugPrompt, .gethook, .getinfo, .getlocal, .getmetatable, .getregistry, .getupvalue,
    .getuservalue, .setcstacklimit, .sethook, .setlocal, .setmetatable, .setupvalue,
    .setuservalue, .traceback, .upvalueid, .upvaluejoin]

end DebugFn

/-- Functions of `io`. -/
inductive StreamFn where
  | close | flush | input | lines | openFile | output | popen | read | tmpfile | typeOf | write
  deriving DecidableEq, Repr, Inhabited

namespace StreamFn

def name : StreamFn → String
  | close => "close"
  | flush => "flush"
  | input => "input"
  | lines => "lines"
  | openFile => "open"
  | output => "output"
  | popen => "popen"
  | read => "read"
  | tmpfile => "tmpfile"
  | typeOf => "type"
  | write => "write"

def all : List StreamFn :=
  [.close, .flush, .input, .lines, .openFile, .output, .popen, .read, .tmpfile, .typeOf, .write]

end StreamFn

/-- Functions of `math`. -/
inductive MathFn where
  | abs | acos | asin | atan | ceil | cos | deg | exp | floor | fmod | log | max | min | modf
  | rad | random | randomseed | sin | sqrt | tan | tointeger | typeOf | ult
  deriving DecidableEq, Repr, Inhabited

namespace MathFn

def name : MathFn → String
  | abs => "abs"
  | acos => "acos"
  | asin => "asin"
  | atan => "atan"
  | ceil => "ceil"
  | cos => "cos"
  | deg => "deg"
  | exp => "exp"
  | floor => "floor"
  | fmod => "fmod"
  | log => "log"
  | max => "max"
  | min => "min"
  | modf => "modf"
  | rad => "rad"
  | random => "random"
  | randomseed => "randomseed"
  | sin => "sin"
  | sqrt => "sqrt"
  | tan => "tan"
  | tointeger => "tointeger"
  | typeOf => "type"
  | ult => "ult"

def all : List MathFn :=
  [.abs, .acos, .asin, .atan, .ceil, .cos, .deg, .exp, .floor, .fmod, .log, .max, .min, .modf,
    .rad, .random, .randomseed, .sin, .sqrt, .tan, .tointeger, .typeOf, .ult]

end MathFn

/-- Functions of `os`. -/
inductive SystemFn where
  | clock | date | difftime | execute | exit | getenv | remove | rename | setlocale | time
  | tmpname
  deriving DecidableEq, Repr, Inhabited

namespace SystemFn

def name : SystemFn → String
  | clock => "clock"
  | date => "date"
  | difftime => "difftime"
  | execute => "execute"
  | exit => "exit"
  | getenv => "getenv"
  | remove => "remove"
  | rename => "rename"
  | setlocale => "setlocale"
  | time => "time"
  | tmpname => "tmpname"

def all : List SystemFn :=
  [.clock, .date, .difftime, .execute, .exit, .getenv, .remove, .rename, .setlocale, .time,
    .tmpname]

end SystemFn

/-- Functions of `package`. -/
inductive PackageFn where
  | loadlib | searchpath
  deriving DecidableEq, Repr, Inhabited

namespace PackageFn

def name : PackageFn → String
  | loadlib => "loadlib"
  | searchpath => "searchpath"

def all : List PackageFn :=
  [.loadlib, .searchpath]

end PackageFn

/-- Functions of `string`. -/
inductive StringFn where
  | byte | char | dump | find | format | gmatch | gsub | len | lower | matchPattern | pack
  | packsize | rep | reverse | sub | unpack | upper
  deriving DecidableEq, Repr, Inhabited

namespace StringFn

def name : StringFn → String
  | byte => "byte"
  | char => "char"
  | dump => "dump"
  | find => "find"
  | format => "format"
  | gmatch => "gmatch"
  | gsub => "gsub"
  | len => "len"
  | lower => "lower"
  | matchPattern => "match"
  | pack => "pack"
  | packsize => "packsize"
  | rep => "rep"
  | reverse => "reverse"
  | sub => "sub"
  | unpack => "unpack"
  | upper => "upper"

def all : List StringFn :=
  [.byte, .char, .dump, .find, .format, .gmatch, .gsub, .len, .lower, .matchPattern, .pack,
    .packsize, .rep, .reverse, .sub, .unpack, .upper]

end StringFn

/-- Functions of `table`. -/
inductive TableFn where
  | concat | insert | move | pack | remove | sort | unpack
  deriving DecidableEq, Repr, Inhabited

namespace TableFn

def name : TableFn → String
  | concat => "concat"
  | insert => "insert"
  | move => "move"
  | pack => "pack"
  | remove => "remove"
  | sort => "sort"
  | unpack => "unpack"

def all : List TableFn :=
  [.concat, .insert, .move, .pack, .remove, .sort, .unpack]

end TableFn

/-- Functions of `utf8`. -/
inductive Utf8Fn where
  | char | codepoint | codes | len | offset
  deriving DecidableEq, Repr, Inhabited

namespace Utf8Fn

def name : Utf8Fn → String
  | char => "char"
  | codepoint => "codepoint"
  | codes => "codes"
  | len => "len"
  | offset => "offset"

def all : List Utf8Fn :=
  [.char, .codepoint, .codes, .len, .offset]

end Utf8Fn

/-- Methods of file handles. -/
inductive HandleFn where
  | close | flush | lines | read | seek | setvbuf | write | gc | toString
  deriving DecidableEq, Repr, Inhabited

namespace HandleFn

def name : HandleFn → String
  | close => "close"
  | flush => "flush"
  | lines => "lines"
  | read => "read"
  | seek => "seek"
  | setvbuf => "setvbuf"
  | write => "write"
  | gc => "__gc"
  | toString => "__tostring"

def all : List HandleFn :=
  [.close, .flush, .lines, .read, .seek, .setvbuf, .write, .gc, .toString]

end HandleFn

/-- The arithmetic that strings take part in. -/
inductive StringArith where
  | add | sub | mul | mod | pow | div | idiv | unm
  deriving DecidableEq, Repr, Inhabited

namespace StringArith

def name : StringArith → String
  | add => "add"
  | sub => "sub"
  | mul => "mul"
  | mod => "mod"
  | pow => "pow"
  | div => "div"
  | idiv => "idiv"
  | unm => "unm"

def all : List StringArith := [.add, .sub, .mul, .mod, .pow, .div, .idiv, .unm]

end StringArith

/-- A function that is not written in the language: one of the standard library, or one that
a library function makes anew. -/
inductive Native where
  | base (f : BaseFn)
  | coroutine (f : CoroutineFn)
  | debug (f : DebugFn)
  | stream (f : StreamFn)
  | math (f : MathFn)
  | system (f : SystemFn)
  | package (f : PackageFn)
  | searcher (i : Nat)
  | string (f : StringFn)
  | table (f : TableFn)
  | utf8 (f : Utf8Fn)
  | stringArith (op : StringArith)
  | handle (f : HandleFn)
  /-- The step of `ipairs`. -/
  | ipairsStep
  /-- The step of `utf8.codes`. -/
  | codesStep (lax : Bool)
  /-- The iterator of one call of `string.gmatch`. -/
  | gmatchStep (matcher : Nat)
  /-- The resumer of one call of `coroutine.wrap`. -/
  | wrapped (thread : Nat)
  /-- The host's handler of errors that leave a call. -/
  | reporter
  deriving DecidableEq, Repr, Inhabited

namespace Native

/-- The path from the global table, or from the metatable of strings. -/
def path? : Native → Option String
  | base f => some f.name
  | coroutine f => some ("coroutine." ++ f.name)
  | debug f => some ("debug." ++ f.name)
  | stream f => some ("io." ++ f.name)
  | math f => some ("math." ++ f.name)
  | system f => some ("os." ++ f.name)
  | package f => some ("package." ++ f.name)
  | searcher i => if 1 ≤ i && i ≤ 4 then some ("package.searchers[" ++ toString i ++ "]") else none
  | string f => some ("string." ++ f.name)
  | table f => some ("table." ++ f.name)
  | utf8 f => some ("utf8." ++ f.name)
  | stringArith op => some ("@string.__" ++ op.name)
  | _ => none

/-- The library functions that have a path. -/
def library : List Native :=
  BaseFn.all.map base ++ CoroutineFn.all.map coroutine ++ DebugFn.all.map debug
    ++ StreamFn.all.map stream ++ MathFn.all.map math ++ SystemFn.all.map system
    ++ PackageFn.all.map package ++ [1, 2, 3, 4].map searcher ++ StringFn.all.map string
    ++ TableFn.all.map table ++ Utf8Fn.all.map utf8 ++ StringArith.all.map stringArith

/-- A pair of numbers that tells native functions apart. -/
def rank : Native → Nat × Nat
  | base f => (0, f.ctorIdx)
  | coroutine f => (1, f.ctorIdx)
  | debug f => (2, f.ctorIdx)
  | stream f => (3, f.ctorIdx)
  | math f => (4, f.ctorIdx)
  | system f => (5, f.ctorIdx)
  | package f => (6, f.ctorIdx)
  | searcher i => (7, i)
  | string f => (8, f.ctorIdx)
  | table f => (9, f.ctorIdx)
  | utf8 f => (10, f.ctorIdx)
  | stringArith op => (11, op.ctorIdx)
  | handle f => (12, f.ctorIdx)
  | ipairsStep => (13, 0)
  | codesStep lax => (14, if lax then 1 else 0)
  | gmatchStep m => (15, m)
  | wrapped t => (16, t)
  | reporter => (17, 0)

end Native

end LuaCapsule.Lua
