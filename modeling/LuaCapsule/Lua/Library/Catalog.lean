import LuaCapsule.Lua.Library.CodePoints
import LuaCapsule.Lua.Library.Coroutines
import LuaCapsule.Lua.Library.Debugging
import LuaCapsule.Lua.Library.Maths
import LuaCapsule.Lua.Library.Reporting
import LuaCapsule.Lua.Library.Strings
import LuaCapsule.Lua.Library.System
import LuaCapsule.Lua.Library.Tables

/-! What each library function does. Those that pass control are the machine's own, and do
nothing here. -/

namespace LuaCapsule.Lua

/-- The work of a library function. -/
def Native.run : Native → Library
  | base f => Base.run f
  | coroutine f => Coroutines.run f
  | debug f => Debugging.run f
  | stream f => System.runStream f
  | math f => Maths.run f
  | system f => System.runSystem f
  | package f => System.runPackage f
  | searcher _ => System.searcher
  | string f => Strings.run f
  | table f => Tables.run f
  | utf8 f => CodePoints.run f
  | stringArith op => Strings.arith op
  | handle f => System.runHandle f
  | ipairsStep => Base.ipairsStep
  | codesStep lax => CodePoints.codesStep lax
  | gmatchStep m => Strings.gmatchStep m
  | wrapped _ => fun _ => return []
  | reporter => Reporting.report

end LuaCapsule.Lua
