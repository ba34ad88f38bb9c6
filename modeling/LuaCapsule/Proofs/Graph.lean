import LuaCapsule.Lua.Library.Fixed
import Mathlib.Data.Set.Function

/-! The objects of a heap as a graph: what they hold, what can be reached from the global table,
and when two heaps differ in the names of their objects only. Not the cells of captured
variables are compared but which variables share one. -/

namespace LuaCapsule.Lua

namespace Heap

/-- What an object holds: the keys, values and metatable of a table, and the variables that a
function captured. -/
inductive Holds (h : Heap) : Ref → Value → Prop
  | key {t : Nat} {k : Key} (present : (h.table t).get k ≠ .nil) : Holds h (.table t) k.value
  | value {t : Nat} (k : Key) : Holds h (.table t) ((h.table t).get k)
  | metatable {t m : Nat} (named : (h.table t).metatable = some m) : Holds h (.table t) (.table m)
  | captured {c i cell : Nat} (here : (h.closure c).upvalues[i]? = some cell) :
    Holds h (.closure c) (h.cell cell)

/-- The objects that can be reached from the global table. -/
inductive Reaches (h : Heap) : Ref → Prop
  | root : Reaches h (.table Fixed.globals)
  | step {r r' : Ref} (here : Reaches h r) (held : h.Holds r (.ref r')) : Reaches h r'

end Heap

/-! ### Renaming -/

/-- A key with its object renamed, if it is one. -/
def Key.rename (f : Ref → Ref) : Key → Key
  | .ref r => .ref (f r)
  | k => k

/-- Values that are the same but for the names of objects and the bits of what is not a number. -/
inductive Value.Renamed (f : Ref → Ref) : Value → Value → Prop
  | nil : Renamed f .nil .nil
  | bool (b : Bool) : Renamed f (.bool b) (.bool b)
  | int (i : Int64) : Renamed f (.int i) (.int i)
  | float {x y : Binary64} (same : x = y ∨ x.isNaN = true ∧ y.isNaN = true) :
    Renamed f (.float x) (.float y)
  | str (s : Bytes) : Renamed f (.str s) (.str s)
  | ref (r : Ref) : Renamed f (.ref r) (.ref (f r))

theorem Value.Renamed.ne_nil {f : Ref → Ref} {v v' : Value} (renamed : Value.Renamed f v v') (some : v ≠ .nil) :
    v' ≠ .nil := by
  rintro rfl
  cases renamed
  exact some rfl

/-- Tables that have the same entries and metatable but for the names of objects. -/
structure Table.Renamed (f : Ref → Ref) (t t' : Table) : Prop where
  get : ∀ k, t.get k ≠ .nil → Value.Renamed f (t.get k) (t'.get (k.rename f))
  keys : ∀ k', t'.get k' ≠ .nil → ∃ k, k.rename f = k' ∧ t.get k ≠ .nil
  metatable : t'.metatable.map Ref.table = t.metatable.map fun m => f (.table m)

/-- The place of an object's sort among all sorts. -/
def Ref.sort (r : Ref) : Nat := r.rank.1

/-- A renaming of the objects of one heap that makes another one of them, as far as can be seen
from the global tables. -/
structure Heap.Isomorphism (h h' : Heap) (f : Ref → Ref) : Prop where
  objects : Set.BijOn f {r | h.Reaches r} {r | h'.Reaches r}
  root : f (.table Fixed.globals) = .table Fixed.globals
  /-- Library values keep their paths, and nothing else gets one. -/
  path : ∀ r, h.Reaches r → Fixed.pathOf? (.ref (f r)) = Fixed.pathOf? (.ref r)
  sort : ∀ r, h.Reaches r → (f r).sort = r.sort
  table : ∀ t t' : Nat, h.Reaches (.table t) → f (.table t) = .table t' →
    Table.Renamed f (h.table t) (h'.table t')
  code : ∀ c c' : Nat, h.Reaches (.closure c) → f (.closure c) = .closure c' →
    (h'.closure c').code = (h.closure c).code
  captured : ∀ c c' : Nat, h.Reaches (.closure c) → f (.closure c) = .closure c' → ∀ i x x' : Nat,
    (h.closure c).upvalues[i]? = some x → (h'.closure c').upvalues[i]? = some x' →
    Value.Renamed f (h.cell x) (h'.cell x')
  /-- Two captured variables are one in the one heap exactly when they are in the other. -/
  shared : ∀ c d c' d' : Nat, h.Reaches (.closure c) → h.Reaches (.closure d) →
    f (.closure c) = .closure c' → f (.closure d) = .closure d' → ∀ i j x y x' y' : Nat,
    (h.closure c).upvalues[i]? = some x → (h.closure d).upvalues[j]? = some y →
    (h'.closure c').upvalues[i]? = some x' → (h'.closure d').upvalues[j]? = some y' →
    (x = y ↔ x' = y')

end LuaCapsule.Lua
