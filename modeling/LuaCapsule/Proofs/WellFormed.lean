import LuaCapsule.Proofs.LibraryPaths
import LuaCapsule.Snapshot.Rebuild

/-! When a listing is well formed: its root is the global table, library values are of the kind that
is asked for, references lead to records, and captured variables join ones that exist. Rebuilding finds
out about a part of this only. -/

namespace LuaCapsule.Snapshot

open Lua

/-! ### Listings -/

/-- The record at a place. -/
def recordAt? (l : Listing) : Nat → Option Record
  | 0 => none
  | n + 1 => l[n]?

/-- Does a reference to an object lead to a record? -/
def Reference.IsClosed (l : Listing) : Reference → Prop
  | .object n => (recordAt? l n).isSome
  | _ => True

/-- Can a reference be a key? -/
def Reference.IsKey (l : Listing) : Reference → Prop
  | .nil => False
  | .float x => x.isNaN = false
  | .object n => (recordAt? l n).isSome
  | _ => True

namespace Record

/-- The library value that a record names. -/
def library? : Record → Option Value
  | .table path _ _ => path.bind Fixed.valueOf?
  | .native path => Fixed.valueOf? path
  | .function _ _ => none

/-- Does a record stand for a table? -/
def IsTable (r : Record) : Prop := (∃ path entries metatable, r = .table path entries metatable) ∨ ∃ t, r.library? = some (.table t)

/-- How many variables the function of a record captures. -/
def captures : Record → Nat
  | .function code _ =>
    match Code.undump code with
    | .ok c => c.proto.captures.size
    | .error _ => 0
  | _ => 0

end Record

/-- Does a captured variable lead to what exists? -/
def Upvalue.WellFormed (l : Listing) : Upvalue → Prop
  | .value r => r.IsClosed l
  | .join owner index => ∃ r, recordAt? l owner = some r ∧ 1 ≤ index ∧ index ≤ r.captures

/-- A record that is as its kind needs it. -/
def Record.WellFormed (l : Listing) : Record → Prop
  | .table path entries metatable =>
    (∀ p ∈ path, ∃ t, Fixed.valueOf? p = some (.table t)) ∧
    (∀ e ∈ entries, e.1.IsKey l ∧ e.2.IsClosed l) ∧
    ∀ m ∈ metatable, ∃ n r, m = .object n ∧ recordAt? l n = some r ∧ r.IsTable
  | .native path => ∃ v, Fixed.valueOf? path = some v ∧ ∀ t, v ≠ .table t
  | .function code upvalues =>
    ∃ c, Code.undump code = .ok c ∧ upvalues.length = c.proto.captures.size ∧ ∀ u ∈ upvalues, u.WellFormed l

/-- A listing with the place of the global table, in which all records are well formed. -/
structure WellFormed (l : Listing) (root : Int) : Prop where
  root : ∃ r, recordAt? l root.toNat = some r ∧ r.library? = some (.table Fixed.globals)
  records : ∀ r ∈ l, r.WellFormed l

/-! ### What rebuilding finds out -/

/-- What is well formed about a record if rebuilding goes well. -/
def Record.Checked (l : Listing) : Record → Prop
  | .table path entries metatable =>
    (∀ p ∈ path, ∀ v, Fixed.valueOf? p = some v → ∃ t, v = .table t) ∧
    (∀ e ∈ entries, e.1.IsKey l) ∧
    ∀ m ∈ metatable, m = .nil ∨ ∃ n, m = .object n ∧ ∀ r, recordAt? l n = some r → r.IsTable
  | .native path => ∃ v, Fixed.valueOf? path = some v
  | .function code upvalues =>
    ∃ c, Code.undump code = .ok c ∧ ∀ (i : Nat) owner index, upvalues[i]? = some (.join owner index) →
      i < c.proto.captures.size ∧ (Upvalue.join owner index).WellFormed l

/-- What rebuilding does not find out about a record: that a library table exists, that a native is no
table, that values and a metatable are there, and that all captured variables are listed. -/
def Record.Tight (l : Listing) : Record → Prop
  | .table path entries metatable =>
    (∀ p ∈ path, ∃ v, Fixed.valueOf? p = some v) ∧ (∀ e ∈ entries, e.2.IsClosed l) ∧
    ∀ m ∈ metatable, m ≠ .nil ∧ m.IsClosed l
  | .native path => ∀ t, Fixed.valueOf? path ≠ some (.table t)
  | .function code upvalues =>
    (∀ c, Code.undump code = .ok c → upvalues.length = c.proto.captures.size) ∧
    ∀ r, .value r ∈ upvalues → r.IsClosed l

structure Checked (l : Listing) (root : Int) : Prop where
  root : ∃ r, recordAt? l root.toNat = some r ∧ r.library? = some (.table Fixed.globals)
  records : ∀ r ∈ l, r.Checked l

/-- A listing without the mistakes that rebuilding does not find. -/
def Tight (l : Listing) : Prop := ∀ r ∈ l, r.Tight l

/-- Does a listing leave the metatable of lists without an answer for missing items? -/
def Calm (l : Listing) : Prop := ∀ entries metatable, .table (some "@sequence") entries metatable ∈ l →
  ∀ e ∈ entries, e.1.isName "__index" = false

/-- Do the tables of a listing say nothing of equality? -/
def IsMute (l : Listing) : Prop := ∀ path entries metatable, .table path entries metatable ∈ l →
  ∀ e ∈ entries, e.1.isName "__eq" = false

/-- Is the root of a listing compared with the global table without a call? It is if it is that table, or
if no table answers. -/
def Direct (l : Listing) (root : Int) : Prop :=
  (∃ r, recordAt? l root.toNat = some r ∧ r.library? = some (.table Fixed.globals)) ∨ IsMute l

variable {l : Listing} {root : Int}

theorem Record.wellFormed_iff {r : Record} : r.WellFormed l ↔ r.Checked l ∧ r.Tight l := by
  cases r with
  | table path entries metatable =>
    constructor
    · rintro ⟨paths, values, named⟩
      refine ⟨⟨fun p mem v known => ?_, fun e mem => (values e mem).1, fun m mem => ?_⟩, fun p mem => ?_, fun e mem => (values e mem).2,
        fun m mem => ?_⟩
      · obtain ⟨t, is⟩ := paths p mem
        exact ⟨t, Option.some.inj (known.symm.trans is)⟩
      · obtain ⟨n, r, rfl, here, isTable⟩ := named m mem
        exact .inr ⟨n, rfl, fun r' here' => Option.some.inj (here.symm.trans here') ▸ isTable⟩
      · obtain ⟨t, is⟩ := paths p mem
        exact ⟨_, is⟩
      · obtain ⟨n, r, rfl, here, _⟩ := named m mem
        exact ⟨nofun, Option.isSome_of_eq_some here⟩
    · rintro ⟨⟨tables, keys, maybe⟩, known, closed, there⟩
      refine ⟨fun p mem => ?_, fun e mem => ⟨keys e mem, closed e mem⟩, fun m mem => ?_⟩
      · obtain ⟨v, is⟩ := known p mem
        obtain ⟨t, rfl⟩ := tables p mem v is
        exact ⟨t, is⟩
      · obtain ⟨some, exists'⟩ := there m mem
        obtain rfl | ⟨n, rfl, isTable⟩ := maybe m mem
        · exact absurd rfl some
        · obtain ⟨r, here⟩ := Option.isSome_iff_exists.mp exists'
          exact ⟨n, r, rfl, here, isTable r here⟩
  | native path =>
    constructor
    · rintro ⟨v, known, leaf⟩
      exact ⟨⟨v, known⟩, fun t is => leaf t (Option.some.inj (known.symm.trans is))⟩
    · rintro ⟨⟨v, known⟩, leaf⟩
      exact ⟨v, known, fun t is => leaf t (is ▸ known)⟩
  | function code upvalues =>
    constructor
    · rintro ⟨c, loads, size, each⟩
      refine ⟨⟨c, loads, fun i owner index found => ⟨?_, each _ (List.mem_of_getElem? found)⟩⟩, fun c' loads' => ?_, fun r mem => each _ mem⟩
      · rw [← size]
        exact (List.getElem?_eq_some_iff.mp found).1
      · cases loads.symm.trans loads'
        exact size
    · rintro ⟨⟨c, loads, joins⟩, size, values⟩
      refine ⟨c, loads, size c loads, fun u mem => ?_⟩
      cases u with
      | value r => exact values r mem
      | join owner index =>
        obtain ⟨i, found⟩ := List.getElem?_of_mem mem
        exact (joins i owner index found).2

/-- A listing is well formed just if rebuilding finds nothing wrong and misses nothing. -/
theorem wellFormed_iff : WellFormed l root ↔ Checked l root ∧ Tight l := by
  constructor
  · intro wellFormed
    exact ⟨⟨wellFormed.root, fun r mem => (Record.wellFormed_iff.mp (wellFormed.records r mem)).1⟩,
      fun r mem => (Record.wellFormed_iff.mp (wellFormed.records r mem)).2⟩
  · rintro ⟨checked, tight⟩
    exact ⟨checked.root, fun r mem => Record.wellFormed_iff.mpr ⟨checked.records r mem, tight r mem⟩⟩

/-! ### Objects for records -/

/-- What a reference stands for among objects; nil if there is no object. -/
def Reference.at (os : List Value) : Reference → Value
  | .nil => .nil
  | .bool b => .bool b
  | .int i => .int i
  | .float x => .float x
  | .text s => .text s
  | .bytes b => .str b
  | .object 0 => .nil
  | .object (n + 1) => os.getD n .nil

/-- An object of the kind that a record says, with the code that functions have. -/
def Record.Begins (code? : Nat → Option Code) (o : Value) : Record → Prop
  | .table path _ _ => ∃ t, o = .table t ∧ (path.bind Fixed.valueOf? = some o ∨ path.bind Fixed.valueOf? = none ∧ Fixed.pathOf? o = none)
  | .native path => Fixed.valueOf? path = some o
  | .function code _ => ∃ id c, o = .closure id ∧ code? id = some c ∧ Code.undump code = .ok c

/-- A captured variable of a function is there, and so is the one that it joins. -/
def Upvalue.Joins (code? : Nat → Option Code) (os : List Value) (o : Value) (i : Nat) : Upvalue → Prop
  | .value _ => True
  | .join owner index => (∃ id c, o = .closure id ∧ code? id = some c ∧ i < c.proto.captures.size) ∧
    ∃ id c, (Reference.object owner).at os = .closure id ∧ code? id = some c ∧ 1 ≤ index ∧ index ≤ c.proto.captures.size

/-- What rebuilding finds out about a record once all objects are there. -/
def Record.Filled (code? : Nat → Option Code) (os : List Value) (o : Value) : Record → Prop
  | .table _ entries metatable =>
    (∀ e ∈ entries, (Key.ofValue? (e.1.at os)).isSome) ∧ ∀ m ∈ metatable, m.at os = .nil ∨ ∃ t, m.at os = .table t
  | .native _ => True
  | .function _ upvalues => ∀ (i : Nat) u, upvalues[i]? = some u → u.Joins code? os o i

/-- A double is a key unless it is no number. -/
theorem isSome_ofValue?_float (x : Binary64) : (Key.ofValue? (.float x)).isSome = !x.isNaN := by
  unfold Key.ofValue?
  cases odd : x.isNaN with
  | true =>
    have infinite : x.isFinite = false := by
      simp only [Binary64.isNaN, Bool.and_eq_true] at odd
      simpa [Binary64.isFinite] using odd.1
    have none : x.toInt64? = none := by simp [Binary64.toInt64?, Binary64.toInt?, infinite]
    simp [Binary64.isKey, odd, none]
  | false =>
    cases whole : x.toInt64? with
    | none => simp [Binary64.isKey, odd, whole]
    | some i => simp [Binary64.isKey, whole]

section Objects

variable {code? : Nat → Option Code} {os : List Value} {r : Record} {o : Value}

theorem Record.Begins.ref (begins : r.Begins code? o) : ∃ x, o = .ref x := by
  cases r with
  | table path entries metatable =>
    obtain ⟨t, rfl, _⟩ := begins
    exact ⟨_, rfl⟩
  | native path =>
    have named := Fixed.pathOf?_of_valueOf? begins
    cases o with
    | ref x => exact ⟨x, rfl⟩
    | _ => cases named
  | function code upvalues =>
    obtain ⟨id, c, rfl, _⟩ := begins
    exact ⟨_, rfl⟩

theorem Record.Begins.isTable {t : Nat} (begins : r.Begins code? (.table t)) : r.IsTable := by
  cases r with
  | table path entries metatable => exact .inl ⟨path, entries, metatable, rfl⟩
  | native path => exact .inr ⟨t, begins⟩
  | function code upvalues =>
    obtain ⟨id, c, is, _⟩ := begins
    cases is

theorem Record.Begins.captures {id : Nat} {c : Code} (begins : r.Begins code? (.closure id)) (here : code? id = some c) :
    r.captures = c.proto.captures.size := by
  cases r with
  | table path entries metatable =>
    obtain ⟨t, is, _⟩ := begins
    cases is
  | native path => cases Fixed.pathOf?_of_valueOf? begins
  | function code upvalues =>
    obtain ⟨id', c', is, here', loads⟩ := begins
    cases is
    cases here.symm.trans here'
    rw [Record.captures, loads]

theorem Record.Begins.library {p : String} (begins : r.Begins code? o) (path : Fixed.pathOf? o = some p)
    (other : ∀ id, o ≠ .closure id) : r.library? = some o := by
  cases r with
  | table path' entries metatable =>
    obtain ⟨t, rfl, known | ⟨_, new⟩⟩ := begins
    · exact known
    · cases path.symm.trans new
  | native path => exact begins
  | function code upvalues =>
    obtain ⟨id, c, is, _⟩ := begins
    exact absurd is (other id)

/-- The object of a record that names a library value is that value. -/
theorem Record.Begins.eq_library {v : Value} (begins : r.Begins code? o) (named : r.library? = some v) : o = v := by
  cases r with
  | table path entries metatable =>
    obtain ⟨t, rfl, known | ⟨none, _⟩⟩ := begins
    · exact Option.some.inj (known.symm.trans named)
    · cases none.symm.trans named
  | native path => exact Option.some.inj (Eq.trans (Eq.symm begins) named)
  | function code upvalues => cases named

variable (begins : List.Forall₂ (fun r o => Record.Begins code? o r) l os)
include begins

/-- Under a place stands an object just if there is a record. -/
theorem at_object (n : Nat) : (recordAt? l n = none ∧ (Reference.object n).at os = .nil) ∨
    ∃ r x, recordAt? l n = some r ∧ (Reference.object n).at os = .ref x ∧ r.Begins code? (.ref x) := by
  cases n with
  | zero => exact .inl ⟨rfl, rfl⟩
  | succ n =>
    have same : os.getD n .nil = (os[n]?).getD .nil := List.getD_eq_getElem?_getD
    by_cases bound : n < l.length
    · have bound' : n < os.length := begins.length_eq ▸ bound
      have one := begins.get bound bound'
      obtain ⟨x, is⟩ := Record.Begins.ref one
      refine .inr ⟨l[n], x, List.getElem?_eq_getElem bound, ?_, is ▸ one⟩
      show os.getD n .nil = _
      rw [same, List.getElem?_eq_getElem bound']
      exact is
    · refine .inl ⟨List.getElem?_eq_none (Nat.le_of_not_lt bound), ?_⟩
      show os.getD n .nil = _
      rw [same, List.getElem?_eq_none (begins.length_eq ▸ Nat.le_of_not_lt bound)]
      rfl

theorem isKey_iff (x : Reference) : x.IsKey l ↔ (Key.ofValue? (x.at os)).isSome := by
  cases x with
  | nil => exact ⟨nofun, nofun⟩
  | float x =>
    show x.isNaN = false ↔ (Key.ofValue? (.float x)).isSome
    rw [isSome_ofValue?_float, Bool.not_eq_true']
  | object n =>
    show (recordAt? l n).isSome ↔ _
    obtain ⟨missing, nil⟩ | ⟨r, x, here, is, _⟩ := at_object begins n
    · rw [missing, nil]
      exact ⟨nofun, nofun⟩
    · rw [here, is]
      exact ⟨fun _ => rfl, fun _ => rfl⟩
  | _ => exact ⟨fun _ => rfl, fun _ => trivial⟩

/-- The variable that another one joins exists. -/
theorem wellFormed_join {owner index id : Nat} {c : Code} (is : (Reference.object owner).at os = .closure id)
    (here : code? id = some c) (positive : 1 ≤ index) (inside : index ≤ c.proto.captures.size) :
    (Upvalue.join owner index).WellFormed l := by
  obtain ⟨_, nil⟩ | ⟨r, x, found, is', begun⟩ := at_object begins owner
  · cases nil.symm.trans is
  · cases is'.symm.trans is
    exact ⟨r, found, positive, begun.captures here ▸ inside⟩

/-- What is found out about the objects was so in the listing. -/
theorem checked_of_filled (filled : ∀ (i : Nat) r o, l[i]? = some r → os[i]? = some o → r.Filled code? os o)
    (there : (Reference.object root.toNat).at os = .table Fixed.globals) : Checked l root := by
  constructor
  · obtain ⟨_, nil⟩ | ⟨r, x, here, is, begun⟩ := at_object begins root.toNat
    · cases nil.symm.trans there
    · cases is.symm.trans there
      exact ⟨r, here, begun.library (p := "") rfl nofun⟩
  · intro r mem
    obtain ⟨i, bound, rfl⟩ := List.getElem_of_mem mem
    have bound' : i < os.length := begins.length_eq ▸ bound
    have begun : Record.Begins code? os[i] l[i] := begins.get bound bound'
    have contents := filled i _ _ (List.getElem?_eq_getElem bound) (List.getElem?_eq_getElem bound')
    generalize l[i] = r at begun contents
    generalize os[i] = o at begun contents
    show Record.Checked l r
    cases r with
    | table path entries metatable =>
      obtain ⟨keys, named⟩ := contents
      obtain ⟨t, rfl, known⟩ := begun
      refine ⟨fun p mem v is => ?_, fun e mem => (isKey_iff begins e.1).mpr (keys e mem), fun m mem => ?_⟩
      · have is' : path.bind Fixed.valueOf? = some v := by rw [Option.mem_def.mp mem, Option.bind_some, is]
        obtain known | ⟨none, _⟩ := known
        · exact ⟨t, Option.some.inj (is'.symm.trans known)⟩
        · cases none.symm.trans is'
      · have nilOrTable := named m mem
        cases m with
        | nil => exact .inl rfl
        | object n =>
          refine .inr ⟨n, rfl, fun r here => ?_⟩
          obtain ⟨missing, _⟩ | ⟨r', x, here', is, begun'⟩ := at_object begins n
          · cases missing.symm.trans here
          · obtain rfl := Option.some.inj (here.symm.trans here')
            rw [is] at nilOrTable
            obtain nil | ⟨t', table⟩ := nilOrTable
            · cases nil
            · rw [table] at begun'
              exact begun'.isTable
        | _ =>
          obtain nil | ⟨t', table⟩ := nilOrTable
          · cases nil
          · cases table
    | native path => exact ⟨o, begun⟩
    | function code upvalues =>
      obtain ⟨id, c, rfl, here, loads⟩ := begun
      refine ⟨c, loads, fun i owner index found => ?_⟩
      obtain ⟨⟨id', c', is, here', inside⟩, id'', c'', is'', here'', positive, inside'⟩ := contents i _ found
      cases is
      cases here.symm.trans here'
      exact ⟨inside, wellFormed_join begins is'' here'' positive inside'⟩

end Objects

end LuaCapsule.Snapshot
