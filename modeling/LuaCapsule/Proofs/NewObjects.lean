import LuaCapsule.Proofs.Description
import LuaCapsule.Snapshot.Rebuild

/-! The first pass of a rebuild. Every record of a listing that describes some heap gets an
object: library values are the same as there, and all else is new. The objects are distinct,
tables are empty, and no two captured variables share a cell. -/

namespace LuaCapsule.Snapshot

open Lua

/-! ### What a pass leaves alone -/

/-- No two captured variables are one, and all are there. -/
structure Separate (g : Heap) : Prop where
  inside : ∀ c i x : Nat, (g.closure c).upvalues[i]? = some x → x < g.cells.size
  apart : ∀ c d i j x : Nat, (g.closure c).upvalues[i]? = some x → (g.closure d).upvalues[j]? = some x →
    c = d ∧ i = j

/-- Has a table no entries? -/
def Empty (g : Heap) (t : Nat) : Prop := ∀ k, (g.table t).get k = .nil

/-- A heap with more objects, in which tables get no entries and functions stay the same. -/
structure Extends (g g' : Heap) : Prop where
  tables : g.tables.size ≤ g'.tables.size
  absent : ∀ t < g.tables.size, ∀ k, (g.table t).get k = .nil → (g'.table t).get k = .nil
  closures : g.closures.size ≤ g'.closures.size
  closure : ∀ c < g.closures.size, g'.closure c = g.closure c

theorem Extends.refl (g : Heap) : Extends g g := ⟨le_rfl, fun _ _ _ absent => absent, le_rfl, fun _ _ => rfl⟩

theorem Extends.trans {g g' g'' : Heap} (first : Extends g g') (second : Extends g' g'') : Extends g g'' where
  tables := first.tables.trans second.tables
  absent := fun t inside k absent => second.absent t (inside.trans_le first.tables) k (first.absent t inside k absent)
  closures := first.closures.trans second.closures
  closure := fun c inside =>
    (second.closure c (inside.trans_le first.closures)).trans (first.closure c inside)

/-- An object can be filled in from a record. -/
inductive Ready (g : Heap) : Record → Ref → Prop
  | table {t : Nat} {path : Option String} {es : List (Reference × Reference)} {m : Option Reference}
    (inside : t < g.tables.size) (named : path = Fixed.pathOf? (.table t)) (empty : Empty g t) :
    Ready g (.table path es m) (.table t)
  | native {r : Ref} {p : String} (path : Fixed.pathOf? (.ref r) = some p) (leaf : 2 ≤ r.sort) :
    Ready g (.native p) r
  | function {c : Nat} {code : Bytes} {us : List Upvalue} (inside : c < g.closures.size)
    (dumped : code = (g.closure c).code.dump) (size : us.length = (g.closure c).upvalues.size) :
    Ready g (.function code us) (.closure c)

theorem Ready.later {g g' : Heap} {rec : Record} {o : Ref} (ready : Ready g rec o) (extends' : Extends g g') :
    Ready g' rec o := by
  cases ready with
  | table inside named empty =>
    exact .table (inside.trans_le extends'.tables) named fun k => extends'.absent _ inside k (empty k)
  | native path leaf => exact .native path leaf
  | function inside dumped size =>
    refine .function (inside.trans_le extends'.closures) ?_ ?_
    · rw [extends'.closure _ inside, dumped]
    · rw [extends'.closure _ inside, size]

/-! ### One object -/

/-- The object made for a record that describes an object of another heap: the same one if it is
a library value, and one that was not there before otherwise. -/
structure Made (g g' : Heap) (r o : Ref) : Prop where
  library : Fixed.pathOf? (.ref r) ≠ none → o = r
  table : ∀ t, o = .table t → Fixed.pathOf? (.ref r) = none → g.tables.size ≤ t ∧ t < g'.tables.size
  closure : ∀ c, o = .closure c → g.closures.size ≤ c ∧ c < g'.closures.size
  sort : o.sort = r.sort
  leaf : 2 ≤ r.sort → Fixed.pathOf? (.ref r) ≠ none

theorem Made.earlier {g₀ g g' : Heap} {r o : Ref} (made : Made g g' r o) (extends' : Extends g₀ g) : Made g₀ g' r o where
  library := made.library
  table := fun t is new => ⟨extends'.tables.trans (made.table t is new).1, (made.table t is new).2⟩
  closure := fun c is => ⟨extends'.closures.trans (made.closure c is).1, (made.closure c is).2⟩
  sort := made.sort
  leaf := made.leaf

theorem Made.later {g g' g'' : Heap} {r o : Ref} (made : Made g g' r o) (extends' : Extends g' g'') : Made g g'' r o where
  library := made.library
  table := fun t is new => ⟨(made.table t is new).1, (made.table t is new).2.trans_le extends'.tables⟩
  closure := fun c is => ⟨(made.closure c is).1, (made.closure c is).2.trans_le extends'.closures⟩
  sort := made.sort
  leaf := made.leaf

variable {h g : Heap} {objs : List Ref} {owner : Nat → Nat × Nat} {l : Listing}

theorem libraryTable?_path {t : Nat} {p : String} (path : Fixed.pathOf? (.table t) = some p) :
    libraryTable? p = some t := by
  rw [libraryTable?, Fixed.valueOf?_path path]

theorem libraryLeaf?_path {r : Ref} {p : String} (path : Fixed.pathOf? (.ref r) = some p) (leaf : 2 ≤ r.sort) :
    libraryLeaf? p = some r := by
  rw [libraryLeaf?, Fixed.valueOf?_path path]
  cases r with
  | table t => simp [Ref.sort, Ref.rank] at leaf
  | _ => rfl

/-- Only the first tables have paths. -/
theorem lt_of_path {t : Nat} {p : String} (path : Fixed.pathOf? (.table t) = some p) :
    t < Fixed.tablePaths.length :=
  (List.getElem?_eq_some_iff.mp path).1

theorem extends_cleared (g : Heap) (t : Nat) : Extends g (g.modifyTable t Table.cleared) where
  tables := by simp [Heap.modifyTable]
  absent := by
    intro t' _ k absent
    rw [Heap.table_modifyTable]
    split
    · exact Table.get_cleared _ k
    · exact absent
  closures := le_rfl
  closure := fun _ _ => rfl

theorem extends_newTable (g : Heap) (t : Table) : Extends g (g.newTable t).2 where
  tables := by simp [Heap.newTable]
  absent := by
    intro t' inside k absent
    rw [Heap.table_newTable, if_neg (by omega)]
    exact absent
  closures := le_rfl
  closure := fun _ _ => rfl

theorem extends_newFunction (g : Heap) (c : Code) : Extends g (g.newFunction c).2 where
  tables := le_rfl
  absent := fun _ _ _ absent => absent
  closures := by simp [Heap.newFunction, Heap.newClosure]
  closure := fun id inside => g.closure_newFunction c id (by omega)

theorem separate_newFunction (separate : Separate g) (c : Code) : Separate (g.newFunction c).2 := by
  have size : (g.newFunction c).2.cells.size = g.cells.size + c.proto.captures.size := by
    simp [Heap.newFunction, Heap.newClosure]
  constructor
  · intro d i x captured
    rw [size]
    by_cases new : d = g.closures.size
    · rw [new, Heap.upvalues_newFunction] at captured
      omega
    · rw [g.closure_newFunction c d new] at captured
      have := separate.inside d i x captured
      omega
  · intro d e i j x left right
    by_cases first : d = g.closures.size
    · rw [first, Heap.upvalues_newFunction] at left
      by_cases second : e = g.closures.size
      · rw [second, Heap.upvalues_newFunction] at right
        exact ⟨first.trans second.symm, by omega⟩
      · rw [g.closure_newFunction c e second] at right
        have := separate.inside e j x right
        omega
    · rw [g.closure_newFunction c d first] at left
      have := separate.inside d i x left
      by_cases second : e = g.closures.size
      · rw [second, Heap.upvalues_newFunction] at right
        omega
      · rw [g.closure_newFunction c e second] at right
        exact separate.apart d e i j x left right

/-- A record that describes an object gets an object of its own. -/
theorem object?_spec {n : Nat} {r : Ref} {rec : Record} (separate : Separate g)
    (library : Fixed.tablePaths.length ≤ g.tables.size) (record : Records h objs owner n r rec) :
    ∃ o g', object? g rec = some (o, g') ∧ Made g g' r o ∧ Ready g' rec o ∧ Separate g' ∧ Extends g g' := by
  cases record with
  | @table id path es m kvs named _ _ _ =>
    have notLeaf : 2 ≤ (Ref.table id).sort → Fixed.pathOf? (.table id) ≠ none := by simp [Ref.sort, Ref.rank]
    cases path with
    | some p =>
      have inside : id < g.tables.size := (lt_of_path named.symm).trans_le library
      refine ⟨.table id, g.modifyTable id Table.cleared, ?_, ⟨fun _ => rfl, ?_, by simp, rfl, notLeaf⟩, ?_,
        ⟨separate.inside, separate.apart⟩, extends_cleared g id⟩
      · rw [object?, libraryTable?_path named.symm]
        rfl
      · intro t is new
        cases named.trans new
      · refine .table (by simpa [Heap.modifyTable] using inside) named fun k => ?_
        rw [Heap.table_modifyTable, if_pos ⟨rfl, inside⟩, Table.get_cleared]
    | none =>
      have more : (g.newTable {}).2.tables.size = g.tables.size + 1 := by simp [Heap.newTable]
      refine ⟨.table g.tables.size, (g.newTable {}).2, rfl, ⟨?_, ?_, by simp, rfl, notLeaf⟩, ?_,
        ⟨separate.inside, separate.apart⟩, extends_newTable g {}⟩
      · exact fun known => absurd named.symm known
      · intro t is _
        rw [← Ref.table.inj is]
        omega
      · refine .table (by omega) ?_ fun k => ?_
        · exact (List.getElem?_eq_none library).symm
        · rw [Heap.table_newTable, if_pos rfl]
          exact Table.get_empty 0 0 k
  | native path leaf =>
    refine ⟨r, g, ?_, ⟨fun _ => rfl, ?_, ?_, rfl, fun _ => by simp [path]⟩, .native path leaf, separate, .refl g⟩
    · rw [object?, libraryLeaf?_path path leaf]
      rfl
    · intro t is _
      simp [is, Ref.sort, Ref.rank] at leaf
    · intro c is
      simp [is, Ref.sort, Ref.rank] at leaf
  | @function c code us dumped size each =>
    have notLeaf : 2 ≤ (Ref.closure c).sort → Fixed.pathOf? (.closure c) ≠ none := by simp [Ref.sort, Ref.rank]
    have more : (g.newFunction (h.closure c).code).2.closures.size = g.closures.size + 1 := by
      simp [Heap.newFunction, Heap.newClosure]
    refine ⟨.closure g.closures.size, (g.newFunction (h.closure c).code).2, ?_, ⟨?_, by simp, ?_, rfl, notLeaf⟩, ?_,
      separate_newFunction separate _, extends_newFunction g _⟩
    · rw [object?, dumped, Code.undump_dump]
      rfl
    · exact fun known => absurd rfl known
    · intro c' is
      rw [← Ref.closure.inj is]
      omega
    · have code := g.code_newFunction (h.closure c).code
      refine .function (by omega) ?_ ?_
      · rw [code, dumped]
      · rw [size, (h.closure c).sized, Closure.sized, code]

/-! ### All objects -/

/-- What has been made anew is no library value. -/
theorem Made.not_library {g g' : Heap} {r r' o : Ref} (made : Made g g' r o) (new : Fixed.pathOf? (.ref r) = none)
    (library : Fixed.tablePaths.length ≤ g.tables.size) (known : Fixed.pathOf? (.ref r') ≠ none) : o ≠ r' := by
  intro same
  subst same
  cases o with
  | table t =>
    have := (made.table t rfl new).1
    exact known (List.getElem?_eq_none (by omega))
  | closure c => exact known rfl
  | _ => exact made.leaf (made.sort ▸ by simp [Ref.sort, Ref.rank]) new

/-- An object is not made twice. -/
theorem Made.ne {g g₁ g' : Heap} {r r' o o' : Ref} (made : Made g g₁ r o) (made' : Made g₁ g' r' o')
    (library : Fixed.tablePaths.length ≤ g.tables.size) (extends₁ : Extends g g₁) (other : r ≠ r') : o ≠ o' := by
  intro same
  by_cases known : Fixed.pathOf? (.ref r) = none
  · by_cases known' : Fixed.pathOf? (.ref r') = none
    · cases o with
      | table t =>
        have := (made.table t rfl known).2
        have := (made'.table t same.symm known').1
        omega
      | closure c =>
        have := (made.closure c rfl).2
        have := (made'.closure c same.symm).1
        omega
      | _ => exact made.leaf (made.sort ▸ by simp [Ref.sort, Ref.rank]) known
    · exact made.not_library known library known' (same.trans (made'.library known'))
  · by_cases known' : Fixed.pathOf? (.ref r') = none
    · exact made'.not_library known' (library.trans extends₁.tables) known (same.symm.trans (made.library known))
    · exact other ((made.library known).symm.trans (same.trans (made'.library known')))

/-- Every record of a listing that describes a heap gets an object of its own. -/
theorem objects?_spec (separate : Separate g) (library : Fixed.tablePaths.length ≤ g.tables.size)
    {rs : List Ref} (nodup : rs.Nodup) (records : List.Forall₂ (fun r rec => ∃ n, Records h objs owner n r rec) rs l) :
    ∃ os g', objects? g l = some (os, g') ∧ List.Forall₂ (Made g g') rs os ∧ List.Forall₂ (Ready g') l os ∧
      os.Nodup ∧ Separate g' ∧ Extends g g' := by
  induction records generalizing g with
  | nil => exact ⟨[], g, rfl, .nil, .nil, List.nodup_nil, separate, .refl g⟩
  | @cons r rec rs l record _ ih =>
    obtain ⟨n, record⟩ := record
    obtain ⟨o, g₁, first, made, ready, separate₁, extends₁⟩ := object?_spec separate library record
    obtain ⟨os, g', others, mades, readies, distinct, separate', extends₂⟩ :=
      ih separate₁ (library.trans extends₁.tables) (List.nodup_cons.mp nodup).2
    refine ⟨o :: os, g', ?_, .cons (made.later extends₂) (mades.imp fun _ _ made => made.earlier extends₁),
      .cons (ready.later extends₂) readies, List.nodup_cons.mpr ⟨?_, distinct⟩, separate', extends₁.trans extends₂⟩
    · rw [objects?, first]
      change (objects? g₁ l).bind _ = _
      rw [others]
      rfl
    · intro mem
      obtain ⟨r', mem', made'⟩ := (exists_beside mades).2 o mem
      exact made.ne made' library extends₁ (fun same => (List.nodup_cons.mp nodup).1 (same ▸ mem')) rfl

end LuaCapsule.Snapshot
