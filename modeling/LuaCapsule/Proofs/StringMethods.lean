import LuaCapsule.Proofs.RoundTrip

/-! The methods of strings after a restore. Method calls on strings go through a metatable that an
interpreter keeps beside its global table, and a snapshot is of what can be reached from the global
table only. An interpreter that is read back has the library's own metatable of strings, with what
the snapshot says of it and of what it leads to, and as it was at the beginning if the snapshot
says nothing. -/

namespace LuaCapsule

open Lua

namespace Snapshot

/-! ### What a rebuild leaves alone -/

/-- A heap with more tables, in which some of those that were there are as they were, and the types
have the metatables that they had. -/
structure Spares (spared : Nat → Prop) (g g' : Heap) : Prop where
  metatables : g'.metatables = g.metatables
  size : g.tables.size ≤ g'.tables.size
  table : ∀ t < g.tables.size, spared t → g'.table t = g.table t

section

variable {spared spared' : Nat → Prop} {g g' g'' : Heap} {objects : Array Ref}

theorem Spares.refl (spared : Nat → Prop) (g : Heap) : Spares spared g g := ⟨rfl, le_rfl, fun _ _ _ => rfl⟩

theorem Spares.trans (first : Spares spared g g') (second : Spares spared g' g'') : Spares spared g g'' where
  metatables := second.metatables.trans first.metatables
  size := first.size.trans second.size
  table := fun t inside kept =>
    (second.table t (inside.trans_le first.size) kept).trans (first.table t inside kept)

theorem Spares.weaken (spares : Spares spared g g') (fewer : ∀ t, spared' t → spared t) : Spares spared' g g' :=
  ⟨spares.metatables, spares.size, fun t inside kept => spares.table t inside (fewer t kept)⟩

theorem Spares.of_tables (metatables : g'.metatables = g.metatables) (tables : g'.tables = g.tables) :
    Spares spared g g' :=
  ⟨metatables, tables ▸ le_rfl, fun t _ _ => by rw [Heap.table, tables, Heap.table]⟩

theorem spares_modifyTable (g : Heap) (t : Nat) (f : Table → Table) : Spares (· ≠ t) g (g.modifyTable t f) where
  metatables := rfl
  size := by simp [Heap.modifyTable]
  table := by
    intro t' _ other
    rw [Heap.table_modifyTable, if_neg fun here => other here.1.symm]

theorem spares_newTable (g : Heap) (t : Table) : Spares spared g (g.newTable t).2 where
  metatables := rfl
  size := by simp [Heap.newTable]
  table := by
    intro t' inside _
    rw [Heap.table_newTable, if_neg (Nat.ne_of_lt inside)]

/-- Does no record of a listing stand for a library table? -/
def Omits (l : Listing) (t : Nat) : Prop :=
  ∀ path es m, Record.table (some path) es m ∈ l → libraryTable? path ≠ some t

/-- The first pass clears the library tables that are listed, and no others. -/
theorem object?_spares {rec : Record} {o : Ref} (made : object? g rec = some (o, g')) :
    Spares (Omits [rec]) g g' ∧ ∀ t < g.tables.size, Omits [rec] t → o ≠ .table t := by
  cases rec with
  | table path es m =>
    cases path with
    | some path =>
      cases found : libraryTable? path with
      | none => simp [object?, found] at made
      | some id =>
        have other {t : Nat} (absent : Omits [.table (some path) es m] t) : t ≠ id := by
          rintro rfl
          exact absent path es m (List.mem_singleton.mpr rfl) found
        simp only [object?, found, Option.bind_eq_bind, Option.bind_some, Option.pure_def, Option.some.injEq,
          Prod.mk.injEq] at made
        obtain ⟨rfl, rfl⟩ := made
        refine ⟨(spares_modifyTable g id _).weaken fun t absent => other absent, fun t _ absent same => ?_⟩
        exact other absent (Ref.table.inj same).symm
    | none =>
      simp only [object?, Option.some.injEq, Prod.mk.injEq] at made
      obtain ⟨rfl, rfl⟩ := made
      exact ⟨spares_newTable g {}, fun t inside _ same => Nat.ne_of_gt inside (Ref.table.inj same)⟩
  | native path =>
    cases found : libraryLeaf? path with
    | none => simp [object?, found] at made
    | some r =>
      simp only [object?, found, Option.bind_eq_bind, Option.bind_some, Option.pure_def, Option.some.injEq,
        Prod.mk.injEq] at made
      obtain ⟨rfl, rfl⟩ := made
      refine ⟨.refl _ _, fun t _ _ same => ?_⟩
      subst same
      unfold libraryLeaf? at found
      split at found <;> simp_all
  | function code us =>
    rw [object?] at made
    split at made
    next c _ =>
      simp only [Option.some.injEq, Prod.mk.injEq] at made
      obtain ⟨rfl, rfl⟩ := made
      exact ⟨.of_tables rfl rfl, fun t _ _ same => by cases same⟩
    next => cases made

theorem objects?_spares {l : Listing} {os : List Ref} (made : objects? g l = some (os, g')) :
    Spares (Omits l) g g' ∧ ∀ t < g.tables.size, Omits l t → .table t ∉ os := by
  induction l generalizing g os with
  | nil =>
    obtain ⟨rfl, rfl⟩ := Prod.mk.inj (Option.some.inj made)
    exact ⟨.refl _ _, fun _ _ _ => List.not_mem_nil⟩
  | cons rec l ih =>
    rw [objects?, Option.bind_eq_bind, Option.bind_eq_some_iff] at made
    obtain ⟨⟨o, g₁⟩, first, made⟩ := made
    rw [Option.bind_eq_bind, Option.bind_eq_some_iff] at made
    obtain ⟨⟨os', g₂⟩, others, made⟩ := made
    obtain ⟨rfl, rfl⟩ := Prod.mk.inj (Option.some.inj made)
    obtain ⟨spares, distinct⟩ := object?_spares first
    obtain ⟨spares', distinct'⟩ := ih others
    have head {t : Nat} (absent : Omits (rec :: l) t) : Omits [rec] t := fun path es m mem =>
      absent path es m (List.mem_singleton.mp mem ▸ List.mem_cons_self)
    have tail {t : Nat} (absent : Omits (rec :: l) t) : Omits l t := fun path es m mem =>
      absent path es m (List.mem_cons_of_mem _ mem)
    refine ⟨(spares.weaken fun _ => head).trans (spares'.weaken fun _ => tail), fun t inside absent mem => ?_⟩
    rcases List.mem_cons.mp mem with same | mem
    · exact distinct t inside (head absent) same.symm
    · exact distinct' t (inside.trans_le spares.size) (tail absent) mem

theorem fillUpvalues?_spares {id i : Nat} {us : List Upvalue} (filled : fillUpvalues? objects id i g us = some g') :
    Spares spared g g' := by
  induction us generalizing g i with
  | nil =>
    obtain rfl := Option.some.inj filled
    exact .refl _ _
  | cons u us ih =>
    cases u with
    | join owner index =>
      simp only [fillUpvalues?, Option.bind_eq_bind, Option.bind_eq_some_iff, Option.pure_def, Option.some.injEq] at filled
      obtain ⟨x, _, g₁, rfl, others⟩ := filled
      exact (Spares.of_tables (by rfl) (by rfl)).trans (ih others)
    | value r =>
      simp only [fillUpvalues?, Option.bind_eq_bind, Option.bind_eq_some_iff, Option.pure_def, Option.some.injEq] at filled
      obtain ⟨_, _, x, _, v, _, g₁, rfl, others⟩ := filled
      exact (Spares.of_tables (by rfl) (by rfl)).trans (ih others)

/-- The second pass changes the tables that are its objects only. -/
theorem fill?_spares {rec : Record} {o : Ref} (filled : fill? objects g rec o = some g') :
    Spares (fun t => o ≠ .table t) g g' := by
  unfold fill? at filled
  split at filled
  next id =>
    split at filled
    · cases filled
    · simp only [Option.bind_eq_bind, Option.bind_eq_some_iff, Option.pure_def, Option.some.injEq] at filled
      obtain ⟨t, _, m, _, rfl⟩ := filled
      exact (spares_modifyTable g id _).weaken fun t' other same => other (same ▸ rfl)
  next =>
    obtain rfl := Option.some.inj filled
    exact .refl _ _
  next id =>
    rw [Option.bind_eq_bind, Option.bind_eq_some_iff] at filled
    obtain ⟨c, _, filled⟩ := filled
    split at filled
    · cases filled
    · exact fillUpvalues?_spares filled
  next => cases filled

theorem fillAll?_spares {rest : List (Record × Ref)} (filled : fillAll? objects g rest = some g') :
    Spares (fun t => ∀ p ∈ rest, p.2 ≠ .table t) g g' := by
  induction rest generalizing g with
  | nil =>
    obtain rfl := Option.some.inj filled
    exact .refl _ _
  | cons first rest ih =>
    obtain ⟨rec, o⟩ := first
    rw [fillAll?, Option.bind_eq_bind, Option.bind_eq_some_iff] at filled
    obtain ⟨g₁, one, others⟩ := filled
    refine ((fill?_spares one).weaken fun t absent => ?_).trans ((ih others).weaken fun t absent => ?_)
    · exact absent (rec, o) List.mem_cons_self
    · exact fun p mem => absent p (List.mem_cons_of_mem _ mem)

/-- A rebuild leaves the library tables alone that are not listed, and the metatables of types. -/
theorem rebuild?_spares {l : Listing} {root : Nat} (rebuilt : rebuild? g root l = some g') :
    Spares (Omits l) g g' := by
  rw [rebuild?, Option.bind_eq_bind, Option.bind_eq_some_iff] at rebuilt
  obtain ⟨⟨os, g₁⟩, made, rebuilt⟩ := rebuilt
  dsimp only at rebuilt
  split at rebuilt
  · cases rebuilt
  · obtain ⟨spares, distinct⟩ := objects?_spares made
    refine ⟨?_, ?_, ?_⟩
    · exact (fillAll?_spares rebuilt).metatables.trans spares.metatables
    · exact spares.size.trans (fillAll?_spares rebuilt).size
    · intro t inside absent
      rw [(fillAll?_spares rebuilt).table t (inside.trans_le spares.size), spares.table t inside absent]
      rintro ⟨rec, o⟩ mem rfl
      exact distinct t inside absent (List.of_mem_zip mem).2

end

/-- A library table that is not among the objects of a listing is as it was at the beginning. -/
theorem Describes.table_eq {h' : Heap} {os : List Ref} {owner : Nat → Nat × Nat} {l : Listing}
    (d : Describes h' os owner l) {root : Nat} (rebuilt : rebuild? Fixed.heap root l = some h') {t : Nat}
    (path : Fixed.pathOf? (.table t) ≠ none) (absent : .table t ∉ os) : h'.table t = Fixed.heap.table t := by
  have inside : t < Fixed.heap.tables.size := by
    obtain ⟨p, known⟩ := Option.ne_none_iff_exists'.mp path
    exact (lt_of_path known).trans_le (by decide)
  refine (rebuild?_spares rebuilt).table t inside fun p es m mem found => absent ?_
  obtain ⟨n, listed⟩ := List.getElem?_of_mem mem
  have bound : n < os.length := d.length ▸ (List.getElem?_eq_some_iff.mp listed).1
  have here := List.getElem?_eq_getElem bound
  cases same : os[n] with
  | table id =>
    rw [same] at here
    cases d.records n _ _ here listed with
    | table named =>
      rw [libraryTable?_path named.symm] at found
      exact Option.some.inj found ▸ List.mem_of_getElem? here
  | _ =>
    rw [same] at here
    cases d.records n _ _ here listed

end Snapshot

/-! ### The objects behind the methods of strings -/

namespace Lua

namespace Heap

/-- The objects that can be reached from the metatable of strings. -/
inductive Serves (h : Heap) : Ref → Prop
  | root {m : Nat} (named : h.metatables.string = some m) : Serves h (.table m)
  | step {r r' : Ref} (here : Serves h r) (held : h.Holds r (.ref r')) : Serves h r'

/-- A renaming keeps what some objects of a heap are and hold. -/
structure Keeps (h h' : Heap) (f : Ref → Ref) (S : Set Ref) : Prop where
  path : ∀ r ∈ S, Fixed.pathOf? (.ref (f r)) = Fixed.pathOf? (.ref r)
  sort : ∀ r ∈ S, (f r).sort = r.sort
  table : ∀ t t' : Nat, .table t ∈ S → f (.table t) = .table t' → Table.Renamed f (h.table t) (h'.table t')
  code : ∀ c c' : Nat, .closure c ∈ S → f (.closure c) = .closure c' → (h'.closure c').code = (h.closure c).code
  captured : ∀ c c' : Nat, .closure c ∈ S → f (.closure c) = .closure c' → ∀ i x x' : Nat,
    (h.closure c).upvalues[i]? = some x → (h'.closure c').upvalues[i]? = some x' →
    Value.Renamed f (h.cell x) (h'.cell x')
  /-- Two captured variables are one in the one heap exactly when they are in the other. -/
  shared : ∀ c d c' d' : Nat, .closure c ∈ S → .closure d ∈ S → f (.closure c) = .closure c' →
    f (.closure d) = .closure d' → ∀ i j x y x' y' : Nat,
    (h.closure c).upvalues[i]? = some x → (h.closure d).upvalues[j]? = some y →
    (h'.closure c').upvalues[i]? = some x' → (h'.closure d').upvalues[j]? = some y' → (x = y ↔ x' = y')

/-- A renaming of the objects of one heap that makes another one of them, as far as can be seen
from strings. -/
structure SameMethods (h h' : Heap) (f : Ref → Ref) : Prop where
  objects : Set.BijOn f {r | h.Serves r} {r | h'.Serves r}
  root : h'.metatables.string.map Ref.table = h.metatables.string.map fun m => f (.table m)
  keeps : h.Keeps h' f {r | h.Serves r}

/-- Is an object of the library as it was at the beginning? -/
structure Untouched (h : Heap) (r : Ref) : Prop where
  path : Fixed.pathOf? (.ref r) ≠ none
  get : ∀ t, r = .table t → ∀ k, (h.table t).get k = (Fixed.heap.table t).get k
  metatable : ∀ t, r = .table t → (h.table t).metatable = (Fixed.heap.table t).metatable

/-- Strings have the library's metatable, and all that it leads to can be reached from the global
table or is as it was at the beginning. -/
structure SavesMethods (h : Heap) : Prop where
  root : h.metatables.string = some Fixed.string
  saved : ∀ r, h.Serves r → h.Reaches r ∨ h.Untouched r

variable {h h' : Heap} {f : Ref → Ref}

/-- What a table holds is up to its entries and its metatable. -/
theorem Holds.of_table {t : Nat} {v : Value} (held : h.Holds (.table t) v)
    (get : ∀ k, (h'.table t).get k = (h.table t).get k) (metatable : (h'.table t).metatable = (h.table t).metatable) :
    h'.Holds (.table t) v := by
  cases held with
  | @key _ k present => exact .key (by rwa [get k])
  | value k =>
    rw [← get k]
    exact .value k
  | metatable named => exact .metatable (metatable.trans named)

end Heap

/-! ### Renaming library values -/

section

variable {f : Ref → Ref}

/-- What is renamed to a library value with its path is that value. -/
theorem Value.Renamed.eq_of_library {v v' : Value} (renamed : Value.Renamed f v v') (library : Fixed.isLibrary v' = true)
    (path : ∀ r, v = .ref r → Fixed.pathOf? (.ref (f r)) = Fixed.pathOf? (.ref r)) : v = v' := by
  cases renamed with
  | @float x y same =>
    rcases same with rfl | ⟨_, odd⟩
    · rfl
    · simp [Fixed.isLibrary, odd] at library
  | ref r =>
    obtain ⟨p, known⟩ := Option.isSome_iff_exists.mp library
    exact Fixed.path_inj ((path r rfl).symm.trans known) known
  | _ => rfl

theorem Key.eq_of_library {k : Key} (library : Fixed.isLibrary (k.rename f).value = true)
    (path : ∀ r, k.value = .ref r → Fixed.pathOf? (.ref (f r)) = Fixed.pathOf? (.ref r)) : k.rename f = k := by
  cases k with
  | ref r =>
    obtain ⟨p, known⟩ := Option.isSome_iff_exists.mp library
    exact congrArg Key.ref (Value.ref.inj (Fixed.path_inj known ((path r rfl).symm.trans known)))
  | _ => rfl

/-- A table that is renamed to one of the library has its entries, if objects with paths keep them. -/
theorem Table.Renamed.get_eq {t t' : Table} (renamed : Table.Renamed f t t')
    (library : ∀ k, t'.get k ≠ .nil → Fixed.isLibrary k.value = true ∧ Fixed.isLibrary (t'.get k) = true)
    (keys : ∀ k r, t.get k ≠ .nil → k.value = .ref r → Fixed.pathOf? (.ref (f r)) = Fixed.pathOf? (.ref r))
    (values : ∀ k r, t.get k = .ref r → Fixed.pathOf? (.ref (f r)) = Fixed.pathOf? (.ref r)) (k : Key) :
    t.get k = t'.get k := by
  by_cases absent : t.get k = .nil
  · by_contra other
    obtain ⟨k₀, rfl, present⟩ := renamed.keys k fun none => other (absent.trans none.symm)
    have there := (renamed.get k₀ present).ne_nil present
    rw [Key.eq_of_library (library _ there).1 fun r => keys k₀ r present] at absent
    exact present absent
  · have value := renamed.get k absent
    have there := value.ne_nil absent
    have same := Key.eq_of_library (library _ there).1 fun r => keys k r absent
    rw [same] at value there
    exact value.eq_of_library (library k there).2 fun r => values k r

/-- A table with the entries of one of the library is renamed to it, if library values are kept. -/
theorem Table.Renamed.of_library {t t' : Table} (get : ∀ k, t.get k = t'.get k) (metatable : t.metatable = t'.metatable)
    (none : t'.metatable = none)
    (library : ∀ k, t'.get k ≠ .nil → Fixed.isLibrary k.value = true ∧ Fixed.isLibrary (t'.get k) = true)
    (fixed : ∀ r, Fixed.pathOf? (.ref r) ≠ Option.none → f r = r) : Table.Renamed f t t' := by
  have rename {k : Key} (present : t'.get k ≠ .nil) : k.rename f = k := by
    have known := (library k present).1
    cases k with
    | ref r => exact congrArg Key.ref (fixed r (Option.isSome_iff_ne_none.mp known))
    | _ => rfl
  refine ⟨fun k present => ?_, fun k present => ⟨k, rename present, by rwa [get k]⟩, ?_⟩
  · rw [get k] at present ⊢
    rw [rename present]
    have known := (library k present).2
    generalize t'.get k = v at known
    cases v with
    | nil => exact .nil
    | bool b => exact .bool b
    | int i => exact .int i
    | float x => exact .float (.inl rfl)
    | str b => exact .str b
    | ref r =>
      have value := Value.Renamed.ref (f := f) r
      rwa [fixed r (Option.isSome_iff_ne_none.mp known)] at value
  · rw [metatable, none]
    rfl

end

end Lua

/-! ### The methods of strings after a restore -/

namespace Snapshot

variable {h h' : Heap} {objs os : List Ref} {owner owner' : Nat → Nat × Nat} {l : Listing} {f : Ref → Ref}

section

variable (d : Describes h objs owner l) (d' : Describes h' os owner' l)
include d d'

theorem rename_of_path {r : Ref} (path : Fixed.pathOf? (.ref r) ≠ none) : rename objs os r = r := by
  by_cases mem : r ∈ objs
  · obtain ⟨n, s, _, here, there, _, renamed, _⟩ := beside d d' mem
    obtain ⟨p, known⟩ := Option.ne_none_iff_exists'.mp path
    rw [renamed]
    exact Value.ref.inj (Fixed.path_inj ((sort_beside d d' here there).2.trans known) known)
  · rw [rename, List.idxOf_eq_length mem, ← d.length, d'.length]
    simp

/-- What can be listed or has a path keeps its path and its sort. -/
theorem path_rename {r : Ref} (known : r ∈ objs ∨ Fixed.pathOf? (.ref r) ≠ none) :
    Fixed.pathOf? (.ref (rename objs os r)) = Fixed.pathOf? (.ref r) ∧ (rename objs os r).sort = r.sort := by
  rcases known with mem | path
  · obtain ⟨n, s, _, here, there, _, rfl, _⟩ := beside d d' mem
    exact (sort_beside d d' here there).symm
  · rw [rename_of_path d d' path]
    exact ⟨rfl, rfl⟩

theorem rename_inj_known {r s : Ref} (left : r ∈ objs ∨ Fixed.pathOf? (.ref r) ≠ none)
    (right : s ∈ objs ∨ Fixed.pathOf? (.ref s) ≠ none) (same : rename objs os r = rename objs os s) : r = s := by
  have paths := (path_rename d d' left).1.symm.trans ((congrArg _ (congrArg _ same)).trans (path_rename d d' right).1)
  cases known : Fixed.pathOf? (.ref r) with
  | some p => exact Value.ref.inj (Fixed.path_inj known (paths.symm.trans known))
  | none =>
    have mem := left.resolve_right (not_not.mpr known)
    have mem' := right.resolve_right (not_not.mpr (paths.symm.trans known))
    exact rename_inj d.nodup d'.nodup (d.length.symm.trans d'.length) r mem s mem' same

/-- A library value is among the objects of both heaps or of none. -/
theorem mem_of_path {r : Ref} (path : Fixed.pathOf? (.ref r) ≠ none) (mem : r ∈ os) : r ∈ objs := by
  obtain ⟨n, s, _, here, there, _⟩ := beside d' d mem
  obtain ⟨p, known⟩ := Option.ne_none_iff_exists'.mp path
  obtain rfl := Value.ref.inj (Fixed.path_inj ((sort_beside d' d here there).2.trans known) known)
  exact List.mem_of_getElem? there

theorem rename_rename {r : Ref} (mem : r ∈ objs) : rename os objs (rename objs os r) = r := by
  obtain ⟨n, s, _, here, there, _, rfl, _⟩ := beside d d' mem
  exact rename_eq d'.nodup there here

end

/-- Of what is untouched only tables hold anything. -/
theorem table_of_untouched {r : Ref} {v : Value} (untouched : h.Untouched r) (held : h.Holds r v) : ∃ t, r = .table t := by
  cases held with
  | captured _ => exact absurd rfl untouched.path
  | _ => exact ⟨_, rfl⟩

/-- What untouched objects hold belongs to the library. -/
theorem path_of_untouched {r r' : Ref} (untouched : h.Untouched r) (held : h.Holds r (.ref r')) :
    Fixed.pathOf? (.ref r') ≠ none := by
  obtain ⟨t, rfl⟩ := table_of_untouched untouched held
  refine Fixed.path_of_holds untouched.path (held.of_table ?_ ?_)
  · exact fun k => (untouched.get t rfl k).symm
  · exact (untouched.metatable t rfl).symm

section

variable (d : Describes h objs owner l) (d' : Describes h' os owner' l)
  (fresh : ∀ t, Fixed.pathOf? (.table t) ≠ none → .table t ∉ os → h'.table t = Fixed.heap.table t)
include d d' fresh

/-- An untouched table that is not listed is the same in both heaps. -/
theorem table_of_unlisted {t : Nat} (untouched : h.Untouched (.table t)) (out : .table t ∉ objs) :
    h'.table t = Fixed.heap.table t :=
  fresh t untouched.path fun mem => out (mem_of_path d d' untouched.path mem)

theorem holds_of_unlisted {r : Ref} {v : Value} (untouched : h.Untouched r) (out : r ∉ objs) :
    h'.Holds r v ↔ h.Holds r v := by
  by_cases table : ∃ t, r = .table t
  · obtain ⟨t, rfl⟩ := table
    have same := table_of_unlisted d d' fresh untouched out
    constructor
    · exact fun held => held.of_table (fun k => by rw [same, untouched.get t rfl]) (by rw [same, untouched.metatable t rfl])
    · exact fun held => held.of_table (fun k => by rw [same, untouched.get t rfl]) (by rw [same, untouched.metatable t rfl])
  · constructor
    · intro held
      cases held with
      | captured _ => exact absurd rfl untouched.path
      | _ => exact absurd ⟨_, rfl⟩ table
    · exact fun held => absurd (table_of_untouched untouched held) table

variable (strings : h'.metatables.string = some Fixed.string)
include strings

/-- If the methods of strings are saved, both heaps have the same ones. -/
theorem sameMethods_of_saves (reached : ∀ r ∈ objs, h.Reaches r) (saves : h.SavesMethods) :
    h.SameMethods h' (rename objs os) := by
  have iso := isomorphism_of_describes d d' reached
  have known {r : Ref} (serves : h.Serves r) : r ∈ objs ∨ Fixed.pathOf? (.ref r) ≠ none :=
    (saves.saved r serves).imp d.mem_of_reaches Heap.Untouched.path
  have untouched {r : Ref} (serves : h.Serves r) (out : r ∉ objs) : h.Untouched r :=
    (saves.saved r serves).resolve_left fun here => out (d.mem_of_reaches here)
  have closure {c : Nat} (serves : h.Serves (.closure c)) : h.Reaches (.closure c) :=
    (saves.saved _ serves).resolve_right fun untouched => untouched.path rfl
  have root : rename objs os (.table Fixed.string) = .table Fixed.string := rename_of_path d d' (by decide)
  have forward {r r' : Ref} (serves : h.Serves r) (held : h.Holds r (.ref r')) :
      h'.Holds (rename objs os r) (.ref (rename objs os r')) := by
    by_cases mem : r ∈ objs
    · exact holds_rename d d' mem held rfl
    · have here := untouched serves mem
      rw [rename_of_path d d' here.path, rename_of_path d d' (path_of_untouched here held)]
      exact (holds_of_unlisted d d' fresh here mem).mpr held
  have back {r s' : Ref} (serves : h.Serves r) (held : h'.Holds (rename objs os r) (.ref s')) :
      ∃ s, h.Holds r (.ref s) ∧ rename objs os s = s' := by
    by_cases mem : r ∈ objs
    · obtain ⟨n, _, _, _, there, _, rfl, _⟩ := beside d d' mem
      have mem' := d'.mem_of_holds (List.mem_of_getElem? there) held rfl
      have held' := holds_rename d' d (List.mem_of_getElem? there) held rfl
      rw [rename_rename d d' mem] at held'
      exact ⟨_, held', rename_rename d' d mem'⟩
    · have here := untouched serves mem
      rw [rename_of_path d d' here.path] at held
      have held' := (holds_of_unlisted d d' fresh here mem).mp held
      exact ⟨s', held', rename_of_path d d' (path_of_untouched here held')⟩
  refine ⟨⟨?_, ?_, ?_⟩, ?_, ?_⟩
  · intro r serves
    induction serves with
    | root named =>
      obtain rfl := Option.some.inj (named.symm.trans saves.root)
      rw [root]
      exact .root strings
    | step here held ih => exact Heap.Serves.step ih (forward here held)
  · exact fun r hr s hs => rename_inj_known d d' (known hr) (known hs)
  · intro r' serves'
    induction serves' with
    | root named =>
      obtain rfl := Option.some.inj (named.symm.trans strings)
      exact ⟨_, .root saves.root, root⟩
    | step _ held ih =>
      obtain ⟨r, serves, rfl⟩ := ih
      obtain ⟨s, held', renamed⟩ := back serves held
      exact ⟨s, Heap.Serves.step serves held', renamed⟩
  · rw [strings, saves.root, Option.map_some, Option.map_some, root]
  · refine ⟨fun r serves => (path_rename d d' (known serves)).1, fun r serves => (path_rename d d' (known serves)).2,
      ?_, ?_, ?_, ?_⟩
    · intro t t' serves there
      by_cases mem : .table t ∈ objs
      · exact iso.table t t' (reached _ mem) there
      · have here := untouched serves mem
        obtain rfl := Ref.table.inj ((rename_of_path d d' here.path).symm.trans there)
        rw [table_of_unlisted d d' fresh here mem]
        exact .of_library (here.get t rfl) (here.metatable t rfl) (Fixed.metatable_eq_none here.path)
          (fun k => Fixed.isLibrary_entry here.path) fun r => rename_of_path d d'
    · exact fun c c' serves => iso.code c c' (closure serves)
    · exact fun c c' serves => iso.captured c c' (closure serves)
    · exact fun c e c' e' hc he => iso.shared c e c' e' (closure hc) (closure he)

/-- If both heaps have the same methods of strings, they are saved. -/
theorem saves_of_sameMethods (reached : ∀ r ∈ objs, h.Reaches r) (same : h.SameMethods h' f) : h.SavesMethods := by
  have root : h.metatables.string = some Fixed.string := by
    have renamed := same.root
    rw [strings, Option.map_some, eq_comm, Option.map_eq_some_iff] at renamed
    obtain ⟨m, named, there⟩ := renamed
    have path := same.keeps.path _ (.root named)
    rw [there] at path
    have known : Fixed.pathOf? (.table Fixed.string) = some "@string" := rfl
    obtain rfl := Ref.table.inj (Value.ref.inj (Fixed.path_inj (path.symm.trans known) known))
    exact named
  have library {r : Ref} (serves : h.Serves r) (path : Fixed.pathOf? (.ref r) ≠ none) : h.Reaches r ∨ h.Untouched r := by
    by_cases mem : r ∈ objs
    · exact .inl (reached r mem)
    · right
      have renamed (t : Nat) (is : r = .table t) : Table.Renamed f (h.table t) (Fixed.heap.table t) := by
        subst is
        obtain ⟨p, known⟩ := Option.ne_none_iff_exists'.mp path
        have kept := Value.ref.inj (Fixed.path_inj ((same.keeps.path _ serves).trans known) known)
        rw [← fresh t path fun mem' => mem (mem_of_path d d' path mem')]
        exact same.keeps.table t t serves kept
      refine ⟨path, ?_, ?_⟩
      · rintro t rfl
        refine (renamed t rfl).get_eq (fun k => Fixed.isLibrary_entry path) ?_ ?_
        · intro k r present key
          exact same.keeps.path r (Heap.Serves.step serves (key ▸ .key present))
        · intro k r value
          exact same.keeps.path r (Heap.Serves.step serves (value ▸ .value k))
      · rintro t rfl
        have metatable := (renamed t rfl).metatable
        rw [Fixed.metatable_eq_none path, Option.map_none, eq_comm, Option.map_eq_none_iff] at metatable
        rw [metatable, Fixed.metatable_eq_none path]
  refine ⟨root, fun r serves => ?_⟩
  induction serves with
  | root named =>
    obtain rfl := Option.some.inj (named.symm.trans root)
    exact library (.root root) (by decide)
  | step here held ih =>
    rcases ih with reaches | untouched
    · exact .inl (.step reaches held)
    · exact library (.step here held) (path_of_untouched untouched held)

end

/-- An interpreter is read back with what can be reached from its global table, and with the methods
of its strings exactly when these are saved. -/
theorem exists_restored {vm vm₁ : Vm} {blob : Bytes} (plain : vm.heap.PlainLists) (done : dumps vm = .ok blob vm₁) :
    ∃ vm' f, loads (.bytes blob) none = .ok vm' ∧ vm.heap.Isomorphism vm'.heap f ∧
      (vm.heap.SavesMethods → vm.heap.SameMethods vm'.heap f) ∧
      ∀ g, vm.heap.SameMethods vm'.heap g → vm.heap.SavesMethods := by
  obtain ⟨_, l, captured, fits, written⟩ := (dumps_eq_ok (isIdle_of_plainLists plain)).mp done
  obtain ⟨objs, owner, d, reached⟩ := describes_capture captured
  obtain ⟨h', os, owner', rebuilt, loaded, d', _⟩ := loads_write d plain.index fits written
  have fresh (t : Nat) (path : Fixed.pathOf? (.table t) ≠ none) (absent : .table t ∉ os) :=
    d'.table_eq rebuilt path absent
  have strings : h'.metatables.string = some Fixed.string := by
    rw [(rebuild?_spares rebuilt).metatables]
    rfl
  exact ⟨⟨h', none⟩, _, loaded, isomorphism_of_describes d.settled d' reached,
    sameMethods_of_saves d.settled d' fresh strings reached,
    fun _ => saves_of_sameMethods d.settled d' fresh strings reached⟩

/-! ### When they are saved -/

theorem held_string : ∀ r ∈ held (Fixed.heap.table Fixed.string), r = .table Fixed.strings ∨ 2 ≤ r.sort := by decide

theorem held_strings : ∀ r ∈ held (Fixed.heap.table Fixed.strings), 2 ≤ r.sort := by decide

/-- The methods are saved if their metatable can be reached from the global table, or else is as it
was at the beginning and so is the table of the string library, unless that can be reached. -/
theorem savesMethods_iff : h.SavesMethods ↔ h.metatables.string = some Fixed.string ∧
    (h.Reaches (.table Fixed.string) ∨ h.Untouched (.table Fixed.string) ∧
      (h.Reaches (.table Fixed.strings) ∨ h.Untouched (.table Fixed.strings))) := by
  have held {t : Nat} {r : Ref} (untouched : h.Untouched (.table t)) (holds : h.Holds (.table t) (.ref r)) :
      r ∈ held (Fixed.heap.table t) := by
    refine mem_held_iff.mpr (holds.of_table ?_ ?_)
    · exact fun k => (untouched.get t rfl k).symm
    · exact (untouched.metatable t rfl).symm
  constructor
  · intro saves
    refine ⟨saves.root, (saves.saved _ (.root saves.root)).imp_right fun untouched => ⟨untouched, ?_⟩⟩
    refine saves.saved _ (.step (.root saves.root) ?_)
    have index : (h.table Fixed.string).get (.text "__index") = .ref (.table Fixed.strings) := by
      rw [untouched.get _ rfl]
      decide
    rw [← index]
    exact .value _
  · rintro ⟨root, saved⟩
    have leaf {r : Ref} (path : Fixed.pathOf? (.ref r) ≠ none) (leaf : 2 ≤ r.sort) : h.Untouched r :=
      ⟨path, fun t is => by simp [is, Ref.sort, Ref.rank] at leaf, fun t is => by simp [is, Ref.sort, Ref.rank] at leaf⟩
    have all (r : Ref) (serves : h.Serves r) : h.Reaches r ∨ h.Untouched r ∧
        (r = .table Fixed.string ∧ (h.Reaches (.table Fixed.strings) ∨ h.Untouched (.table Fixed.strings)) ∨
          r = .table Fixed.strings ∨ 2 ≤ r.sort) := by
      induction serves with
      | root named =>
        obtain rfl := Option.some.inj (named.symm.trans root)
        exact saved.imp_right fun both => ⟨both.1, .inl ⟨rfl, both.2⟩⟩
      | @step r r' _ holds ih =>
        rcases ih with reached | ⟨untouched, ⟨rfl, strings⟩ | rfl | last⟩
        · exact .inl (.step reached holds)
        · rcases held_string r' (held untouched holds) with rfl | last
          · exact strings.imp_right fun untouched => ⟨untouched, .inr (.inl rfl)⟩
          · exact .inr ⟨leaf (path_of_untouched untouched holds) last, .inr (.inr last)⟩
        · have last := held_strings r' (held untouched holds)
          exact .inr ⟨leaf (path_of_untouched untouched holds) last, .inr (.inr last)⟩
        · obtain ⟨t, rfl⟩ := table_of_untouched untouched holds
          simp [Ref.sort, Ref.rank] at last
    exact ⟨root, fun r serves => (all r serves).imp_right And.left⟩

/-- A restored interpreter has the methods of strings of the one whose snapshot was taken exactly
when strings have the library's metatable and that metatable can be reached from the global table, or
it is as at the beginning and the table of the string library can be reached or is so, too. One
renaming is then enough for these and for all that can be reached from the global table. -/
theorem string_methods_restored {vm vm₁ : Vm} {blob : Bytes} (plain : vm.heap.PlainLists)
    (done : dumps vm = .ok blob vm₁) : ∃ vm', loads (.bytes blob) none = .ok vm' ∧
      ((∃ f, vm.heap.SameMethods vm'.heap f) ↔ vm.heap.metatables.string = some Fixed.string ∧
        (vm.heap.Reaches (.table Fixed.string) ∨ vm.heap.Untouched (.table Fixed.string) ∧
          (vm.heap.Reaches (.table Fixed.strings) ∨ vm.heap.Untouched (.table Fixed.strings)))) ∧
      ((∃ f, vm.heap.SameMethods vm'.heap f) → ∃ f, vm.heap.SameMethods vm'.heap f ∧ vm.heap.Isomorphism vm'.heap f) := by
  obtain ⟨vm', f, loaded, iso, same, saves⟩ := exists_restored plain done
  refine ⟨vm', loaded, ⟨?_, ?_⟩, ?_⟩
  · rintro ⟨g, methods⟩
    exact savesMethods_iff.mp (saves g methods)
  · exact fun saved => ⟨f, same (savesMethods_iff.mpr saved)⟩
  · rintro ⟨g, methods⟩
    exact ⟨f, same (saves g methods), iso⟩

/-! ### Programs -/

theorem untouched_of_toList {t : Nat} (path : Fixed.pathOf? (.table t) ≠ none)
    (entries : (h.table t).toList = (Fixed.heap.table t).toList)
    (metatable : (h.table t).metatable = (Fixed.heap.table t).metatable) : h.Untouched (.table t) where
  path := path
  get := by
    rintro _ ⟨⟩ k
    by_contra other
    have both (v : Value) : (h.table t).get k = v ∧ v ≠ .nil ↔ (Fixed.heap.table t).get k = v ∧ v ≠ .nil := by
      rw [← Table.mem_toList, entries, Table.mem_toList]
    by_cases absent : (h.table t).get k = .nil
    · exact other ((both _).mpr ⟨rfl, fun none => other (absent.trans none.symm)⟩).1
    · exact other ((both _).mp ⟨rfl, absent⟩).1.symm
  metatable := by
    rintro _ ⟨⟩
    exact metatable

set_option maxRecDepth 100000 in
theorem entries_shared : shared.heap.metatables.string = some Fixed.string ∧
    ∀ t ∈ [Fixed.string, Fixed.strings], (shared.heap.table t).toList = (Fixed.heap.table t).toList ∧
      (shared.heap.table t).metatable = (Fixed.heap.table t).metatable := by
  decide +kernel

/-- The program leaves the methods of strings alone, and they are there after a restore. -/
theorem string_methods_restored_shared : ∃ blob vm' f, shared.heap.PlainLists ∧ dumps shared = .ok blob shared ∧
    loads (.bytes blob) none = .ok vm' ∧ shared.heap.SameMethods vm'.heap f ∧ shared.heap.Isomorphism vm'.heap f := by
  have plain := plainLists_of_isReady isReady_shared
  obtain ⟨blob, done⟩ := exists_dumps isReady_shared
  obtain ⟨root, same⟩ := entries_shared
  have untouched (t : Nat) (mem : t ∈ [Fixed.string, Fixed.strings]) (path : Fixed.pathOf? (.table t) ≠ none) :=
    untouched_of_toList path (same t mem).1 (same t mem).2
  have string := untouched Fixed.string (by simp) (by decide)
  have strings := untouched Fixed.strings (by simp) (by decide)
  obtain ⟨vm', loaded, exactly, both⟩ := string_methods_restored plain done
  obtain ⟨f, methods, iso⟩ := both (exactly.mpr ⟨root, .inr ⟨string, .inr strings⟩⟩)
  exact ⟨blob, vm', f, plain, done, loaded, methods, iso⟩

/-- A program that gives strings a method of its own in place of all others. -/
def shouting : String :=
  "getmetatable('').__index = \x7bshout = function(s) return s .. '!' end\x7d function f(s) return s:shout() end"

/-- An interpreter after that program. -/
def shouter : Vm :=
  match Vm.load shouting ⟨Fixed.heap, none⟩ with
  | .ok _ vm => vm
  | .error _ vm => vm

set_option maxRecDepth 100000 in
theorem isReady_shouter : (Vm.load shouting ⟨Fixed.heap, none⟩ matches .ok _ _) = true ∧
    isReady shouter.heap = true ∧ .table Fixed.string ∉ mentioned shouter.heap ∧
    (shouter.heap.table Fixed.string).get (.text "__index") ≠ (Fixed.heap.table Fixed.string).get (.text "__index") := by
  decide +kernel

theorem load_shouter : Vm.load shouting ⟨Fixed.heap, none⟩ = .ok () shouter := by
  have ran := isReady_shouter.1
  unfold shouter
  generalize Vm.load shouting ⟨Fixed.heap, none⟩ = result at ran ⊢
  cases result with
  | ok _ vm => rfl
  | error _ _ => cases ran

/-- The method is lost in a restore. -/
theorem method_lost : ∃ vm blob vm', Vm.load shouting ⟨Fixed.heap, none⟩ = .ok () vm ∧ dumps vm = .ok blob vm ∧
    loads (.bytes blob) none = .ok vm' ∧ ¬∃ f, vm.heap.SameMethods vm'.heap f := by
  obtain ⟨_, ready, absent, changed⟩ := isReady_shouter
  obtain ⟨blob, done⟩ := exists_dumps ready
  obtain ⟨vm', _, loaded, _, _, saves⟩ := exists_restored (plainLists_of_isReady ready) done
  refine ⟨shouter, blob, vm', load_shouter, done, loaded, ?_⟩
  rintro ⟨f, methods⟩
  have saved := saves f methods
  rcases saved.saved _ (.root saved.root) with reached | untouched
  · exact absent (mentioned_of_reaches reached)
  · exact changed (untouched.get _ rfl _)

end Snapshot

end LuaCapsule
