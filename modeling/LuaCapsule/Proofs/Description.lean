import LuaCapsule.Proofs.Graph
import LuaCapsule.Proofs.BinaryForm
import LuaCapsule.Proofs.LibraryPaths
import LuaCapsule.Snapshot.Record
import Mathlib.Data.List.Nodup

/-! When a listing describes a heap: some objects stand for its records, place by place, and
every record says what its object holds. Of the captured variables one mention each owns the
variable, and all others join it. Two heaps with one description are the same but for the names
of their objects. -/

namespace LuaCapsule.Snapshot

open Lua

/-- What a reference stands for among objects, the first of which has place 1. -/
inductive Denotes (objs : List Ref) : Reference → Value → Prop
  | nil : Denotes objs .nil .nil
  | bool (b : Bool) : Denotes objs (.bool b) (.bool b)
  | int (i : Int64) : Denotes objs (.int i) (.int i)
  | float {x y : Binary64} (same : x = y ∨ x.isNaN = true ∧ y.isNaN = true) :
    Denotes objs (.float x) (.float y)
  | text (s : String) : Denotes objs (.text s) (.str (Bytes.ofString s))
  | bytes (b : Bytes) : Denotes objs (.bytes b) (.str b)
  | object {n : Nat} {r : Ref} (here : objs[n]? = some r) : Denotes objs (.object (n + 1)) (.ref r)

/-- An entry of a listed table stands for a key and a value. -/
def DenotesEntry (objs : List Ref) (e : Reference × Reference) (kv : Key × Value) : Prop :=
  Denotes objs e.1 kv.1.value ∧ Denotes objs e.2 kv.2

/-- A reference to a metatable stands for it, if there is one. -/
def DenotesMetatable (objs : List Ref) : Option Reference → Option Nat → Prop :=
  Option.Rel fun r id => Denotes objs r (.table id)

/-- The captured variable at a position of the function at a place, as it is listed. A mention
of a variable gives the place and the position where the variable is owned. -/
structure DenotesUpvalue (h : Heap) (objs : List Ref) (owner : Nat → Nat × Nat) (n i cell : Nat)
    (u : Upvalue) : Prop where
  owned : owner cell = (n, i) → ∃ r, u = .value r ∧ Denotes objs r (h.cell cell)
  joined : owner cell ≠ (n, i) → u = .join (owner cell).1 (owner cell).2
  owns : ∃ o j c, owner cell = (o + 1, j + 1) ∧ objs[o]? = some (.closure c) ∧
    (h.closure c).upvalues[j]? = some cell

/-- A record says what the object at its place holds. -/
inductive Records (h : Heap) (objs : List Ref) (owner : Nat → Nat × Nat) (n : Nat) : Ref → Record → Prop
  | table {id : Nat} {path : Option String} {es : List (Reference × Reference)} {m : Option Reference}
    {kvs : List (Key × Value)} (named : path = Fixed.pathOf? (.table id))
    (entries : kvs.Perm (h.table id).toList) (each : List.Forall₂ (DenotesEntry objs) es kvs)
    (metatable : DenotesMetatable objs m (h.table id).metatable) :
    Records h objs owner n (.table id) (.table path es m)
  | native {r : Ref} {p : String} (path : Fixed.pathOf? (.ref r) = some p) (leaf : 2 ≤ r.sort) :
    Records h objs owner n r (.native p)
  | function {id : Nat} {code : Bytes} {us : List Upvalue} (dumped : code = (h.closure id).code.dump) (size : us.length = (h.closure id).upvalues.size)
    (each : ∀ i u cell, us[i]? = some u → (h.closure id).upvalues[i]? = some cell →
      DenotesUpvalue h objs owner n (i + 1) cell u) :
    Records h objs owner n (.closure id) (.function code us)

/-- A listing says what some objects of a heap hold, of which the global table is the first. -/
structure Describes (h : Heap) (objs : List Ref) (owner : Nat → Nat × Nat) (l : Listing) : Prop where
  nodup : objs.Nodup
  root : objs[0]? = some (.table Fixed.globals)
  length : l.length = objs.length
  records : ∀ n r rec, objs[n]? = some r → l[n]? = some rec → Records h objs owner (n + 1) r rec

/-! ### Renaming by place -/

/-- The object of other objects that has the same place. -/
def rename (objs objs' : List Ref) (r : Ref) : Ref := objs'.getD (objs.idxOf r) r

section Two

variable {h h' : Heap} {objs objs' : List Ref} {owner owner' : Nat → Nat × Nat} {l : Listing}

theorem rename_eq (nodup : objs.Nodup) {n : Nat} {r r' : Ref} (here : objs[n]? = some r)
    (there : objs'[n]? = some r') : rename objs objs' r = r' := by
  obtain ⟨bound, rfl⟩ := List.getElem?_eq_some_iff.mp here
  rw [rename, List.Nodup.idxOf_getElem nodup, List.getD_eq_getElem?_getD, there, Option.getD_some]

theorem rename_inj (nodup : objs.Nodup) (nodup' : objs'.Nodup) (same : objs.length = objs'.length) :
    ∀ r ∈ objs, ∀ s ∈ objs, rename objs objs' r = rename objs objs' s → r = s := by
  intro r hr s hs equal
  obtain ⟨n, bound, rfl⟩ := List.getElem_of_mem hr
  obtain ⟨m, bound', rfl⟩ := List.getElem_of_mem hs
  have there := List.getElem?_eq_getElem (same ▸ bound)
  have there' := List.getElem?_eq_getElem (same ▸ bound')
  rw [rename_eq nodup (List.getElem?_eq_getElem bound) there,
    rename_eq nodup (List.getElem?_eq_getElem bound') there'] at equal
  obtain rfl := (List.Nodup.getElem_inj_iff nodup').mp equal
  rfl

/-- What one reference denotes among both lists of objects is renamed by place. -/
theorem Denotes.renamed (nodup : objs.Nodup) {x : Reference} {v v' : Value} (d : Denotes objs x v)
    (d' : Denotes objs' x v') : Value.Renamed (rename objs objs') v v' := by
  cases d with
  | nil => cases d'; exact .nil
  | bool b => cases d'; exact .bool b
  | int i => cases d'; exact .int i
  | text s => cases d'; exact .str _
  | bytes b => cases d'; exact .str _
  | float same =>
    cases d' with
    | float same' =>
      refine .float ?_
      rcases same with rfl | ⟨odd, odd₁⟩
      · rcases same' with rfl | ⟨odd, odd₂⟩
        · exact .inl rfl
        · exact .inr ⟨odd, odd₂⟩
      · rcases same' with rfl | ⟨_, odd₂⟩
        · exact .inr ⟨odd₁, odd⟩
        · exact .inr ⟨odd₁, odd₂⟩
  | object here =>
    cases d' with
    | object there => exact rename_eq nodup here there ▸ .ref _

theorem rename_key {f : Ref → Ref} {k k' : Key} (same : Value.Renamed f k.value k'.value) : k.rename f = k' := by
  cases k with
  | float x own =>
    cases k' with
    | float y own' =>
      cases same with
      | float same =>
        rcases same with rfl | ⟨odd, _⟩
        · rfl
        · rw [Binary64.isNaN_eq_false own] at odd
          cases odd
    | _ => cases same
  | bool b =>
    cases k' <;> cases same
    rfl
  | int i =>
    cases k' <;> cases same
    rfl
  | str b =>
    cases k' <;> cases same
    rfl
  | ref r =>
    cases k' <;> cases same
    rfl

/-- The entries that two tables have for one list of listed entries, side by side. -/
theorem entries_side_by_side (nodup : objs.Nodup) {es : List (Reference × Reference)} {kvs kvs' : List (Key × Value)}
    (each : List.Forall₂ (DenotesEntry objs) es kvs) (each' : List.Forall₂ (DenotesEntry objs') es kvs') :
    List.Forall₂ (fun kv kv' => kv.1.rename (rename objs objs') = kv'.1 ∧
      Value.Renamed (rename objs objs') kv.2 kv'.2) kvs kvs' := by
  induction each generalizing kvs' with
  | nil => cases each'; exact .nil
  | cons first _ ih =>
    cases each' with
    | cons first' others' =>
      exact .cons ⟨rename_key (first.1.renamed nodup first'.1), first.2.renamed nodup first'.2⟩ (ih others')

theorem exists_beside {α β : Type} {R : α → β → Prop} {as : List α} {bs : List β} (h : List.Forall₂ R as bs) :
    (∀ a ∈ as, ∃ b ∈ bs, R a b) ∧ ∀ b ∈ bs, ∃ a ∈ as, R a b := by
  induction h with
  | nil => simp
  | cons first _ ih =>
    constructor
    · intro a mem
      rcases List.mem_cons.mp mem with rfl | mem
      · exact ⟨_, List.mem_cons_self .., first⟩
      · obtain ⟨b, place, related⟩ := ih.1 a mem
        exact ⟨b, List.mem_cons_of_mem _ place, related⟩
    · intro b mem
      rcases List.mem_cons.mp mem with rfl | mem
      · exact ⟨_, List.mem_cons_self .., first⟩
      · obtain ⟨a, place, related⟩ := ih.2 b mem
        exact ⟨a, List.mem_cons_of_mem _ place, related⟩

/-- The metatables that two tables have for one reference. -/
theorem metatable_beside (nodup : objs.Nodup) {m : Option Reference} {a b : Option Nat}
    (named : DenotesMetatable objs m a) (named' : DenotesMetatable objs' m b) :
    b.map Ref.table = a.map fun id => rename objs objs' (.table id) := by
  cases named with
  | none =>
    cases named'
    rfl
  | some denotes =>
    cases named' with
    | some denotes' =>
      cases denotes with
      | object here =>
        cases denotes' with
        | object there => exact congrArg some (rename_eq nodup here there).symm

/-- Tables with one place have the same entries and metatables. -/
theorem table_beside (nodup : objs.Nodup) {t t' : Nat} {n : Nat} {rec : Record} (record : Records h objs owner n (.table t) rec)
    (record' : Records h' objs' owner' n (.table t') rec) :
    Table.Renamed (rename objs objs') (h.table t) (h'.table t') := by
  cases record with
  | native _ leaf => simp [Ref.sort, Ref.rank] at leaf
  | table _ entries each metatable =>
    cases record' with
    | table _ entries' each' metatable' =>
      obtain ⟨forward, back⟩ := exists_beside (entries_side_by_side nodup each each')
      refine ⟨?_, ?_, metatable_beside nodup metatable metatable'⟩
      · intro k present
        have mem := entries.mem_iff.mpr (Table.mem_toList.mpr ⟨rfl, present⟩)
        obtain ⟨⟨k', v'⟩, mem', key, value⟩ := forward _ mem
        obtain ⟨found, _⟩ := Table.mem_toList.mp (entries'.mem_iff.mp mem')
        dsimp only at key value
        rw [key, found]
        exact value
      · intro k' present
        have mem' := entries'.mem_iff.mpr (Table.mem_toList.mpr ⟨rfl, present⟩)
        obtain ⟨⟨k, v⟩, mem, key, _⟩ := back _ mem'
        obtain ⟨found, some⟩ := Table.mem_toList.mp (entries.mem_iff.mp mem)
        exact ⟨k, key, found ▸ some⟩

theorem map_eq_of_forall₂ {α β γ : Type} {R : α → β → Prop} {f : α → γ} {f' : β → γ} {as : List α} {bs : List β}
    (each : List.Forall₂ R as bs) (same : ∀ a b, R a b → f a = f' b) : as.map f = bs.map f' := by
  induction each with
  | nil => rfl
  | cons first _ ih => rw [List.map_cons, List.map_cons, same _ _ first, ih]

/-! ### What is described -/

theorem Denotes.mem {x : Reference} {r : Ref} (d : Denotes objs x (.ref r)) : r ∈ objs := by
  cases d with
  | object here => exact List.mem_of_getElem? here

/-- The record that stands for an object. -/
theorem Describes.record (d : Describes h objs owner l) {n : Nat} {r : Ref} (here : objs[n]? = some r) :
    ∃ rec, l[n]? = some rec ∧ Records h objs owner (n + 1) r rec := by
  have bound : n < l.length := by
    rw [d.length]
    exact (List.getElem?_eq_some_iff.mp here).1
  exact ⟨_, List.getElem?_eq_getElem bound, d.records n r _ here (List.getElem?_eq_getElem bound)⟩

/-- A captured variable of a described function as it is listed. -/
theorem Describes.upvalue (d : Describes h objs owner l) {n c i cell : Nat} (here : objs[n]? = some (.closure c))
    (captured : (h.closure c).upvalues[i]? = some cell) :
    ∃ us u, l[n]? = some (.function (h.closure c).code.dump us) ∧ us[i]? = some u ∧
      DenotesUpvalue h objs owner (n + 1) (i + 1) cell u := by
  obtain ⟨rec, listed, record⟩ := d.record here
  cases record with
  | native _ leaf => simp [Ref.sort, Ref.rank] at leaf
  | @function _ _ us dumped size each =>
    subst dumped
    have bound : i < us.length := by
      rw [size]
      exact (Array.getElem?_eq_some_iff.mp captured).1
    exact ⟨us, us[i], listed, List.getElem?_eq_getElem bound,
      each i _ cell (List.getElem?_eq_getElem bound) captured⟩

/-- The value of a captured variable is listed where the variable is owned. -/
theorem Describes.owned (d : Describes h objs owner l) {n c i cell : Nat} (here : objs[n]? = some (.closure c))
    (captured : (h.closure c).upvalues[i]? = some cell) :
    ∃ o j code us x, owner cell = (o + 1, j + 1) ∧ l[o]? = some (.function code us) ∧
      us[j]? = some (.value x) ∧ Denotes objs x (h.cell cell) := by
  obtain ⟨_, _, _, _, mention⟩ := d.upvalue here captured
  obtain ⟨o, j, c', own, there, captured'⟩ := mention.owns
  obtain ⟨us, u, listed, place, mention'⟩ := d.upvalue there captured'
  obtain ⟨x, rfl, denotes⟩ := mention'.owned own
  exact ⟨o, j, _, us, x, own, listed, place, denotes⟩

/-- Objects that a described object holds are described. -/
theorem Describes.mem_of_holds (d : Describes h objs owner l) {r r' : Ref} {v : Value} (mem : r ∈ objs)
    (held : h.Holds r v) (object : v = .ref r') : r' ∈ objs := by
  obtain ⟨n, here⟩ := List.getElem?_of_mem mem
  obtain ⟨rec, _, record⟩ := d.record here
  cases held with
  | @key t k present =>
    cases record with
    | native _ leaf => simp [Ref.sort, Ref.rank] at leaf
    | table _ entries each _ =>
      have place := entries.mem_iff.mpr (Table.mem_toList.mpr ⟨rfl, present⟩)
      obtain ⟨e, _, denotes⟩ := (exists_beside each).2 _ place
      exact (object ▸ denotes.1).mem
  | @value t k =>
    cases record with
    | native _ leaf => simp [Ref.sort, Ref.rank] at leaf
    | table _ entries each _ =>
      have present : (h.table t).get k ≠ .nil := by
        rw [object]
        rintro ⟨⟩
      have place := entries.mem_iff.mpr (Table.mem_toList.mpr ⟨rfl, present⟩)
      obtain ⟨e, _, denotes⟩ := (exists_beside each).2 _ place
      exact (object ▸ denotes.2).mem
  | @metatable t m named =>
    cases record with
    | native _ leaf => simp [Ref.sort, Ref.rank] at leaf
    | table _ _ _ metatable =>
      rw [named] at metatable
      cases metatable with
      | some denotes =>
        obtain rfl := Value.ref.inj object
        exact denotes.mem
  | @captured c i cell captured =>
    obtain ⟨_, _, _, _, x, _, _, _, denotes⟩ := d.owned here captured
    exact (object ▸ denotes).mem

theorem Describes.mem_of_reaches (d : Describes h objs owner l) {r : Ref} (reached : h.Reaches r) : r ∈ objs := by
  induction reached with
  | root => exact List.mem_of_getElem? d.root
  | step _ held ih => exact d.mem_of_holds ih held rfl

/-! ### Two heaps with one description -/

theorem dump_inj {c c' : Code} (same : c.dump = c'.dump) : c = c' := by
  have read := Code.undump_dump c
  rw [same, Code.undump_dump] at read
  exact (Except.ok.inj read).symm

/-- Where a variable is owned can be read off the listing. -/
theorem owner_eq {n i x x' : Nat} {u : Upvalue} (m : DenotesUpvalue h objs owner n i x u)
    (m' : DenotesUpvalue h' objs' owner' n i x' u) : owner x = owner' x' := by
  by_cases own : owner x = (n, i)
  · by_cases own' : owner' x' = (n, i)
    · rw [own, own']
    · obtain ⟨_, value, _⟩ := m.owned own
      rw [m'.joined own'] at value
      cases value
  · by_cases own' : owner' x' = (n, i)
    · obtain ⟨_, value, _⟩ := m'.owned own'
      rw [m.joined own] at value
      cases value
    · have same := (m.joined own).symm.trans (m'.joined own')
      injection same with place position
      exact Prod.ext place position

/-- Variables are one when they are owned at one place. -/
theorem eq_iff_owner_eq {n n' i j x y : Nat} {u u' : Upvalue} (m : DenotesUpvalue h objs owner n i x u)
    (m' : DenotesUpvalue h objs owner n' j y u') : x = y ↔ owner x = owner y := by
  refine ⟨congrArg owner, fun same => ?_⟩
  obtain ⟨o, k, c, own, here, captured⟩ := m.owns
  obtain ⟨o', k', c', own', here', captured'⟩ := m'.owns
  rw [own, own'] at same
  obtain ⟨rfl, rfl⟩ : o = o' ∧ k = k' := by simpa using same
  rw [here] at here'
  obtain rfl := Ref.closure.inj (Option.some.inj here')
  exact Option.some.inj (captured.symm.trans captured')

section Both

variable (d : Describes h objs owner l) (d' : Describes h' objs' owner' l)
include d d'

/-- A described object and the one with its place in the other heap. -/
theorem beside {r : Ref} (mem : r ∈ objs) : ∃ n r' rec, objs[n]? = some r ∧ objs'[n]? = some r' ∧
    l[n]? = some rec ∧ rename objs objs' r = r' ∧ Records h objs owner (n + 1) r rec ∧
    Records h' objs' owner' (n + 1) r' rec := by
  obtain ⟨n, here⟩ := List.getElem?_of_mem mem
  obtain ⟨rec, listed, record⟩ := d.record here
  have bound : n < objs'.length := by
    rw [← d'.length]
    exact (List.getElem?_eq_some_iff.mp listed).1
  have there := List.getElem?_eq_getElem bound
  exact ⟨n, _, rec, here, there, listed, rename_eq d.nodup here there, record, d'.records n _ rec there listed⟩

/-- One record says what an object and its renamed one hold. -/
theorem beside_records {r r' : Ref} (mem : r ∈ objs) (there : rename objs objs' r = r') :
    ∃ n rec, Records h objs owner n r rec ∧ Records h' objs' owner' n r' rec := by
  obtain ⟨n, s, rec, _, _, _, renamed, record, record'⟩ := beside d d' mem
  obtain rfl := renamed.symm.trans there
  exact ⟨n + 1, rec, record, record'⟩

/-- A captured variable and the one with its position in the function with its place. -/
theorem upvalue_beside {n c c' i cell : Nat} (here : objs[n]? = some (.closure c))
    (there : objs'[n]? = some (.closure c')) (captured : (h.closure c).upvalues[i]? = some cell) :
    ∃ cell' u, (h'.closure c').upvalues[i]? = some cell' ∧ DenotesUpvalue h objs owner (n + 1) (i + 1) cell u ∧
      DenotesUpvalue h' objs' owner' (n + 1) (i + 1) cell' u := by
  obtain ⟨us, u, listed, place, mention⟩ := d.upvalue here captured
  cases d'.records n _ _ there listed with
  | function _ size each =>
    have bound : i < (h'.closure c').upvalues.size := by
      rw [← size]
      exact (List.getElem?_eq_some_iff.mp place).1
    have captured' := Array.getElem?_eq_getElem bound
    exact ⟨_, u, captured', mention, each i u _ place captured'⟩

/-- Captured variables with one place and position have the same value. -/
theorem cell_beside {n c c' i x x' : Nat} (here : objs[n]? = some (.closure c))
    (there : objs'[n]? = some (.closure c')) (captured : (h.closure c).upvalues[i]? = some x)
    (captured' : (h'.closure c').upvalues[i]? = some x') :
    Value.Renamed (rename objs objs') (h.cell x) (h'.cell x') := by
  obtain ⟨x₁, u, found, mention, mention'⟩ := upvalue_beside d d' here there captured
  obtain rfl := Option.some.inj (found.symm.trans captured')
  obtain ⟨o, j, _, _, r, own, listed, place, denotes⟩ := d.owned here captured
  obtain ⟨o', j', _, _, r', own', listed', place', denotes'⟩ := d'.owned there captured'
  have same := own.symm.trans ((owner_eq mention mention').trans own')
  obtain ⟨rfl, rfl⟩ : o = o' ∧ j = j' := by simpa using same
  obtain ⟨rfl, rfl⟩ := Record.function.inj (Option.some.inj (listed.symm.trans listed'))
  obtain rfl := Upvalue.value.inj (Option.some.inj (place.symm.trans place'))
  exact denotes.renamed d.nodup denotes'

/-- Objects with one place are of one sort, and have the same path. -/
theorem sort_beside {n : Nat} {r r' : Ref} (here : objs[n]? = some r) (there : objs'[n]? = some r') :
    r'.sort = r.sort ∧ Fixed.pathOf? (.ref r') = Fixed.pathOf? (.ref r) := by
  obtain ⟨rec, listed, record⟩ := d.record here
  have record' := d'.records n r' rec there listed
  cases record with
  | table named =>
    cases record' with
    | table named' => exact ⟨rfl, named'.symm.trans named⟩
  | native path =>
    cases record' with
    | native path' =>
      obtain rfl := Value.ref.inj (Fixed.path_inj path path')
      exact ⟨rfl, rfl⟩
  | function =>
    cases record' with
    | function => exact ⟨rfl, rfl⟩

theorem table_of_beside {n t : Nat} {r' : Ref} (here : objs[n]? = some (.table t)) (there : objs'[n]? = some r') :
    ∃ t', r' = .table t' := by
  have sort := (sort_beside d d' here there).1
  cases r' with
  | table t' => exact ⟨t', rfl⟩
  | _ => simp [Ref.sort, Ref.rank] at sort

theorem closure_of_beside {n c : Nat} {r' : Ref} (here : objs[n]? = some (.closure c))
    (there : objs'[n]? = some r') : ∃ c', r' = .closure c' := by
  have sort := (sort_beside d d' here there).1
  cases r' with
  | closure c' => exact ⟨c', rfl⟩
  | _ => simp [Ref.sort, Ref.rank] at sort

/-- What an object holds is held, renamed, by the object with its place. -/
theorem holds_rename {r r' : Ref} {v : Value} (mem : r ∈ objs) (held : h.Holds r v) (object : v = .ref r') :
    h'.Holds (rename objs objs' r) (.ref (rename objs objs' r')) := by
  obtain ⟨n, s, rec, here, there, listed, renamed, record, record'⟩ := beside d d' mem
  rw [renamed]
  cases held with
  | @key t k present =>
    obtain ⟨t', rfl⟩ := table_of_beside d d' here there
    have value := (table_beside d.nodup record record').get k present
    have present' := value.ne_nil present
    cases k with
    | ref r =>
      obtain rfl := Value.ref.inj object
      exact .key (k := .ref (rename objs objs' r)) present'
    | _ => cases object
  | @value t k =>
    obtain ⟨t', rfl⟩ := table_of_beside d d' here there
    have value := (table_beside d.nodup record record').get k (by rw [object]; exact nofun)
    have held' := Heap.Holds.value (h := h') (t := t') (k.rename (rename objs objs'))
    rw [object] at value
    cases same : (h'.table t').get (k.rename (rename objs objs')) with
    | ref r =>
      rw [same] at value held'
      cases value
      exact held'
    | _ =>
      rw [same] at value
      cases value
  | @metatable t m named =>
    obtain ⟨t', rfl⟩ := table_of_beside d d' here there
    obtain rfl := Value.ref.inj object
    have both := (table_beside d.nodup record record').metatable
    rw [named, Option.map_some, Option.map_eq_some_iff] at both
    obtain ⟨m', named', same⟩ := both
    rw [← same]
    exact .metatable named'
  | @captured c i cell captured =>
    obtain ⟨c', rfl⟩ := closure_of_beside d d' here there
    obtain ⟨cell', u, captured', _⟩ := upvalue_beside d d' here there captured
    have value := cell_beside d d' here there captured captured'
    have held' := Heap.Holds.captured (h := h') captured'
    rw [object] at value
    cases same : h'.cell cell' with
    | ref r =>
      rw [same] at value held'
      cases value
      exact held'
    | _ =>
      rw [same] at value
      cases value

theorem reaches_rename {r : Ref} (reached : h.Reaches r) : h'.Reaches (rename objs objs' r) := by
  induction reached with
  | root =>
    rw [rename_eq d.nodup d.root d'.root]
    exact .root
  | step here held ih => exact .step ih (holds_rename d d' (d.mem_of_reaches here) held rfl)

/-- Two heaps that one listing describes differ in the names of their objects only. -/
theorem isomorphism_of_describes (reached : ∀ r ∈ objs, h.Reaches r) : h.Isomorphism h' (rename objs objs') := by
  have mem {r : Ref} (here : h.Reaches r) : r ∈ objs := d.mem_of_reaches here
  have injective := rename_inj d.nodup d'.nodup (d.length.symm.trans d'.length)
  have tables (t t' : Nat) (here : h.Reaches (.table t)) (there : rename objs objs' (.table t) = .table t') :
      Table.Renamed (rename objs objs') (h.table t) (h'.table t') := by
    obtain ⟨n, rec, record, record'⟩ := beside_records d d' (mem here) there
    exact table_beside d.nodup record record'
  refine ⟨⟨fun r here => reaches_rename d d' here, fun r hr s hs => injective r (mem hr) s (mem hs), ?_⟩,
    rename_eq d.nodup d.root d'.root, ?_, ?_, ?_, ?_, ?_, ?_⟩
  · intro r' there
    obtain ⟨n, place⟩ := List.getElem?_of_mem (d'.mem_of_reaches there)
    have bound : n < objs.length := by
      rw [← d.length, d'.length]
      exact (List.getElem?_eq_some_iff.mp place).1
    have here := List.getElem?_eq_getElem bound
    exact ⟨objs[n], reached _ (List.getElem_mem bound), rename_eq d.nodup here place⟩
  · intro r here
    obtain ⟨n, r', _, place, place', _, rfl, _⟩ := beside d d' (mem here)
    exact (sort_beside d d' place place').2
  · intro r here
    obtain ⟨n, r', _, place, place', _, rfl, _⟩ := beside d d' (mem here)
    exact (sort_beside d d' place place').1
  · exact tables
  · intro c c' here there
    obtain ⟨_, _, record, record'⟩ := beside_records d d' (mem here) there
    cases record with
    | native _ leaf => simp [Ref.sort, Ref.rank] at leaf
    | function dumped =>
      cases record' with
      | function dumped' => exact dump_inj (dumped'.symm.trans dumped)
  · intro c c' here there i x x' captured captured'
    obtain ⟨n, r', _, place, place', _, renamed, _⟩ := beside d d' (mem here)
    obtain rfl := renamed.symm.trans there
    exact cell_beside d d' place place' captured captured'
  · intro c e c' e' hc he hc' he' i j x y x' y' cx cy cx' cy'
    obtain ⟨n, _, _, place, place', _, renamed, _⟩ := beside d d' (mem hc)
    obtain rfl := renamed.symm.trans hc'
    obtain ⟨m, _, _, other, other', _, renamed, _⟩ := beside d d' (mem he)
    obtain rfl := renamed.symm.trans he'
    obtain ⟨x₁, u, found, mx, mx'⟩ := upvalue_beside d d' place place' cx
    obtain rfl := Option.some.inj (found.symm.trans cx')
    obtain ⟨y₁, w, found, my, my'⟩ := upvalue_beside d d' other other' cy
    obtain rfl := Option.some.inj (found.symm.trans cy')
    rw [eq_iff_owner_eq mx my, eq_iff_owner_eq mx' my', owner_eq mx mx', owner_eq my my']

end Both

end Two

end LuaCapsule.Snapshot
