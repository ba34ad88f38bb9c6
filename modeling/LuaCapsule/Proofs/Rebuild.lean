import LuaCapsule.Proofs.NewObjects

/-! The second pass of a rebuild. The new objects are filled in one after the other, and what a
listing says of them comes true: tables by their entries, captured variables by the cells that
they got in the first pass. A variable that is joined to another takes over that one's cell,
which never changes, since a variable that owns its cell is joined to none. -/

namespace LuaCapsule.Snapshot

open Lua

variable {h g g' : Heap} {objs os : List Ref} {owner : Nat → Nat × Nat} {l : Listing}

/-! ### References -/

/-- What stands for something among some objects does so among as many others. -/
theorem Denotes.elsewhere {x : Reference} {v : Value} (d : Denotes objs x v) (same : os.length = objs.length) :
    ∃ v', valueOf? os.toArray x = some v' ∧ Denotes os x v' := by
  cases d with
  | nil => exact ⟨_, rfl, .nil⟩
  | bool b => exact ⟨_, rfl, .bool b⟩
  | int i => exact ⟨_, rfl, .int i⟩
  | @float x y _ => exact ⟨_, rfl, .float (.inl rfl)⟩
  | text s => exact ⟨_, rfl, .text s⟩
  | bytes b => exact ⟨_, rfl, .bytes b⟩
  | @object n r here =>
    have bound : n < os.length := by
      rw [same]
      exact (List.getElem?_eq_some_iff.mp here).1
    refine ⟨.ref os[n], ?_, .object (List.getElem?_eq_getElem bound)⟩
    simp [valueOf?, bound]

/-- What stands for a name and for a key stands for that name as a key. -/
theorem Denotes.eq_text {x : Reference} {k : Key} {name : String} (d : Denotes objs x k.value)
    (named : x.isName name = true) : k = .text name := by
  cases x with
  | text s =>
    obtain rfl : s = name := by simpa [Reference.isName] using named
    cases k <;> cases d
    rfl
  | bytes b =>
    obtain rfl : b = Bytes.ofString name := of_decide_eq_true named
    cases k <;> cases d
    rfl
  | _ => cases named

theorem DenotesKey.elsewhere {x : Reference} {k : Key} (d : Denotes objs x k.value) (same : os.length = objs.length) :
    ∃ k', keyOf? os.toArray x = some k' ∧ Denotes os x k'.value := by
  obtain ⟨v, found, denotes⟩ := d.elsewhere same
  have key : ∃ k' : Key, k'.value = v := by
    cases k with
    | float y own =>
      cases d with
      | @float x _ equal =>
        rcases equal with rfl | ⟨_, odd⟩
        · exact ⟨.float x own, Option.some.inj found⟩
        · rw [Binary64.isNaN_eq_false own] at odd
          cases odd
    | ref r =>
      cases d with
      | object here =>
        cases denotes with
        | @object _ r' _ => exact ⟨.ref r', rfl⟩
    | bool b =>
      cases d
      exact ⟨.bool b, Option.some.inj found⟩
    | int i =>
      cases d
      exact ⟨.int i, Option.some.inj found⟩
    | str s =>
      cases d with
      | text t => exact ⟨.str (Bytes.ofString t), Option.some.inj found⟩
      | bytes => exact ⟨.str s, Option.some.inj found⟩
  obtain ⟨k', rfl⟩ := key
  exact ⟨k', by rw [keyOf?, found]; exact Key.ofValue?_value k', denotes⟩

/-- The entries of a table as they are read among objects. -/
def Reads (os : List Ref) (e : Reference × Reference) (kv : Key × Value) : Prop :=
  keyOf? os.toArray e.1 = some kv.1 ∧ valueOf? os.toArray e.2 = some kv.2

theorem entries_elsewhere {es : List (Reference × Reference)} {kvs : List (Key × Value)}
    (each : List.Forall₂ (DenotesEntry objs) es kvs) (same : os.length = objs.length) :
    ∃ kvs', List.Forall₂ (DenotesEntry os) es kvs' ∧ List.Forall₂ (Reads os) es kvs' := by
  induction each with
  | nil => exact ⟨[], .nil, .nil⟩
  | @cons e kv _ _ first _ ih =>
    obtain ⟨kvs', each', reads⟩ := ih
    obtain ⟨k, key, denotes⟩ := DenotesKey.elsewhere first.1 same
    obtain ⟨v, value, denotes'⟩ := first.2.elsewhere same
    exact ⟨(k, v) :: kvs', .cons ⟨denotes, denotes'⟩ each', .cons ⟨key, value⟩ reads⟩

theorem metatable_elsewhere {m : Option Reference} {id : Option Nat} (d : DenotesMetatable objs m id)
    (same : os.length = objs.length)
    (tables : ∀ n t : Nat, objs[n]? = some (Ref.table t) → ∃ t', os[n]? = some (Ref.table t')) :
    ∃ id', metatableOf? os.toArray m = some id' ∧ DenotesMetatable os m id' := by
  cases d with
  | none => exact ⟨none, rfl, .none⟩
  | some denotes =>
    obtain ⟨v, found, denotes'⟩ := denotes.elsewhere same
    cases denotes with
    | object here =>
      obtain ⟨t', there⟩ := tables _ _ here
      cases denotes' with
      | object there' =>
        obtain rfl := Option.some.inj (there.symm.trans there')
        exact ⟨some t', by rw [metatableOf?, found], .some (.object there)⟩

/-! ### Tables -/

/-- All entries of a list put into a table. -/
def setAll (t : Table) (kvs : List (Key × Value)) : Table := kvs.foldl (fun t kv => t.set kv.1 kv.2) t

theorem fillEntries?_eq {es : List (Reference × Reference)} {kvs : List (Key × Value)} (t : Table)
    (each : List.Forall₂ (Reads os) es kvs) : fillEntries? os.toArray t es = some (setAll t kvs) := by
  induction each generalizing t with
  | nil => rfl
  | @cons e kv es kvs first _ ih =>
    obtain ⟨k, v⟩ := e
    rw [fillEntries?, first.1, first.2]
    exact ih _

theorem get_setAll_of_not_mem {kvs : List (Key × Value)} {k : Key} (t : Table) (absent : ∀ kv ∈ kvs, kv.1 ≠ k) :
    (setAll t kvs).get k = t.get k := by
  induction kvs generalizing t with
  | nil => rfl
  | cons kv kvs ih =>
    have others := ih (t.set kv.1 kv.2) fun kv mem => absent kv (List.mem_cons_of_mem _ mem)
    rw [setAll, List.foldl_cons]
    rw [setAll] at others
    rw [others, Table.get_set, if_neg (absent kv (List.mem_cons_self ..))]

theorem get_setAll_of_mem {kvs : List (Key × Value)} {k : Key} {v : Value} (t : Table)
    (distinct : (kvs.map Prod.fst).Nodup) (mem : (k, v) ∈ kvs) : (setAll t kvs).get k = v := by
  induction kvs generalizing t with
  | nil => cases mem
  | cons kv kvs ih =>
    have tail := List.nodup_cons.mp distinct
    rw [setAll, List.foldl_cons]
    rcases List.mem_cons.mp mem with rfl | mem
    · have absent : ∀ kv ∈ kvs, kv.1 ≠ k := fun kv mem same =>
        tail.1 (List.mem_map.mpr ⟨kv, mem, same⟩)
      have others := get_setAll_of_not_mem (t.set k v) absent
      rw [setAll] at others
      rw [others, Table.get_set, if_pos rfl]
    · exact ih (t.set kv.1 kv.2) tail.2 mem

/-- An empty table gets just the entries that are put into it. -/
theorem perm_setAll {kvs : List (Key × Value)} {t : Table} (empty : ∀ k, t.get k = .nil)
    (distinct : (kvs.map Prod.fst).Nodup) (present : ∀ kv ∈ kvs, kv.2 ≠ .nil) :
    kvs.Perm (setAll t kvs).toList := by
  rw [List.perm_ext_iff_of_nodup (List.Nodup.of_map _ distinct) (List.Nodup.of_map _ (Table.nodup_keys _))]
  rintro ⟨k, v⟩
  rw [Table.mem_toList]
  constructor
  · exact fun mem => ⟨get_setAll_of_mem t distinct mem, present _ mem⟩
  · rintro ⟨found, some⟩
    by_cases known : ∃ v', (k, v') ∈ kvs
    · obtain ⟨v', mem⟩ := known
      rw [get_setAll_of_mem t distinct mem] at found
      exact found ▸ mem
    · have absent : ∀ kv ∈ kvs, kv.1 ≠ k := fun kv mem same => known ⟨kv.2, same ▸ mem⟩
      rw [get_setAll_of_not_mem t absent, empty] at found
      exact absurd found.symm some

/-! ### Captured variables -/

/-- The cell of a captured variable, by the place of the function and the position, counted from zero. -/
def slot (g : Heap) (os : List Ref) (n i : Nat) : Option Nat :=
  match os[n]? with
  | some (.closure c) => (g.closure c).upvalues[i]?
  | _ => none

/-- What a listing says of a captured variable. -/
def listed (l : Listing) (n i : Nat) : Option Upvalue :=
  match l[n]? with
  | some (.function _ us) => us[i]?
  | _ => none

theorem slot_eq {n i c : Nat} (here : os[n]? = some (.closure c)) : slot g os n i = (g.closure c).upvalues[i]? := by
  rw [slot, here]

theorem slot_eq_some {n i x : Nat} (found : slot g os n i = some x) :
    ∃ c, os[n]? = some (.closure c) ∧ (g.closure c).upvalues[i]? = some x := by
  unfold slot at found
  split at found
  next c here => exact ⟨c, here, found⟩
  next => cases found

theorem listed_eq_some {n i : Nat} {u : Upvalue} (found : listed l n i = some u) :
    ∃ code us, l[n]? = some (.function code us) ∧ us[i]? = some u := by
  unfold listed at found
  split at found
  next code us here => exact ⟨code, us, here, found⟩
  next => cases found

/-- A listed variable of a described heap. -/
theorem Describes.listed (d : Describes h objs owner l) {n i : Nat} {u : Upvalue} (found : listed l n i = some u) :
    ∃ cell, DenotesUpvalue h objs owner (n + 1) (i + 1) cell u := by
  obtain ⟨code, us, here, place⟩ := listed_eq_some found
  have bound : n < objs.length := by
    rw [← d.length]
    exact (List.getElem?_eq_some_iff.mp here).1
  have record := d.records n _ _ (List.getElem?_eq_getElem bound) here
  generalize objs[n] = r at record
  cases record with
  | @function c _ _ _ size each =>
    have inside : i < (h.closure c).upvalues.size := by
      rw [← size]
      exact (List.getElem?_eq_some_iff.mp place).1
    exact ⟨_, each i u _ place (Array.getElem?_eq_getElem inside)⟩

theorem Describes.listed_value (d : Describes h objs owner l) {n i : Nat} {r : Reference}
    (found : Snapshot.listed l n i = some (.value r)) : ∃ v, Denotes objs r v := by
  obtain ⟨cell, mention⟩ := d.listed found
  by_cases own : owner cell = (n + 1, i + 1)
  · obtain ⟨r', same, denotes⟩ := mention.owned own
    obtain rfl := Upvalue.value.inj same
    exact ⟨_, denotes⟩
  · cases mention.joined own

/-- A variable joins one that is listed with its value. -/
theorem Describes.listed_join (d : Describes h objs owner l) {n i a b : Nat}
    (found : Snapshot.listed l n i = some (.join a b)) :
    ∃ o j r, a = o + 1 ∧ b = j + 1 ∧ Snapshot.listed l o j = some (.value r) := by
  obtain ⟨cell, mention⟩ := d.listed found
  by_cases own : owner cell = (n + 1, i + 1)
  · obtain ⟨_, same, _⟩ := mention.owned own
    cases same
  · have same := mention.joined own
    obtain ⟨o, j, c, owns, there, captured⟩ := mention.owns
    obtain ⟨o', j', code, us, r, owns', there', place, _⟩ := d.owned there captured
    rw [owns] at same owns'
    obtain ⟨rfl, rfl⟩ : o = o' ∧ j = j' := by simpa using owns'
    obtain ⟨rfl, rfl⟩ := Upvalue.join.inj same
    exact ⟨o, j, r, rfl, rfl, by rw [Snapshot.listed, there']; exact place⟩

/-! ### Between the passes -/

/-- All records have objects, and none is filled in. -/
structure Staged (h : Heap) (objs : List Ref) (owner : Nat → Nat × Nat) (l : Listing) (g : Heap) (os : List Ref) :
    Prop where
  describes : Describes h objs owner l
  made : List.Forall₂ (Made Fixed.heap g) objs os
  ready : List.Forall₂ (Ready g) l os
  nodup : os.Nodup
  separate : Separate g

namespace Staged

variable (st : Staged h objs owner l g os)
include st

theorem length_eq : os.length = objs.length := st.made.length_eq.symm

theorem ready_at {n : Nat} {rec : Record} (here : l[n]? = some rec) : ∃ o, os[n]? = some o ∧ Ready g rec o := by
  have bound := (List.getElem?_eq_some_iff.mp here).1
  have bound' : n < os.length := st.ready.length_eq ▸ bound
  obtain ⟨_, rfl⟩ := List.getElem?_eq_some_iff.mp here
  exact ⟨os[n], List.getElem?_eq_getElem bound', st.ready.get bound bound'⟩

/-- Every listed variable has a cell of its own. -/
theorem slot_of_listed {n i : Nat} {u : Upvalue} (found : listed l n i = some u) : ∃ x, slot g os n i = some x := by
  obtain ⟨code, us, here, place⟩ := listed_eq_some found
  obtain ⟨o, there, ready⟩ := st.ready_at here
  cases ready with
  | @function c _ _ inside dumped size =>
    have bound : i < (g.closure c).upvalues.size := by
      rw [← size]
      exact (List.getElem?_eq_some_iff.mp place).1
    exact ⟨_, by rw [slot_eq there, Array.getElem?_eq_getElem bound]⟩

theorem slot_inside {n i x : Nat} (found : slot g os n i = some x) : x < g.cells.size := by
  obtain ⟨c, _, captured⟩ := slot_eq_some found
  exact st.separate.inside c i x captured

theorem place_inj {n n' : Nat} {o : Ref} (left : os[n]? = some o) (right : os[n']? = some o) : n = n' := by
  obtain ⟨bound, eq⟩ := List.getElem?_eq_some_iff.mp left
  obtain ⟨bound', eq'⟩ := List.getElem?_eq_some_iff.mp right
  exact (List.Nodup.getElem_inj_iff st.nodup).mp (eq.trans eq'.symm)

theorem slot_apart {n n' i i' x : Nat} (left : slot g os n i = some x) (right : slot g os n' i' = some x) :
    n = n' ∧ i = i' := by
  obtain ⟨c, here, captured⟩ := slot_eq_some left
  obtain ⟨c', here', captured'⟩ := slot_eq_some right
  obtain ⟨rfl, same⟩ := st.separate.apart c c' i i' x captured captured'
  exact ⟨st.place_inj here here', same⟩

end Staged

/-! ### Functions filled in -/

/-- The captured variables that are listed before a position of the function at a place are as
they are listed, and those that own their cells have them from the first pass. -/
structure Wired (g : Heap) (os : List Ref) (l : Listing) (k j : Nat) (g' : Heap) : Prop where
  closures : g'.closures.size = g.closures.size
  cells : g'.cells.size = g.cells.size
  code : ∀ c, (g'.closure c).code = (g.closure c).code
  owned : ∀ n i x r, listed l n i = some (.value r) → slot g os n i = some x → slot g' os n i = some x
  joined : ∀ n i o p x, n < k ∨ n = k ∧ i < j → listed l n i = some (.join (o + 1) (p + 1)) →
    slot g os o p = some x → slot g' os n i = some x
  values : ∀ n i x r, n < k ∨ n = k ∧ i < j → listed l n i = some (.value r) → slot g os n i = some x →
    Denotes os r (g'.cell x)

theorem wired_start : Wired g os l 0 0 g where
  closures := rfl
  cells := rfl
  code := fun _ => rfl
  owned := fun _ _ _ _ _ found => found
  joined := fun _ _ _ _ _ before => by omega
  values := fun _ _ _ _ before => by omega

theorem Wired.size (wired : Wired g os l k j g') (c : Nat) :
    (g'.closure c).upvalues.size = (g.closure c).upvalues.size := by
  rw [Closure.sized, Closure.sized, wired.code c]

/-- A function all of whose variables have been passed. -/
theorem Wired.next (wired : Wired g os l k j g') (all : ∀ i u, listed l k i = some u → i < j) : Wired g os l (k + 1) 0 g' where
  closures := wired.closures
  cells := wired.cells
  code := wired.code
  owned := wired.owned
  joined := by
    intro n i o p x before found
    refine wired.joined n i o p x ?_ found
    by_cases last : n = k
    · exact .inr ⟨last, all i _ (last ▸ found)⟩
    · exact .inl (by omega)
  values := by
    intro n i x r before found
    refine wired.values n i x r ?_ found
    by_cases last : n = k
    · exact .inr ⟨last, all i _ (last ▸ found)⟩
    · exact .inl (by omega)

/-- Where a variable that owns its cell is found. -/
theorem joined?_eq {o p : Nat} (g' : Heap) (os : List Ref) : joined? g' os.toArray (o + 1) (p + 1) = slot g' os o p := by
  simp only [joined?, slot, Nat.add_sub_cancel, List.getElem?_toArray]
  cases os[o]? with
  | none => rfl
  | some r =>
    cases r with
    | closure c =>
      simp only [Heap.closure?, Heap.closure, Array.getD_eq_getD_getElem?]
      cases g'.closures[c]? <;> simp [default]
    | _ => rfl

section

variable {k j id x : Nat} (st : Staged h objs owner l g os) (wired : Wired g os l k j g')
include st wired

/-- A variable gets its value. -/
theorem Wired.setCell {r : Reference} {v : Value} (found : listed l k j = some (.value r))
    (here : slot g os k j = some x) (denotes : Denotes os r v) : Wired g os l k (j + 1) (g'.setCell x v) where
  closures := wired.closures
  cells := by simpa [Heap.setCell] using wired.cells
  code := wired.code
  owned := wired.owned
  joined := by
    intro n i o p y before found'
    have other : ¬(n = k ∧ i = j) := by
      rintro ⟨rfl, rfl⟩
      cases found.symm.trans found'
    exact wired.joined n i o p y (by omega) found'
  values := by
    intro n i y r' before found' there
    rw [Heap.cell_setCell]
    split
    next same =>
      obtain ⟨rfl, _⟩ := same
      obtain ⟨rfl, rfl⟩ := st.slot_apart here there
      obtain rfl := Upvalue.value.inj (Option.some.inj (found.symm.trans found'))
      exact denotes
    next different =>
      have other : ¬(n = k ∧ i = j) := by
        rintro ⟨rfl, rfl⟩
        refine different ⟨Option.some.inj (here.symm.trans there), ?_⟩
        rw [wired.cells]
        exact st.slot_inside here
      exact wired.values n i y r' (by omega) found' there

/-- A variable joins another one. -/
theorem Wired.setUpvalue {o p : Nat} (function : os[k]? = some (.closure id))
    (found : listed l k j = some (.join (o + 1) (p + 1))) (there : slot g os o p = some x) :
    Wired g os l k (j + 1) (g'.setUpvalue id j x) := by
  have here : slot (g'.setUpvalue id j x) os k j = some x := by
    obtain ⟨y, own⟩ := st.slot_of_listed found
    rw [slot_eq function] at own
    have inside : j < (g'.closure id).upvalues.size := by
      rw [wired.size]
      exact (Array.getElem?_eq_some_iff.mp own).1
    rw [slot_eq function, Heap.upvalues_setUpvalue, if_pos ⟨rfl, rfl⟩, Array.getElem?_eq_getElem inside,
      Option.map_some]
  have elsewhere {n i y : Nat} (other : ¬(n = k ∧ i = j)) (there : slot g' os n i = some y) :
      slot (g'.setUpvalue id j x) os n i = some y := by
    obtain ⟨c, place, captured⟩ := slot_eq_some there
    rw [slot_eq place, Heap.upvalues_setUpvalue, if_neg, captured]
    rintro ⟨rfl, rfl⟩
    exact other ⟨st.place_inj place function, rfl⟩
  constructor
  case closures => simpa [Heap.setUpvalue] using wired.closures
  case cells => exact wired.cells
  case code => exact fun c => (g'.code_setUpvalue id j x c).trans (wired.code c)
  case owned =>
    intro n i y r found' own
    refine elsewhere ?_ (wired.owned n i y r found' own)
    rintro ⟨rfl, rfl⟩
    cases found.symm.trans found'
  case joined =>
    intro n i o' p' y before found' own
    by_cases last : n = k ∧ i = j
    · obtain ⟨rfl, rfl⟩ := last
      obtain ⟨rfl, rfl⟩ : o = o' ∧ p = p' := by
        simpa using Upvalue.join.inj (Option.some.inj (found.symm.trans found'))
      rw [here, ← there, own]
    · exact elsewhere last (wired.joined n i o' p' y (by omega) found' own)
  case values =>
    intro n i y r before found' own
    have other : ¬(n = k ∧ i = j) := by
      rintro ⟨rfl, rfl⟩
      cases found.symm.trans found'
    exact wired.values n i y r (by omega) found' own

end

/-- The variables of a function are filled in one by one. -/
theorem fillUpvalues?_spec (st : Staged h objs owner l g os) {k id i : Nat} {us : List Upvalue}
    (wired : Wired g os l k i g') (function : os[k]? = some (.closure id)) (inside : id < g.closures.size)
    (place : ∀ (j : Nat) u, us[j]? = some u → listed l k (i + j) = some u) :
    ∃ g₂, fillUpvalues? os.toArray id i g' us = some g₂ ∧ Wired g os l k (i + us.length) g₂ ∧
      g₂.tables = g'.tables := by
  induction us generalizing g' i with
  | nil => exact ⟨g', rfl, wired, rfl⟩
  | cons u us ih =>
    have found := place 0 u rfl
    have tail (j : Nat) (u : Upvalue) (there : us[j]? = some u) : listed l k (i + 1 + j) = some u := by
      rw [← place (j + 1) u there]
      congr 1
      omega
    obtain ⟨x, own⟩ := st.slot_of_listed found
    have count : i + (u :: us).length = i + 1 + us.length := by
      rw [List.length_cons]
      omega
    rw [count]
    cases u with
    | value r =>
      obtain ⟨v, denoted⟩ := st.describes.listed_value found
      obtain ⟨v', value, denotes⟩ := denoted.elsewhere st.length_eq
      have here := wired.owned k i x r found own
      rw [slot_eq function] at here
      obtain ⟨g₂, filled, wired₂, same⟩ := ih (Wired.setCell st wired found own denotes) tail
      refine ⟨g₂, ?_, wired₂, same⟩
      rw [fillUpvalues?, g'.closure?_eq_some (wired.closures ▸ inside)]
      simp only [Option.bind_eq_bind, Option.bind_some]
      rw [here, value]
      exact filled
    | join a b =>
      obtain ⟨o, p, r, rfl, rfl, owned⟩ := st.describes.listed_join found
      obtain ⟨y, there⟩ := st.slot_of_listed owned
      obtain ⟨g₂, filled, wired₂, same⟩ := ih (Wired.setUpvalue st wired function found there) tail
      refine ⟨g₂, ?_, wired₂, same⟩
      rw [fillUpvalues?, joined?_eq, wired.owned o p y r owned there]
      exact filled

/-! ### Tables filled in -/

/-- A table has the entries and the metatable of a record. -/
def HasEntries (os : List Ref) (es : List (Reference × Reference)) (m : Option Reference) (t : Table) : Prop :=
  (∃ kvs, List.Perm kvs t.toList ∧ List.Forall₂ (DenotesEntry os) es kvs) ∧ DenotesMetatable os m t.metatable

/-- The tables that are listed before a place have their entries, and the others have none. -/
structure Stocked (g : Heap) (os : List Ref) (l : Listing) (k : Nat) (g' : Heap) : Prop where
  size : g'.tables.size = g.tables.size
  empty : ∀ n t : Nat, k ≤ n → os[n]? = some (.table t) → Empty g' t
  filled : ∀ (n t : Nat) path es m, n < k → os[n]? = some (.table t) → l[n]? = some (.table path es m) →
    HasEntries os es m (g'.table t)
  others : ∀ t, .table t ∉ os → g'.table t = g.table t

theorem Stocked.of_tables {g₂ : Heap} {k : Nat} (stocked : Stocked g os l k g') (same : g₂.tables = g'.tables)
    (other : ∀ path es m, l[k]? ≠ some (.table path es m)) : Stocked g os l (k + 1) g₂ := by
  have tables (t : Nat) : g₂.table t = g'.table t := by rw [Heap.table, Heap.table, same]
  constructor
  · rw [same]
    exact stocked.size
  · intro n t later here key
    rw [tables]
    exact stocked.empty n t (by omega) here key
  · intro n t path es m earlier here found
    rw [tables]
    refine stocked.filled n t path es m (Nat.lt_of_le_of_ne (Nat.le_of_lt_succ earlier) ?_) here found
    rintro rfl
    exact other path es m found
  · intro t absent
    rw [tables]
    exact stocked.others t absent

namespace Staged

variable (st : Staged h objs owner l g os)
include st

theorem made_at {n : Nat} {r : Ref} (here : objs[n]? = some r) : ∃ o, os[n]? = some o ∧ Made Fixed.heap g r o := by
  obtain ⟨bound, rfl⟩ := List.getElem?_eq_some_iff.mp here
  have bound' : n < os.length := st.made.length_eq ▸ bound
  exact ⟨os[n], List.getElem?_eq_getElem bound', st.made.get bound bound'⟩

/-- The object with a record in the heap that is described. -/
theorem described_at {n : Nat} {rec : Record} (found : l[n]? = some rec) :
    ∃ r, objs[n]? = some r ∧ Records h objs owner (n + 1) r rec := by
  have bound : n < objs.length := by
    rw [← st.describes.length]
    exact (List.getElem?_eq_some_iff.mp found).1
  have here := List.getElem?_eq_getElem bound
  exact ⟨_, here, st.describes.records n _ rec here found⟩

theorem table_at {n t : Nat} (here : objs[n]? = some (.table t)) : ∃ t', os[n]? = some (.table t') := by
  obtain ⟨o, there, made⟩ := st.made_at here
  have sort := made.sort
  cases o with
  | table t' => exact ⟨t', there⟩
  | _ => simp [Ref.sort, Ref.rank] at sort

/-- Nothing but the metatable of lists becomes the metatable of lists. -/
theorem sequence_at {n : Nat} {r : Ref} (there : os[n]? = some (.table Fixed.sequence)) (here : objs[n]? = some r) :
    r = .table Fixed.sequence := by
  obtain ⟨o, there', made⟩ := st.made_at here
  obtain rfl := Option.some.inj (there.symm.trans there')
  by_cases new : Fixed.pathOf? (.ref r) = none
  · have := (made.table _ rfl new).1
    exact absurd this (by decide)
  · exact (made.library new).symm

/-- The record of the metatable of lists is quiet if the metatable is. -/
theorem isQuiet (quiet : (h.table Fixed.sequence).get (.text "__index") = .nil) {n : Nat} {o : Ref}
    {path : Option String} {es : List (Reference × Reference)} {m : Option Reference} (there : os[n]? = some o)
    (found : l[n]? = some (.table path es m)) : isQuiet o es = true := by
  unfold Snapshot.isQuiet
  by_cases same : o = .table Fixed.sequence
  · subst same
    obtain ⟨r, here, record⟩ := st.described_at found
    obtain rfl := st.sequence_at there here
    rw [Bool.or_eq_true]
    right
    rw [List.all_eq_true]
    intro e mem
    rw [Bool.not_eq_true', Bool.eq_false_iff]
    intro named
    cases record with
    | table _ entries each _ =>
      obtain ⟨⟨k, v⟩, mem', denotes, _⟩ := (exists_beside each).1 e mem
      obtain ⟨held, present⟩ := Table.mem_toList.mp (entries.mem_iff.mp mem')
      have key : k = .text "__index" := denotes.eq_text named
      rw [key, quiet] at held
      exact present held.symm
  · rw [Bool.or_eq_true]
    exact .inl (bne_iff_ne.mpr same)

end Staged

theorem rename_key_inj {f : Ref → Ref} (inj : ∀ r ∈ objs, ∀ s ∈ objs, f r = f s → r = s) {k k' : Key}
    (mem : ∀ r, k.value = .ref r → r ∈ objs) (mem' : ∀ r, k'.value = .ref r → r ∈ objs)
    (same : k.rename f = k'.rename f) : k = k' := by
  cases k with
  | ref r =>
    cases k' with
    | ref r' => rw [inj r (mem r rfl) r' (mem' r' rfl) (Key.ref.inj same)]
    | _ => cases same
  | _ =>
    cases k' with
    | ref r' => cases same
    | _ => exact same

/-- The entries that a record lists can be put into an empty table. -/
theorem entries_spec (st : Staged h objs owner l g os) {n : Nat} {path : Option String}
    {es : List (Reference × Reference)} {m : Option Reference} (found : l[n]? = some (.table path es m)) {t : Table}
    (empty : ∀ k, t.get k = .nil) : ∃ t' id', fillEntries? os.toArray t es = some t' ∧
      metatableOf? os.toArray m = some id' ∧ HasEntries os es m { t' with metatable := id' } := by
  obtain ⟨r, here, record⟩ := st.described_at found
  cases record with
  | @table id _ _ _ kvs _ entries each metatable =>
    obtain ⟨kvs', each', reads⟩ := entries_elsewhere each st.length_eq
    obtain ⟨id', named, denotes⟩ := metatable_elsewhere metatable st.length_eq fun n t => st.table_at
    have beside := entries_side_by_side st.describes.nodup each each'
    have distinct : (kvs'.map Prod.fst).Nodup := by
      have keys := ((entries.map Prod.fst).nodup_iff).mpr (Table.nodup_keys _)
      have renamed : kvs'.map Prod.fst = (kvs.map Prod.fst).map (Key.rename (rename objs os)) := by
        rw [List.map_map]
        exact (map_eq_of_forall₂ beside fun _ _ both => both.1).symm
      rw [renamed]
      refine keys.map_on ?_
      intro k mem k' mem' same
      obtain ⟨kv, place, rfl⟩ := List.mem_map.mp mem
      obtain ⟨kv', place', rfl⟩ := List.mem_map.mp mem'
      obtain ⟨_, _, denotes, _⟩ := (exists_beside each).2 kv place
      obtain ⟨_, _, denotes', _⟩ := (exists_beside each).2 kv' place'
      exact rename_key_inj (rename_inj st.describes.nodup st.nodup st.length_eq.symm)
        (fun r is => (is ▸ denotes).mem) (fun r is => (is ▸ denotes').mem) same
    have present : ∀ kv ∈ kvs', kv.2 ≠ .nil := by
      intro kv mem
      obtain ⟨⟨k, v⟩, mem', _, renamed⟩ := (exists_beside beside).2 kv mem
      exact renamed.ne_nil (Table.mem_toList.mp (entries.mem_iff.mp mem')).2
    exact ⟨setAll t kvs', id', fillEntries?_eq t reads, named, ⟨kvs', perm_setAll empty distinct present, each'⟩, denotes⟩

/-- A table gets its entries and its metatable. -/
theorem fillTable_spec (st : Staged h objs owner l g os) (quiet : (h.table Fixed.sequence).get (.text "__index") = .nil)
    {k id : Nat} {path : Option String} {es : List (Reference × Reference)} {m : Option Reference}
    (stocked : Stocked g os l k g') (there : os[k]? = some (.table id)) (found : l[k]? = some (.table path es m)) :
    ∃ t, fill? os.toArray g' (.table path es m) (.table id) = some (g'.modifyTable id fun _ => t) ∧
      Stocked g os l (k + 1) (g'.modifyTable id fun _ => t) := by
  obtain ⟨t, m', entries, named, has⟩ := entries_spec st found (stocked.empty k id le_rfl there)
  refine ⟨{ t with metatable := m' }, ?_, ?_⟩
  · rw [fill?, st.isQuiet quiet there found]
    simp only [Bool.not_true, Bool.false_eq_true, if_false]
    rw [entries, named]
    rfl
  · have inside : id < g'.tables.size := by
      obtain ⟨o, here, ready⟩ := st.ready_at found
      obtain rfl := Option.some.inj (there.symm.trans here)
      cases ready with
      | table inside => rwa [stocked.size]
    constructor
    · simpa [Heap.modifyTable] using stocked.size
    · intro n t' later here key
      rw [Heap.table_modifyTable, if_neg]
      · exact stocked.empty n t' (by omega) here key
      · rintro ⟨rfl, _⟩
        have := st.place_inj there here
        omega
    · intro n t' path' es' m' earlier here found'
      rw [Heap.table_modifyTable]
      split
      next same =>
        obtain ⟨rfl, _⟩ := same
        obtain rfl := st.place_inj there here
        obtain ⟨_, rfl, rfl⟩ := Record.table.inj (Option.some.inj (found.symm.trans found'))
        exact has
      next other =>
        refine stocked.filled n t' path' es' m' (Nat.lt_of_le_of_ne (Nat.le_of_lt_succ earlier) ?_) here found'
        rintro rfl
        obtain rfl := Ref.table.inj (Option.some.inj (there.symm.trans here))
        exact other ⟨rfl, inside⟩
    · intro t' absent
      rw [Heap.table_modifyTable, if_neg]
      · exact stocked.others t' absent
      · rintro ⟨rfl, _⟩
        exact absent (List.mem_of_getElem? there)

/-! ### All objects filled in -/

/-- One record comes true after the other. -/
theorem fill?_spec (st : Staged h objs owner l g os) (quiet : (h.table Fixed.sequence).get (.text "__index") = .nil)
    {k : Nat} {rec : Record} {o : Ref} (stocked : Stocked g os l k g') (wired : Wired g os l k 0 g')
    (found : l[k]? = some rec) (there : os[k]? = some o) :
    ∃ g₂, fill? os.toArray g' rec o = some g₂ ∧ Stocked g os l (k + 1) g₂ ∧ Wired g os l (k + 1) 0 g₂ := by
  obtain ⟨o', there', ready⟩ := st.ready_at found
  obtain rfl := Option.some.inj (there.symm.trans there')
  have noVariables (other : ∀ code us, rec ≠ .function code us) : ∀ i u, listed l k i = some u → i < 0 := by
    intro i u place
    obtain ⟨code, us, here, _⟩ := listed_eq_some place
    exact absurd (Option.some.inj (found.symm.trans here)) (other code us)
  cases ready with
  | @table id path es m inside named empty =>
    obtain ⟨t, filled, stocked₂⟩ := fillTable_spec st quiet stocked there found
    refine ⟨_, filled, stocked₂, ?_⟩
    have next := wired.next (noVariables nofun)
    exact ⟨next.closures, next.cells, next.code, next.owned, next.joined, next.values⟩
  | native path leaf =>
    refine ⟨g', ?_, stocked.of_tables rfl ?_, wired.next (noVariables nofun)⟩
    · cases o <;> rfl
    · intro path es m here
      cases found.symm.trans here
  | @function c code us inside dumped size =>
    have place (j : Nat) (u : Upvalue) (here : us[j]? = some u) : listed l k (0 + j) = some u := by
      rw [listed, found, Nat.zero_add]
      exact here
    obtain ⟨g₂, filled, wired₂, same⟩ := fillUpvalues?_spec st wired there inside place
    refine ⟨g₂, ?_, stocked.of_tables same ?_, wired₂.next ?_⟩
    · rw [fill?, g'.closure?_eq_some (wired.closures ▸ inside)]
      simp only [Option.bind_eq_bind, Option.bind_some]
      rw [wired.size, size, bne_self_eq_false]
      exact filled
    · intro path es m here
      cases found.symm.trans here
    · intro i u listed
      obtain ⟨code', us', here, place'⟩ := listed_eq_some listed
      obtain ⟨_, rfl⟩ := Record.function.inj (Option.some.inj (found.symm.trans here))
      rw [Nat.zero_add]
      exact (List.getElem?_eq_some_iff.mp place').1

theorem fillAll?_spec (st : Staged h objs owner l g os) (quiet : (h.table Fixed.sequence).get (.text "__index") = .nil)
    {k : Nat} {rest : List (Record × Ref)} (stocked : Stocked g os l k g') (wired : Wired g os l k 0 g')
    (place : rest = (l.zip os).drop k) :
    ∃ g₂, fillAll? os.toArray g' rest = some g₂ ∧ Stocked g os l (k + rest.length) g₂ ∧
      Wired g os l (k + rest.length) 0 g₂ := by
  induction rest generalizing g' k with
  | nil => exact ⟨g', rfl, stocked, wired⟩
  | cons first rest ih =>
    obtain ⟨rec, o⟩ := first
    have here : (l.zip os)[k]? = some (rec, o) := by
      rw [← Nat.add_zero k, ← List.getElem?_drop, ← place]
      rfl
    obtain ⟨found, there⟩ := List.getElem?_zip_eq_some.mp here
    obtain ⟨g₁, filled, stocked₁, wired₁⟩ := fill?_spec st quiet stocked wired found there
    have tail : rest = (l.zip os).drop (k + 1) := by
      rw [← List.drop_drop, ← place]
      rfl
    obtain ⟨g₂, filledAll, stocked₂, wired₂⟩ := ih stocked₁ wired₁ tail
    refine ⟨g₂, ?_, ?_, ?_⟩
    · rw [fillAll?, filled]
      exact filledAll
    · rw [List.length_cons, show k + (rest.length + 1) = k + 1 + rest.length from by omega]
      exact stocked₂
    · rw [List.length_cons, show k + (rest.length + 1) = k + 1 + rest.length from by omega]
      exact wired₂

open Classical in
/-- Where the cell of a captured variable comes from in the first pass. -/
noncomputable def home (g : Heap) (os : List Ref) (x : Nat) : Nat × Nat :=
  if found : ∃ p : Nat × Nat, slot g os p.1 p.2 = some x then (found.choose.1 + 1, found.choose.2 + 1) else (0, 0)

theorem Staged.home_eq (st : Staged h objs owner l g os) {n i x : Nat} (here : slot g os n i = some x) :
    home g os x = (n + 1, i + 1) := by
  have found : ∃ p : Nat × Nat, slot g os p.1 p.2 = some x := ⟨(n, i), here⟩
  obtain ⟨place, position⟩ := st.slot_apart found.choose_spec here
  rw [home, dif_pos found, place, position]

theorem Staged.root (st : Staged h objs owner l g os) : os[0]? = some (.table Fixed.globals) := by
  obtain ⟨o, there, made⟩ := st.made_at st.describes.root
  rw [there, made.library (by decide)]

/-- After both passes the listing describes the new heap. -/
theorem describes_of_filled (st : Staged h objs owner l g os) (stocked : Stocked g os l l.length g')
    (wired : Wired g os l l.length 0 g') : Describes g' os (home g os) l := by
  refine ⟨st.nodup, st.root, st.ready.length_eq, ?_⟩
  intro n r rec there found
  have bound := (List.getElem?_eq_some_iff.mp found).1
  obtain ⟨o, there', ready⟩ := st.ready_at found
  obtain rfl := Option.some.inj (there.symm.trans there')
  cases ready with
  | @table t path es m inside named empty =>
    obtain ⟨⟨kvs, entries, each⟩, metatable⟩ := stocked.filled n t path es m bound there found
    exact .table named entries each metatable
  | native path leaf => exact .native path leaf
  | @function c code us inside dumped size =>
    refine .function (by rw [wired.code, dumped]) (by rw [wired.size, size]) ?_
    intro i u x place captured
    have listed : listed l n i = some u := by
      rw [listed, found]
      exact place
    have here : slot g' os n i = some x := by
      rw [slot_eq there]
      exact captured
    obtain ⟨y, own⟩ := st.slot_of_listed listed
    cases u with
    | value r =>
      obtain rfl := Option.some.inj ((wired.owned n i y r listed own).symm.trans here)
      have home := st.home_eq own
      refine ⟨fun _ => ⟨r, rfl, wired.values n i y r (.inl bound) listed own⟩, fun other => absurd home other, ?_⟩
      exact ⟨n, i, c, home, there, captured⟩
    | join a b =>
      obtain ⟨o, p, r, rfl, rfl, owned⟩ := st.describes.listed_join listed
      obtain ⟨z, source⟩ := st.slot_of_listed owned
      obtain rfl := Option.some.inj ((wired.joined n i o p z (.inl bound) listed source).symm.trans here)
      have home := st.home_eq source
      obtain ⟨e, place', captured'⟩ := slot_eq_some (wired.owned o p z r owned source)
      refine ⟨fun same => ?_, fun _ => by rw [home], ⟨o, p, e, home, place', captured'⟩⟩
      obtain ⟨rfl, rfl⟩ : o = n ∧ p = i := by
        rw [home] at same
        simpa using same
      cases listed.symm.trans owned

/-! ### The whole -/

theorem separate_fixed : Separate Fixed.heap where
  inside := fun c i x captured => by simp [Heap.closure, Fixed.heap, default] at captured
  apart := fun c d i j x captured => by simp [Heap.closure, Fixed.heap, default] at captured

/-- The heap of a listing that describes some heap is described by it too. Library tables that are
not listed get no entries. -/
theorem rebuild?_of_describes (d : Describes h objs owner l)
    (quiet : (h.table Fixed.sequence).get (.text "__index") = .nil) :
    ∃ h' os owner', rebuild? Fixed.heap 1 l = some h' ∧ Describes h' os owner' l ∧
      ∀ t < Fixed.heap.tables.size, .table t ∉ os → ∀ k, (Fixed.heap.table t).get k = .nil →
        (h'.table t).get k = .nil := by
  have library : Fixed.tablePaths.length ≤ Fixed.heap.tables.size := by decide
  have records : List.Forall₂ (fun r rec => ∃ n, Records h objs owner n r rec) objs l := by
    rw [List.forall₂_iff_get]
    refine ⟨d.length.symm, fun i bound bound' => ⟨i + 1, ?_⟩⟩
    exact d.records i _ _ (List.getElem?_eq_getElem bound) (List.getElem?_eq_getElem bound')
  obtain ⟨os, g, made, mades, readies, nodup, separate, extends'⟩ := objects?_spec separate_fixed library d.nodup records
  have st : Staged h objs owner l g os := ⟨d, mades, readies, nodup, separate⟩
  have stocked : Stocked g os l 0 g := by
    refine ⟨rfl, ?_, fun _ _ _ _ _ before => by omega, fun _ _ => rfl⟩
    intro n t _ there
    have bound : n < l.length := readies.length_eq ▸ (List.getElem?_eq_some_iff.mp there).1
    obtain ⟨o, there', ready⟩ := st.ready_at (List.getElem?_eq_getElem bound)
    obtain rfl := Option.some.inj (there.symm.trans there')
    generalize l[n] = rec at ready
    cases ready with
    | table _ _ empty => exact empty
    | native _ leaf => simp [Ref.sort, Ref.rank] at leaf
  obtain ⟨h', filled, stocked', wired'⟩ := fillAll?_spec st quiet stocked wired_start (List.drop_zero ..).symm
  have count : 0 + (l.zip os).length = l.length := by
    rw [List.length_zip, readies.length_eq]
    omega
  rw [count] at stocked' wired'
  refine ⟨h', os, home g os, ?_, describes_of_filled st stocked' wired', ?_⟩
  case refine_2 =>
    intro t inside other k absent
    rw [stocked'.others t other]
    exact extends'.absent t inside k absent
  rw [rebuild?, made]
  have root : valueOf? os.toArray (.object 1) = some (.table Fixed.globals) := by
    simp [valueOf?, st.root]
  simp only [Option.bind_eq_bind, Option.bind_some, root, bne_self_eq_false]
  exact filled

end LuaCapsule.Snapshot
