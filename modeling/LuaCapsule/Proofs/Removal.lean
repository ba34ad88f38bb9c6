import LuaCapsule.Proofs.Confinement

/-! What a policy takes away, it takes out of the slots at its paths, after the program has run. The
slots hold a mark from then on, so that the values that were in them can be reached no more on that
way. On all other ways they can be reached exactly as before: it is the program that decides whether
a capability is gone. -/

namespace LuaCapsule

open Lua

namespace Lua.Heap

/-! ### Paths into a heap -/

/-- The table that names lead to, by raw entries. -/
def walk (h : Heap) (t : Nat) : List String → Option Nat
  | [] => some t
  | name :: rest =>
    match (h.table t).get (.text name) with
    | .ref (.table id) => h.walk id rest
    | _ => none

/-- The place of a capability: a table and a key of it. -/
def slot? (h : Heap) (path : Sandbox.CapabilityPath) : Option (Nat × Key) :=
  match h.walk Fixed.globals path.dropLast, path.getLast? with
  | some t, some name => some (t, .text name)
  | _, _ => none

/-- A slot has the last name of its path. -/
theorem last_of_slot? {h : Heap} {path : Sandbox.CapabilityPath} {s : Nat × Key} (is : h.slot? path = some s) :
    ∃ name, path.getLast? = some name ∧ s.2 = .text name := by
  rw [slot?] at is
  split at is
  next t name _ last =>
    cases is
    exact ⟨name, last, rfl⟩
  next => cases is

/-- A table that answers for missing and for new entries itself. -/
structure Direct (h : Heap) (t : Nat) : Prop where
  index : h.metamethod (.table t) "__index" = .nil
  newItem : h.metamethod (.table t) "__newindex" = .nil

theorem direct_of_bare {h : Heap} {t : Nat} (bare : (h.table t).metatable = none) : h.Direct t :=
  ⟨metamethod_of_bare bare _, metamethod_of_bare bare _⟩

/-- All tables that names lead through are direct. -/
def DirectAlong (h : Heap) (t : Nat) : List String → Prop
  | [] => h.Direct t
  | name :: rest => h.Direct t ∧ ∀ id, (h.table t).get (.text name) = .table id → h.DirectAlong id rest

/-- The objects that can be reached from some roots without what is in some slots. -/
inductive ReachesBeside (h : Heap) (roots : Set Ref) (slots : List (Nat × Key)) : Ref → Prop
  | root {r : Ref} (given : r ∈ roots) : ReachesBeside h roots slots r
  | key {t : Nat} {k : Key} {r : Ref} (here : ReachesBeside h roots slots (.table t))
    (present : (h.table t).get k ≠ .nil) (is : k.value = .ref r) : ReachesBeside h roots slots r
  | value {t : Nat} {k : Key} {r : Ref} (here : ReachesBeside h roots slots (.table t)) (beside : (t, k) ∉ slots)
    (is : (h.table t).get k = .ref r) : ReachesBeside h roots slots r
  | metatable {t m : Nat} (here : ReachesBeside h roots slots (.table t)) (named : (h.table t).metatable = some m) :
    ReachesBeside h roots slots (.table m)
  | captured {c i cell : Nat} {r : Ref} (here : ReachesBeside h roots slots (.closure c))
    (captured : (h.closure c).upvalues[i]? = some cell) (is : h.cell cell = .ref r) : ReachesBeside h roots slots r

/-- The global table, from which a program starts. -/
def globalRoots : Set Ref := {.table Fixed.globals}

theorem reachesBeside_nil {h : Heap} {r : Ref} : h.ReachesBeside globalRoots [] r ↔ h.Reaches r := by
  constructor
  · intro reached
    induction reached with
    | root given => exact Set.mem_singleton_iff.mp given ▸ .root
    | key _ present is ih => exact .step ih (is ▸ .key present)
    | value _ _ is ih => exact .step ih (is ▸ .value _)
    | metatable _ named ih => exact .step ih (.metatable named)
    | captured _ captured is ih => exact .step ih (is ▸ .captured captured)
  · intro reached
    induction reached with
    | root => exact .root rfl
    | @step s r _ held ih =>
      generalize is : Value.ref r = v at held
      cases held with
      | key present => exact .key ih present is.symm
      | value k => exact .value ih List.not_mem_nil is.symm
      | metatable named => exact Value.ref.inj is ▸ .metatable ih named
      | captured captured => exact .captured ih captured is.symm

theorem get_of_size_le {h : Heap} {t : Nat} (beyond : h.tables.size ≤ t) (k : Key) : (h.table t).get k = .nil := by
  rw [table_of_size_le beyond]
  exact Table.get_empty 0 0 k

theorem direct_of_size_le {h : Heap} {t : Nat} (beyond : h.tables.size ≤ t) : h.Direct t :=
  direct_of_bare (by rw [table_of_size_le beyond])

theorem directAlong_of_size_le {h : Heap} {t : Nat} (beyond : h.tables.size ≤ t) (names : List String) :
    h.DirectAlong t names := by
  cases names with
  | nil => exact direct_of_size_le beyond
  | cons name names =>
    refine ⟨direct_of_size_le beyond, fun id here => ?_⟩
    rw [get_of_size_le beyond] at here
    cases here

theorem DirectAlong.direct {h : Heap} {t : Nat} {names : List String} (direct : h.DirectAlong t names) : h.Direct t := by
  cases names with
  | nil => exact direct
  | cons => exact direct.1

theorem size_le_of_walk {h : Heap} {t x : Nat} {names : List String} (beyond : h.tables.size ≤ t)
    (there : h.walk t names = some x) : h.tables.size ≤ x := by
  cases names with
  | nil => exact Option.some.inj there ▸ beyond
  | cons name names =>
    rw [walk, get_of_size_le beyond] at there
    cases there

/-! ### Heaps after some slots were overwritten -/

/-- What comes into a heap when slots are overwritten: nothing that was there. -/
inductive Harmless (h : Heap) : Value → Prop
  | nil : Harmless h .nil
  | str (b : Bytes) : Harmless h (.str b)
  | table {t : Nat} (new : h.tables.size ≤ t) : Harmless h (.table t)

/-- A heap in which some slots were overwritten, under some names, and entries with such names were
added to tables where there were none. -/
structure Overwritten (names : List String) (slots : List (Nat × Key)) (h h' : Heap) : Prop where
  others : h' = { h with tables := h'.tables, founded := h'.founded }
  size : h.tables.size ≤ h'.tables.size
  metatable : ∀ t, (h'.table t).metatable = (h.table t).metatable
  named : ∀ t k, (h'.table t).get k = (h.table t).get k ∨ ∃ name ∈ names, k = .text name
  taken : ∀ t k, (t, k) ∈ slots → Harmless h ((h'.table t).get k)
  beside : ∀ t k, (t, k) ∉ slots → (h'.table t).get k = (h.table t).get k ∨
    (h.table t).get k = .nil ∧ Harmless h ((h'.table t).get k)

namespace Overwritten

variable {names : List String} {slots : List (Nat × Key)} {h h' : Heap} {t : Nat} {k : Key}

theorem refl (names : List String) (h : Heap) : Overwritten names [] h h :=
  ⟨rfl, Nat.le_refl _, fun _ => rfl, fun _ _ => .inl rfl, nofun, fun _ _ _ => .inl rfl⟩

theorem newTable (overwritten : Overwritten names slots h h') : Overwritten names slots h (h'.newTable {}).2 where
  others := by rw [Heap.newTable, overwritten.others]
  size := Nat.le_trans overwritten.size (by simp [Heap.newTable])
  metatable := fun t => by rw [table_newTable_empty, overwritten.metatable]
  named := fun t k => by rw [table_newTable_empty]; exact overwritten.named t k
  taken := fun t k mem => by rw [table_newTable_empty]; exact overwritten.taken t k mem
  beside := fun t k other => by rw [table_newTable_empty]; exact overwritten.beside t k other

/-- A slot is taken when something harmless is put there. -/
theorem rawSet (overwritten : Overwritten names slots h h') {t : Nat} {name : String} {v : Value} (known : name ∈ names)
    (harmless : Harmless h v) : Overwritten names ((t, .text name) :: slots) h (h'.rawSet t (.text name) v) := by
  have get (t' : Nat) (k : Key) : ((h'.rawSet t (.text name) v).table t').get k = (h'.table t').get k ∨
      t' = t ∧ k = .text name ∧ ((h'.rawSet t (.text name) v).table t').get k = v := by
    rw [Heap.rawSet, table_modifyTable]
    split
    next here =>
      rw [Table.get_set]
      split
      next same => exact .inr ⟨here.1.symm, same.symm, rfl⟩
      next => exact .inl rfl
    next => exact .inl rfl
  have put : Harmless h (((h'.rawSet t (.text name) v).table t).get (.text name)) := by
    rw [Heap.rawSet, table_modifyTable]
    split
    next =>
      rw [Table.get_set, if_pos rfl]
      exact harmless
    next outside =>
      rw [get_of_size_le (Nat.le_of_not_lt fun inside => outside ⟨rfl, inside⟩)]
      exact .nil
  refine ⟨?_, ?_, fun t' => ?_, fun t' k => ?_, fun t' k mem => ?_, fun t' k other => ?_⟩
  · rw [Heap.rawSet, modifyTable, overwritten.others]
  · simpa [Heap.rawSet, modifyTable] using overwritten.size
  · rw [← overwritten.metatable, Heap.rawSet, table_modifyTable]
    split
    · exact Table.metatable_set ..
    · rfl
  · rcases get t' k with same | ⟨_, is, _⟩
    · rw [same]
      exact overwritten.named t' k
    · exact .inr ⟨name, known, is⟩
  · rcases get t' k with same | ⟨_, _, is⟩
    · rcases List.mem_cons.mp mem with pair | mem
      · obtain ⟨rfl, rfl⟩ := Prod.mk.inj pair
        exact put
      · rw [same]
        exact overwritten.taken t' k mem
    · rw [is]
      exact harmless
  · rcases get t' k with same | ⟨rfl, rfl, _⟩
    · rw [same]
      exact overwritten.beside t' k fun mem => other (List.mem_cons_of_mem _ mem)
    · exact absurd (List.mem_cons_self ..) other

/-- A slot in which there was nothing need not be counted. -/
theorem tail (overwritten : Overwritten names ((t, k) :: slots) h h') (missing : (h.table t).get k = .nil) :
    Overwritten names slots h h' where
  others := overwritten.others
  size := overwritten.size
  metatable := overwritten.metatable
  named := overwritten.named
  taken := fun t' k' mem => overwritten.taken t' k' (List.mem_cons_of_mem _ mem)
  beside := by
    intro t' k' other
    by_cases same : (t', k') = (t, k)
    · obtain ⟨rfl, rfl⟩ := Prod.mk.inj same
      exact .inr ⟨missing, overwritten.taken t' k' (List.mem_cons_self ..)⟩
    · exact overwritten.beside t' k' fun mem => (List.mem_cons.mp mem).elim same other

/-- A slot with a harmless value can be counted. -/
theorem cons (overwritten : Overwritten names slots h h') (harmless : Harmless h ((h'.table t).get k)) :
    Overwritten names ((t, k) :: slots) h h' where
  others := overwritten.others
  size := overwritten.size
  metatable := overwritten.metatable
  named := overwritten.named
  taken := by
    intro t' k' mem
    rcases List.mem_cons.mp mem with same | mem
    · obtain ⟨rfl, rfl⟩ := Prod.mk.inj same
      exact harmless
    · exact overwritten.taken t' k' mem
  beside := fun t k other => overwritten.beside t k fun mem => other (List.mem_cons_of_mem _ mem)

theorem of_mem_iff (overwritten : Overwritten names slots h h') {slots' : List (Nat × Key)} (same : ∀ s, s ∈ slots ↔ s ∈ slots') :
    Overwritten names slots' h h' where
  others := overwritten.others
  size := overwritten.size
  metatable := overwritten.metatable
  named := overwritten.named
  taken := fun t k mem => overwritten.taken t k ((same _).mpr mem)
  beside := fun t k other => overwritten.beside t k fun mem => other ((same _).mp mem)

/-- Where there was nothing, there is nothing that was anywhere else. -/
theorem harmless_of_nil (overwritten : Overwritten names slots h h') {t : Nat} {k : Key} (missing : (h.table t).get k = .nil) :
    Harmless h ((h'.table t).get k) := by
  by_cases mem : (t, k) ∈ slots
  · exact overwritten.taken t k mem
  · rcases overwritten.beside t k mem with same | ⟨_, harmless⟩
    · rw [same, missing]
      exact .nil
    · exact harmless

/-- Metamethods stay what they are as long as no name is theirs. -/
theorem metamethod_eq (overwritten : Overwritten names slots h h') {event : String} (other : event ∉ names) (t : Nat) :
    h'.metamethod (.table t) event = h.metamethod (.table t) event := by
  rw [metamethod, metamethod, metatable?, metatable?, overwritten.metatable]
  cases (h.table t).metatable with
  | none => rfl
  | some m =>
    rcases overwritten.named m (.text event) with same | ⟨name, known, is⟩
    · exact same
    · exact absurd (Codec.text_inj is ▸ known) other

theorem direct (overwritten : Overwritten names slots h h') (index : "__index" ∉ names) (newItem : "__newindex" ∉ names) {t : Nat}
    (direct : h.Direct t) : h'.Direct t where
  index := by rw [overwritten.metamethod_eq index, direct.index]
  newItem := by rw [overwritten.metamethod_eq newItem, direct.newItem]

theorem closure_eq (overwritten : Overwritten names slots h h') (c : Nat) : h'.closure c = h.closure c := by rw [overwritten.others]; rfl

theorem cell_eq (overwritten : Overwritten names slots h h') (c : Nat) : h'.cell c = h.cell c := by rw [overwritten.others]; rfl

/-! ### What can still be reached -/

/-- A key that is an object is a key of the one heap exactly when it is one of the other. -/
theorem get_eq_of_ref (overwritten : Overwritten names slots h h') {t : Nat} {k : Key} {r : Ref} (is : k.value = .ref r) :
    (h'.table t).get k = (h.table t).get k := by
  rcases overwritten.named t k with same | ⟨name, _, rfl⟩
  · exact same
  · cases is

theorem reaches_of_beside (overwritten : Overwritten names slots h h') {roots : Set Ref} {r : Ref}
    (reached : h.ReachesBeside roots slots r) : h'.ReachesBeside roots [] r := by
  induction reached with
  | root given => exact .root given
  | key _ present is ih => exact .key ih (overwritten.get_eq_of_ref is ▸ present) is
  | @value t k r _ other is ih =>
    rcases overwritten.beside t k other with same | ⟨missing, _⟩
    · exact .value ih List.not_mem_nil (same ▸ is)
    · cases missing.symm.trans is
  | metatable _ named ih => exact .metatable ih (overwritten.metatable _ ▸ named)
  | captured _ captured is ih =>
    rw [← overwritten.closure_eq] at captured
    exact .captured ih captured (overwritten.cell_eq _ ▸ is)

theorem beside_of_reaches (overwritten : Overwritten names slots h h') {roots : Set Ref} {r : Ref}
    (reached : h'.ReachesBeside roots [] r) :
    h.ReachesBeside roots slots r ∨ ∃ t, r = .table t ∧ h.tables.size ≤ t := by
  have new {r : Ref} {v : Value} (harmless : Harmless h v) (is : v = .ref r) : ∃ t, r = .table t ∧ h.tables.size ≤ t := by
    cases harmless with
    | nil => cases is
    | str b => cases is
    | table new => exact ⟨_, (Value.ref.inj is).symm, new⟩
  -- Every edge was there before, or leads to a new table; from a new table all edges lead to new tables.
  induction reached with
  | root given => exact .inl (.root given)
  | key _ present is ih =>
    rw [overwritten.get_eq_of_ref is] at present
    rcases ih with beside | ⟨_, ⟨⟩, beyond⟩
    · exact .inl (.key beside present is)
    · exact absurd (get_of_size_le beyond _) present
  | @value t k r _ _ is ih =>
    rcases ih with beside | ⟨_, ⟨⟩, beyond⟩
    · by_cases mem : (t, k) ∈ slots
      · exact .inr (new (overwritten.taken t k mem) is)
      · rcases overwritten.beside t k mem with same | ⟨_, harmless⟩
        · exact .inl (.value beside mem (same ▸ is))
        · exact .inr (new harmless is)
    · exact .inr (new (overwritten.harmless_of_nil (get_of_size_le beyond k)) is)
  | metatable _ named ih =>
    rw [overwritten.metatable] at named
    rcases ih with beside | ⟨_, ⟨⟩, beyond⟩
    · exact .inl (.metatable beside named)
    · rw [table_of_size_le beyond] at named
      cases named
  | captured _ captured is ih =>
    rw [overwritten.closure_eq] at captured
    rcases ih with beside | ⟨_, ⟨⟩, _⟩
    exact .inl (.captured beside captured (overwritten.cell_eq _ ▸ is))

/-- What was there before can be reached exactly when it could be, beside the slots. -/
theorem reaches_iff (overwritten : Overwritten names slots h h') {roots : Set Ref} {r : Ref}
    (old : ∀ t, r = .table t → t < h.tables.size) : h'.ReachesBeside roots [] r ↔ h.ReachesBeside roots slots r := by
  refine ⟨fun reached => ?_, overwritten.reaches_of_beside⟩
  rcases overwritten.beside_of_reaches reached with beside | ⟨t, is, beyond⟩
  · exact beside
  · exact absurd (old t is) (Nat.not_lt.mpr beyond)

end Overwritten

end Lua.Heap

/-! ### Setting paths -/

namespace Vm

variable {vm : Vm} {t : Nat}

/-- A table that answers for missing entries itself is read as it is. -/
theorem index_eq (direct : vm.heap.Direct t) (name : String) :
    index (.table t) (.text name) vm = .ok ((vm.heap.table t).get (.text name)) vm := by
  change EStateM.bind (run (EStateM.bind Lua.getHeap fun h => resolve (h.index (.table t) (.text name)))) _ vm = _
  have ran : run (EStateM.bind Lua.getHeap fun h => resolve (h.index (.table t) (.text name))) vm =
      .ok (.ok ((vm.heap.table t).get (.text name))) vm := by
    have read : EStateM.bind Lua.getHeap (fun h => resolve (h.index (.table t) (.text name)))
        { heap := vm.heap, cap := vm.cap } = .ok ((vm.heap.table t).get (.text name)) { heap := vm.heap, cap := vm.cap } := by
      change resolve (vm.heap.index (.table t) (.text name)) { heap := vm.heap, cap := vm.cap } = _
      rw [Heap.index_eq_raw direct.index]
      rfl
    rw [run, read]
  rw [EStateM.bind, ran]
  rfl

/-- A table that answers for new entries itself gets the entry. -/
theorem store_eq (direct : vm.heap.Direct t) (name : String) (v : Value) :
    store (.table t) (.text name) v vm = .ok () { vm with heap := vm.heap.rawSet t (.text name) v } := by
  obtain ⟨_, stored⟩ := Codec.store_eq direct.newItem (.text name) v
  exact stored

section Set

variable {names last : List String} {slots : List (Nat × Key)} {h : Heap} {vm' : Vm}
  (index : "__index" ∉ names) (newItem : "__newindex" ∉ names)
  (ends : ∀ s ∈ slots, ∃ name ∈ last, s.2 = .text name)
include index newItem ends

/-- Following names makes tables where there is nothing, and ends where it would have ended before. -/
theorem parent_spec {path : List String} {depth t t' : Nat} {rest : List String} (within : ∀ name ∈ rest, name ∈ names)
    (before : ∀ name ∈ rest, name ∉ last) (direct : h.DirectAlong t rest)
    (overwritten : Heap.Overwritten names slots h vm.heap) (done : parent path depth t rest vm = .ok t' vm') :
    Heap.Overwritten names slots h vm'.heap ∧ h.Direct t' ∧ ∀ x < h.tables.size, h.walk t rest = some x ↔ t' = x := by
  induction rest generalizing depth t vm with
  | nil =>
    cases done
    exact ⟨overwritten, direct, fun x _ => Option.some_inj⟩
  | cons name rest ih =>
    have known := within name (List.mem_cons_self ..)
    have within' := fun name mem => within name (List.mem_cons_of_mem _ mem)
    have before' := fun name mem => before name (List.mem_cons_of_mem _ mem)
    have ih {t depth} := @ih t depth
    have free : (t, .text name) ∉ slots := by
      intro mem
      obtain ⟨name', mem', is⟩ := ends _ mem
      exact before name (List.mem_cons_self ..) (Codec.text_inj is ▸ mem')
    have here := overwritten.direct index newItem direct.direct
    obtain ⟨child, vm₁, read, done⟩ := bind_eq_ok.mp done
    rw [index_eq here] at read
    obtain ⟨rfl, rfl⟩ := EStateM.Result.ok.inj read
    obtain ⟨_, vm₁, seen, done⟩ := bind_eq_ok.mp done
    -- What is at the name now is what was there, or a new table if nothing was.
    have unchanged := overwritten.beside t (.text name) free
    have elsewhere {id : Nat} (missing : (h.table t).get (.text name) = .nil) (new : h.tables.size ≤ id)
        (there : ∀ x < h.tables.size, h.walk id rest = some x ↔ t' = x) :
        ∀ x < h.tables.size, h.walk t (name :: rest) = some x ↔ t' = x := by
      intro x old
      rw [Heap.walk, missing]
      refine ⟨nofun, fun is => ?_⟩
      have beyond := Heap.size_le_of_walk new ((there x old).mpr is)
      omega
    generalize (vm.heap.table t).get (.text name) = child at seen done unchanged
    split at done
    next =>
      cases seen
      have missing : (h.table t).get (.text name) = .nil := by
        rcases unchanged with same | ⟨missing, _⟩
        · exact same.symm
        · exact missing
      obtain ⟨new, vm₂, made, done⟩ := bind_eq_ok.mp done
      cases made
      obtain ⟨_, vm₃, stored, done⟩ := bind_eq_ok.mp done
      rw [store_eq (overwritten.newTable.direct index newItem direct.direct)] at stored
      obtain ⟨_, rfl⟩ := EStateM.Result.ok.inj stored
      obtain ⟨overwritten', direct', there⟩ := ih within'
        before' (Heap.directAlong_of_size_le overwritten.size rest)
        ((overwritten.newTable.rawSet known (.table overwritten.size)).tail missing) done
      exact ⟨overwritten', direct', elsewhere missing overwritten.size there⟩
    next id =>
      cases seen
      rcases unchanged with same | ⟨missing, harmless⟩
      · obtain ⟨overwritten', direct', there⟩ := ih within'
          before' (direct.2 id same.symm) overwritten done
        refine ⟨overwritten', direct', fun x old => ?_⟩
        rw [Heap.walk, ← same]
        exact there x old
      · cases harmless with
        | table new =>
          obtain ⟨overwritten', direct', there⟩ := ih within'
            before' (Heap.directAlong_of_size_le new rest) overwritten done
          exact ⟨overwritten', direct', elsewhere missing new there⟩
    next => cases done

/-- Setting a path takes the slot that is there, if one is. -/
theorem setPath_spec {path : Sandbox.CapabilityPath} {text : String} (within : ∀ name ∈ path, name ∈ names)
    (before : ∀ name ∈ path.dropLast, name ∉ last) (direct : h.DirectAlong Fixed.globals path.dropLast)
    (overwritten : Heap.Overwritten names slots h vm.heap) (done : setPath path (.scalar (.text text)) vm = .ok () vm') :
    Heap.Overwritten names ((h.slot? path).toList ++ slots) h vm'.heap := by
  obtain ⟨t, vm₁, followed, done⟩ := bind_eq_ok.mp done
  obtain ⟨overwritten₁, direct₁, there⟩ := parent_spec index newItem ends
    (fun name mem => within name (List.dropLast_subset path mem)) before direct overwritten followed
  cases ends' : path.getLast? with
  | none =>
    simp only [ends'] at done
    cases done
  | some name =>
    simp only [ends'] at done
    obtain ⟨v, vm₂, made, done⟩ := bind_eq_ok.mp done
    obtain ⟨rfl, rfl⟩ := EStateM.Result.ok.inj made
    rw [store_eq (overwritten₁.direct index newItem direct₁)] at done
    obtain ⟨_, rfl⟩ := EStateM.Result.ok.inj done
    have put := overwritten₁.rawSet (t := t) (v := .text text) (within name (List.mem_of_getLast? ends')) (.str _)
    by_cases old : t < h.tables.size
    · rw [Heap.slot?, (there t old).mpr rfl, ends']
      exact put
    · -- The slot is in a table that was made on the way.
      have beyond := Nat.le_of_not_lt old
      have put := put.tail (Heap.get_of_size_le beyond _)
      rw [Heap.slot?, ends']
      cases walked : h.walk Fixed.globals path.dropLast with
      | none => exact put
      | some x =>
        have new : h.tables.size ≤ x := Nat.le_of_not_lt fun inside => old ((there x inside).mp walked ▸ inside)
        exact put.cons (put.harmless_of_nil (Heap.get_of_size_le new _))

end Set

end Vm

/-! ### Policies -/

namespace Sandbox

/-- Paths whose names are no events, and none of which ends with a name that another one goes on after. -/
structure Apart (paths : List CapabilityPath) : Prop where
  index : "__index" ∉ paths.flatten
  newItem : "__newindex" ∉ paths.flatten
  before : ∀ path ∈ paths, ∀ name ∈ path.dropLast, ∀ other ∈ paths, other.getLast? ≠ some name

/-- The slots that paths lead to. -/
def slots (h : Heap) (paths : List CapabilityPath) : List (Nat × Key) := paths.filterMap h.slot?

theorem overwrite_removed (path : CapabilityPath) : overwrite (removed path) = Vm.setPath path (.scalar marker) := rfl

/-- Taking capabilities away takes the slots at their paths, and no others. -/
theorem overwriteAll_spec {all paths : List CapabilityPath} {taken : List (Nat × Key)} {h : Heap} {vm vm' : Vm}
    (apart : Apart all) (among : ∀ path ∈ paths, path ∈ all)
    (direct : ∀ path ∈ paths, h.DirectAlong Fixed.globals path.dropLast)
    (ends : ∀ s ∈ taken, ∃ name ∈ all.filterMap List.getLast?, s.2 = .text name)
    (overwritten : Heap.Overwritten all.flatten taken h vm.heap)
    (done : (paths.map removed).forM overwrite vm = .ok ⟨⟩ vm') :
    Heap.Overwritten all.flatten ((slots h paths).reverse ++ taken) h vm'.heap := by
  induction paths generalizing vm taken with
  | nil =>
    cases done
    exact overwritten
  | cons path paths ih =>
    obtain ⟨_, vm₁, first, others⟩ := bind_eq_ok.mp done
    rw [overwrite_removed] at first
    have here := among path (List.mem_cons_self ..)
    have overwritten₁ := Vm.setPath_spec apart.index apart.newItem ends
      (fun name mem => List.mem_flatten.mpr ⟨path, here, mem⟩) (fun name mem last => ?_) (direct path (List.mem_cons_self ..))
      overwritten first
    · have ends₁ : ∀ s ∈ (h.slot? path).toList ++ taken, ∃ name ∈ all.filterMap List.getLast?, s.2 = .text name := by
        intro s mem
        rcases List.mem_append.mp mem with mem | mem
        · obtain ⟨name, last, key⟩ := Heap.last_of_slot? (Option.mem_toList.mp mem)
          exact ⟨name, List.mem_filterMap.mpr ⟨path, here, last⟩, key⟩
        · exact ends s mem
      have overwritten₂ := ih (fun p mem => among p (List.mem_cons_of_mem _ mem)) (fun p mem => direct p (List.mem_cons_of_mem _ mem))
        ends₁ overwritten₁ others
      rw [slots, List.filterMap_cons]
      cases found : h.slot? path with
      | none => simpa [found, slots] using overwritten₂
      | some s => simpa [found, slots] using overwritten₂
    · obtain ⟨other, mem', is⟩ := List.mem_filterMap.mp last
      exact apart.before path here name mem other mem' is

/-- The paths of the capabilities that are taken away when nothing else is said. -/
def capabilities : List CapabilityPath := defaults.map Entry.path

theorem defaults_eq : defaults = capabilities.map removed := rfl

theorem apart_capabilities : Apart capabilities := ⟨by decide, by decide, by decide⟩

/-- Library values are no new tables. -/
theorem lt_of_valueAt {path : CapabilityPath} {r : Ref} (is : valueAt path = .ref r) (h : Heap) (t : Nat)
    (table : r = .table t) : t < h.tables.size := by
  subst table
  have known := path_of_valueAt is
  have bound : t < Fixed.tablePaths.length := Nat.lt_of_not_le fun beyond => known (List.getElem?_eq_none beyond)
  exact Nat.lt_of_lt_of_le (Nat.lt_of_lt_of_le bound (by decide)) h.founded

end Sandbox

namespace Device

/-- A program that keeps a capability under a name of its own. -/
def keeping : String := "keep = os.getenv"

/-- A program that has new global variables set to a library that it can still find. -/
def replacing : String :=
  "setmetatable(_G, \x7b__newindex = function(t, k) rawset(t, k, debug.getregistry()._LOADED.io) end\x7d)"

/-- The interpreter of a program before and after the default policy. -/
def around (program : String) : Option (Vm × Vm) :=
  match Vm.load program ⟨Fixed.heap, none⟩, grabbingDevice.start program (.bool true) with
  | .ok _ vm, .ok vm' => some (vm, vm')
  | _, _ => none

theorem around_eq_some {program : String} {vm vm' : Vm} (both : around program = some (vm, vm')) :
    Vm.load program ⟨Fixed.heap, none⟩ = .ok () vm ∧ grabbingDevice.start program (.bool true) = .ok vm' := by
  unfold around at both
  split at both
  next loaded started =>
    cases both
    exact ⟨loaded, started⟩
  next => cases both

/-- A heap whose slots at the paths of the default policy hold a text. -/
def emptied (h : Heap) : Heap :=
  (Sandbox.slots h Sandbox.capabilities).foldr (fun s h => h.rawSet s.1 s.2 (.text "")) h

theorem overwritten_emptied (h : Heap) : Heap.Overwritten Sandbox.capabilities.flatten
    (Sandbox.slots h Sandbox.capabilities) h (emptied h) := by
  unfold emptied
  have named : ∀ s ∈ Sandbox.slots h Sandbox.capabilities, ∃ name ∈ Sandbox.capabilities.flatten, s.2 = .text name := by
    intro s mem
    obtain ⟨path, here, is⟩ := List.mem_filterMap.mp mem
    obtain ⟨name, last, key⟩ := Heap.last_of_slot? is
    exact ⟨name, List.mem_flatten.mpr ⟨path, here, List.mem_of_getLast? last⟩, key⟩
  generalize Sandbox.slots h Sandbox.capabilities = slots at named
  induction slots with
  | nil => exact .refl _ h
  | cons s slots ih =>
    obtain ⟨t, k⟩ := s
    obtain ⟨name, known, rfl⟩ := named _ (List.mem_cons_self ..)
    exact (ih fun s mem => named s (List.mem_cons_of_mem _ mem)).rawSet known (.str _)

set_option maxRecDepth 100000 in
theorem around_keeping : (match around keeping with
    | some (vm, vm') =>
      decide ((vm.heap.table Fixed.globals).metatable = none) && decide ((vm.heap.table 7).metatable = none) &&
        decide ((vm.heap.table Fixed.globals).get (.text "os") = .table 7) &&
        decide ((vm.heap.table Fixed.globals).get (.text "keep") = .native (.system .getenv)) &&
        decide ((Fixed.globals, Key.text "keep") ∉ Sandbox.slots vm.heap Sandbox.capabilities) &&
        decide ((vm'.heap.table Fixed.globals).get (.text "keep") = .native (.system .getenv))
    | none => false) = true := by decide +kernel

set_option maxRecDepth 100000 in
theorem around_replacing : (match around replacing with
    | some (vm, vm') => isShut grabbingShut (emptied vm.heap) &&
        decide ((vm'.heap.table Fixed.globals).get (.text "file") = .table 5)
    | none => false) = true := by decide +kernel

end Device

end LuaCapsule
