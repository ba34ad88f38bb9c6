import LuaCapsule.Proofs.Escapes
import LuaCapsule.Proofs.PolicySpelling
import LuaCapsule.Proofs.WellFormed

/-! What the entries of a policy do to an interpreter. They are performed in their order. Each of them sets one
entry of one table that was there: the last name of its path if the tables before it are there, and otherwise
the first name that is missing, under which a chain of new tables is hung. An entry that cannot be performed
changes no table, and ends the policy: what was performed before stays, and what would come after is not tried. -/

namespace LuaCapsule

open Lua

/-! ### Replacements -/

namespace Codec

/-- Is a key that is a number one that a table can have? -/
def KeyFits : Datum → Prop
  | .int i => isInt64 i = true
  | .float x => x.isNaN = false
  | _ => True

mutual

/-- Do the integers of a value and the positions in its lists fit in 64 bits, and its keys in tables? -/
def Fits : Datum → Prop
  | .int i => isInt64 i = true
  | .list ds => AllFit ds ∧ isInt64 ds.length = true
  | .tuple ds => AllFit ds ∧ isInt64 ds.length = true
  | .mapping es => EntriesFit es
  | _ => True

def AllFit : List Datum → Prop
  | [] => True
  | d :: ds => Fits d ∧ AllFit ds

def EntriesFit : List (Datum × Datum) → Prop
  | [] => True
  | (k, d) :: es => KeyFits k ∧ Fits d ∧ EntriesFit es

end

variable {d : Datum} {vm : Vm}

theorem key?_of_keyFits {k : Datum} (fits : KeyFits k) :
    (∃ key, key? k = some key) ∨ ∃ f, keyFault? k = some f ∧ ∃ kind, f = .encode kind := by
  cases k with
  | int i =>
    have inside : isInt64 i = true := fits
    exact .inl ⟨.int (Int64.ofInt i), key?_eq_some.mpr ⟨rfl, _, if_pos inside, rfl⟩⟩
  | float x =>
    have number : x.isNaN = false := fits
    have known : (Key.ofValue? (.float x)).isSome = true := by rw [Snapshot.isSome_ofValue?_float, number]; rfl
    obtain ⟨key, known⟩ := Option.isSome_iff_exists.mp known
    exact .inl ⟨key, key?_eq_some.mpr ⟨rfl, _, rfl, known⟩⟩
  | text s => exact .inl ⟨_, rfl⟩
  | bytes b => exact .inl ⟨_, rfl⟩
  | bool b => exact .inl ⟨_, rfl⟩
  | _ => exact .inr ⟨_, rfl, _, rfl⟩

mutual

/-- What fits is refused for the kind of something in it only. -/
theorem faultsAre_of_fits : ∀ {d : Datum}, Fits d → FaultsAre (∃ kind, · = .encode kind) d
  | .list _, ⟨each, fits⟩ => ⟨allFaultsAre_of_allFit each, .inl fits⟩
  | .tuple _, ⟨each, fits⟩ => ⟨allFaultsAre_of_allFit each, .inl fits⟩
  | .mapping _, each => fieldFaultsAre_of_entriesFit each
  | .int i, fits => fun f refused => by
    have inside : isInt64 i = true := fits
    simp [scalar, inside] at refused
  | .bool _, _ => nofun
  | .float _, _ => nofun
  | .text _, _ => nofun
  | .bytes _, _ => nofun
  | .null, _ => nofun
  | .host _, _ => fun _ refused => ⟨_, (Except.error.inj refused).symm⟩
  | .live _, _ => fun _ refused => ⟨_, (Except.error.inj refused).symm⟩

theorem allFaultsAre_of_allFit : ∀ {ds : List Datum}, AllFit ds → AllFaultsAre (∃ kind, · = .encode kind) ds
  | [], _ => trivial
  | _ :: _, ⟨one, each⟩ => ⟨faultsAre_of_fits one, allFaultsAre_of_allFit each⟩

theorem fieldFaultsAre_of_entriesFit : ∀ {es : List (Datum × Datum)}, EntriesFit es →
    FieldFaultsAre (∃ kind, · = .encode kind) es
  | [], _ => trivial
  | (_, _) :: _, ⟨key, one, each⟩ => ⟨key?_of_keyFits key, faultsAre_of_fits one, fieldFaultsAre_of_entriesFit each⟩

end

/-- What fits and becomes an item has a value. -/
theorem exists_value_of_item {it : Item} {vm' : Vm} (fits : Fits d) (done : item d vm = .ok it vm') : ∃ v, it.value = .ok v := by
  cases d with
  | int i =>
    have inside : isInt64 i = true := fits
    cases done
    exact ⟨_, if_pos inside⟩
  | list ds =>
    obtain ⟨_, _, _, done⟩ := bind_eq_ok.mp done
    obtain ⟨_, _, _, done⟩ := bind_eq_ok.mp done
    cases done
    exact ⟨_, rfl⟩
  | tuple ds =>
    obtain ⟨_, _, _, done⟩ := bind_eq_ok.mp done
    obtain ⟨_, _, _, done⟩ := bind_eq_ok.mp done
    cases done
    exact ⟨_, rfl⟩
  | mapping es =>
    obtain ⟨_, _, _, done⟩ := bind_eq_ok.mp done
    obtain ⟨_, _, _, done⟩ := bind_eq_ok.mp done
    cases done
    exact ⟨_, rfl⟩
  | host o => cases done
  | live v => cases done
  | _ =>
    cases done
    exact ⟨_, rfl⟩

/-- A value that fits becomes an item for what it is encoded as, or is refused for a kind. -/
theorem item_of_fits (plain : vm.heap.PlainLists) (fits : Fits d) :
    (isEncodable d = true ∧ ∃ it w vm', item d vm = .ok it vm' ∧ it.value = .ok w ∧ vm.heap.Grows [] vm'.heap ∧
      vm'.memory = vm.memory ∧ Encoded vm'.heap vm.heap.tables.size d w) ∨
    isEncodable d = false ∧ ∃ kind vm', item d vm = .error (.encode kind) vm' ∧ vm.heap.Grows [] vm'.heap ∧
      vm'.memory = vm.memory := by
  have leaves := item_spec d vm plain
  have refuses := item_refuses plain (faultsAre_of_fits fits)
  cases done : item d vm with
  | ok it vm' =>
    obtain ⟨w, value⟩ := exists_value_of_item fits done
    rw [done] at leaves
    obtain ⟨grows, memory, is⟩ := leaves
    rw [Item.Is, value] at is
    exact .inl ⟨is.1, it, w, vm', rfl, value, grows, memory, is.2⟩
  | error f vm' =>
    rw [done] at leaves refuses
    obtain ⟨kind, rfl⟩ : ∃ kind, f = .encode kind := refuses
    exact .inr ⟨leaves.2.2, kind, vm', rfl, leaves.1, leaves.2.1⟩

end Codec

/-! ### Paths from a table -/

namespace Lua.Heap

/-- Are all tables there that names lead through, and without metatables? -/
def Passable (h : Heap) (t : Nat) : List String → Prop
  | [] => t < h.tables.size ∧ (h.table t).metatable = none
  | name :: rest => t < h.tables.size ∧ (h.table t).metatable = none ∧
    ∀ id, (h.table t).get (.text name) = .table id → h.Passable id rest

/-- What holds of a table if a value is one. -/
def decidableOfTable (p : Nat → Prop) [DecidablePred p] : ∀ v : Value, Decidable (∀ id, v = .table id → p id)
  | .ref (.table id) => decidable_of_iff (p id) ⟨fun holds _ is => by cases is; exact holds, fun all => all id rfl⟩
  | .ref (.closure _) => .isTrue nofun
  | .ref (.native _) => .isTrue nofun
  | .ref (.handle _) => .isTrue nofun
  | .ref (.cell _) => .isTrue nofun
  | .ref (.thread _) => .isTrue nofun
  | .nil => .isTrue nofun
  | .bool _ => .isTrue nofun
  | .int _ => .isTrue nofun
  | .float _ => .isTrue nofun
  | .str _ => .isTrue nofun

instance decidablePassable (h : Heap) : ∀ t names, Decidable (h.Passable t names)
  | _, [] => inferInstanceAs (Decidable (_ ∧ _))
  | t, name :: rest =>
    have := fun id => decidablePassable h id rest
    have := decidableOfTable (h.Passable · rest) ((h.table t).get (.text name))
    inferInstanceAs (Decidable (_ ∧ _ ∧ _))

/-- Names and a last name lead from a table to the entry that is set: its table and its name. More names follow
where a table is missing. -/
inductive Leads (h : Heap) (last : String) : Nat → List String → Nat → String → List String → Prop
  | here {t : Nat} : Leads h last t [] t last []
  | missing {t : Nat} {name : String} {rest : List String} (missing : (h.table t).get (.text name) = .nil) :
    Leads h last t (name :: rest) t name (rest ++ [last])
  | inside {t id x : Nat} {name n : String} {rest more : List String} (there : (h.table t).get (.text name) = .table id)
    (leads : Leads h last id rest x n more) : Leads h last t (name :: rest) x n more

/-- Names lead from a table to a value that is no table, after so many of them. -/
inductive Blocked (h : Heap) : Nat → List String → Nat → Value → Prop
  | here {t : Nat} {name : String} {rest : List String} {v : Value} (there : (h.table t).get (.text name) = v)
    (present : v ≠ .nil) (other : ∀ id, v ≠ .table id) : Blocked h t (name :: rest) 1 v
  | inside {t id n : Nat} {name : String} {rest : List String} {v : Value} (there : (h.table t).get (.text name) = .table id)
    (blocked : Blocked h id rest n v) : Blocked h t (name :: rest) (n + 1) v

/-- A value is what is set under the last of some names in new tables, each of which has one entry for the next name. -/
def Hangs (h : Heap) (first : Nat) (w : Value) : List String → Value → Prop
  | [], v => v = w
  | name :: rest, v => ∃ t u, v = .table t ∧ Codec.Stands h first t none (fun k => if .text name = k then u else .nil) ∧
    Hangs h (t + 1) w rest u

/-- Nothing of a heap is changed but one entry of a table that was there. -/
structure Written (h h' : Heap) (t : Nat) (k : Key) (v : Value) : Prop where
  grows : h.Grows [t] h'
  inside : t < h.tables.size
  metatable : (h'.table t).metatable = (h.table t).metatable
  get : ∀ k', (h'.table t).get k' = if k = k' then v else (h.table t).get k'

variable {h h' h'' : Heap} {t x first : Nat} {names more : List String} {last n : String} {v w : Value}

/-- Names lead to an entry or to a value that is no table. -/
theorem leads_or_blocked (h : Heap) (last : String) (t : Nat) (names : List String) :
    (∃ x n more, h.Leads last t names x n more) ∨ ∃ depth v, h.Blocked t names depth v := by
  induction names generalizing t with
  | nil => exact .inl ⟨t, last, [], .here⟩
  | cons name rest ih =>
    cases there : (h.table t).get (.text name) with
    | nil => exact .inl ⟨t, name, _, .missing there⟩
    | ref r =>
      cases r with
      | table id =>
        rcases ih id with ⟨x, n, more, leads⟩ | ⟨depth, v, blocked⟩
        · exact .inl ⟨x, n, more, .inside there leads⟩
        · exact .inr ⟨depth + 1, v, .inside there blocked⟩
      | _ => exact .inr ⟨1, _, .here there nofun nofun⟩
    | _ => exact .inr ⟨1, _, .here there nofun nofun⟩

theorem Passable.inside (passable : h.Passable t names) : t < h.tables.size := by
  cases names with
  | nil => exact passable.1
  | cons => exact passable.1

theorem Passable.bare (passable : h.Passable t names) : (h.table t).metatable = none := by
  cases names with
  | nil => exact passable.2
  | cons => exact passable.2.1

/-! New tables change nothing on a path. -/

theorem Grows.table_eq (grows : h.Grows [] h') (passable : h.Passable t names) : h'.table t = h.table t :=
  grows.table t passable.inside List.not_mem_nil

theorem Passable.later (grows : h.Grows [] h') (passable : h.Passable t names) : h'.Passable t names := by
  induction names generalizing t with
  | nil => exact ⟨Nat.lt_of_lt_of_le passable.1 grows.size, grows.table_eq passable ▸ passable.2⟩
  | cons name rest ih =>
    refine ⟨Nat.lt_of_lt_of_le passable.1 grows.size, ?_, fun id there => ?_⟩
    · rw [grows.table_eq passable]
      exact passable.2.1
    · rw [grows.table_eq passable] at there
      exact ih (passable.2.2 id there)

theorem Leads.later (grows : h.Grows [] h') (passable : h.Passable t names) (leads : h.Leads last t names x n more) :
    h'.Leads last t names x n more := by
  induction leads with
  | here => exact .here
  | missing missing => exact .missing (grows.table_eq passable ▸ missing)
  | inside there _ ih => exact .inside (grows.table_eq passable ▸ there) (ih (passable.2.2 _ there))

theorem Blocked.later {depth : Nat} (grows : h.Grows [] h') (passable : h.Passable t names) (blocked : h.Blocked t names depth v) :
    h'.Blocked t names depth v := by
  induction blocked with
  | here there present other => exact .here (grows.table_eq passable ▸ there) present other
  | inside there _ ih => exact .inside (grows.table_eq passable ▸ there) (ih (passable.2.2 _ there))

/-- The entry that is set is one of a table that was there. -/
theorem Leads.lt_size (leads : h.Leads last t names x n more) (passable : h.Passable t names) : x < h.tables.size := by
  induction leads with
  | here => exact passable.1
  | missing => exact passable.1
  | inside there _ ih => exact ih (passable.2.2 _ there)

/-! ### Writing -/

theorem written_rawSet (inside : t < h.tables.size) (k : Key) (v : Value) : h.Written (h.rawSet t k v) t k v where
  grows := h.grows_rawSet t k v
  inside := inside
  metatable := by rw [rawSet, table_modifyTable, if_pos ⟨rfl, inside⟩, Table.metatable_set]
  get := fun k' => by rw [rawSet, table_modifyTable, if_pos ⟨rfl, inside⟩, Table.get_set]

/-- What is written to a table that is new since is not seen. -/
theorem Grows.trans_new {written : List Nat} (grows : h.Grows written h') (grows' : h'.Grows [t] h'') (new : h.tables.size ≤ t) :
    h.Grows written h'' where
  others := by rw [grows'.others, grows.others]
  size := Nat.le_trans grows.size grows'.size
  table := by
    intro t' inside other
    have apart : t' ∉ [t] := fun mem => absurd (List.mem_singleton.mp mem) (by omega)
    rw [grows'.table t' (Nat.lt_of_lt_of_le inside grows.size) apart, grows.table t' inside other]

theorem Written.trans_new {k : Key} (written : h.Written h' t k v) (grows : h'.Grows [x] h'') (new : h.tables.size ≤ x) :
    h.Written h'' t k v := by
  have same : h''.table t = h'.table t := by
    have inside := written.inside
    refine grows.table t (Nat.lt_of_lt_of_le inside written.grows.size) fun mem => absurd (List.mem_singleton.mp mem) (by omega)
  exact ⟨written.grows.trans_new grows new, written.inside, same ▸ written.metatable, same ▸ written.get⟩

theorem Written.after {k : Key} (grows : h.Grows [] h') (inside : t < h.tables.size) (written : h'.Written h'' t k v) :
    h.Written h'' t k v := by
  have same : h'.table t = h.table t := grows.table t inside List.not_mem_nil
  exact ⟨grows.weaken.trans written.grows, inside, same ▸ written.metatable, same ▸ written.get⟩

/-- A new table under a name of a table. -/
def link (h : Heap) (t : Nat) (name : String) : Heap := (h.newTable {}).2.rawSet t (.text name) (.table h.tables.size)

theorem written_link (inside : t < h.tables.size) (name : String) :
    h.Written (h.link t name) t (.text name) (.table h.tables.size) := by
  have made := (Grows.refl [h.tables.size] (h.newTable {}).2).of_newTable
  exact (written_rawSet (Nat.lt_of_lt_of_le inside made.size) _ _).after made inside

theorem stands_link (inside : t < h.tables.size) (name : String) :
    Codec.Stands (h.link t name) h.tables.size h.tables.size none fun _ => .nil := by
  refine (Codec.stands_newTable h none).later (grows_rawSet _ t (.text name) (.table h.tables.size)) fun mem => ?_
  exact absurd (List.mem_singleton.mp mem) (Nat.ne_of_gt inside)

theorem Hangs.below {first' : Nat} (hangs : h.Hangs first w names v) (le : first' ≤ first) : h.Hangs first' w names v := by
  cases names with
  | nil => exact hangs
  | cons name rest =>
    obtain ⟨t, u, is, stands, rest⟩ := hangs
    exact ⟨t, u, is, stands.below le, rest⟩

end Lua.Heap

/-! ### Following names -/

namespace Vm

variable {vm vm' : Vm} {path names more : List String} {name last n : String} {depth t x id first : Nat} {v w : Value}

/-- Sets the entry under a last name of the table that names lead to. -/
def setFrom (path : List String) (depth t : Nat) (names : List String) (last : String) (w : Value) : VmM Unit := do
  let t ← parent path depth t names
  store (.table t) (.text last) w

theorem setPath_eq {it : Codec.Item} (value : it.value = .ok w) :
    setPath (names ++ [last]) it = setFrom (names ++ [last]) 0 Fixed.globals names last w := by
  rw [setPath, List.dropLast_concat, List.getLast?_concat, value]
  rfl

theorem parent_cons_of_nil (direct : vm.heap.Direct t) (missing : (vm.heap.table t).get (.text name) = .nil) :
    parent path depth t (name :: names) vm = parent path (depth + 1) vm.heap.tables.size names
      { vm with heap := vm.heap.link t name } := by
  rw [parent_cons_eq direct, missing, bind_of_ok (see_eq .nil vm)]
  exact descend_nil_eq direct path depth names

theorem parent_cons_of_table (direct : vm.heap.Direct t) (there : (vm.heap.table t).get (.text name) = .table id) :
    parent path depth t (name :: names) vm = parent path (depth + 1) id names vm := by
  rw [parent_cons_eq direct, there, bind_of_ok (see_eq (.table id) vm)]
  rfl

theorem setFrom_congr {vm₁ : Vm} {depth' t' : Nat} {names' : List String}
    (same : parent path depth t names vm = parent path depth' t' names' vm₁) :
    setFrom path depth t names last w vm = setFrom path depth' t' names' last w vm₁ := by
  change EStateM.bind (parent path depth t names) _ vm = EStateM.bind (parent path depth' t' names') _ vm₁
  rw [EStateM.bind, EStateM.bind, same]

/-- In a new table without entries, names make a chain of new tables. -/
theorem setFrom_new (empty : Codec.Stands vm.heap t t none fun _ => .nil) : ∃ vm',
    setFrom path depth t names last w vm = .ok () vm' ∧ vm.heap.Grows [t] vm'.heap ∧ vm'.memory = vm.memory ∧
      vm'.heap.Hangs t w (names ++ [last]) (.table t) := by
  induction names generalizing depth t vm with
  | nil =>
    refine ⟨_, store_eq (Heap.direct_of_bare empty.metatable) last w, vm.heap.grows_rawSet .., rfl, t, w, rfl, ?_, rfl⟩
    exact empty.rawSet fun k => rfl
  | cons name rest ih =>
    rw [setFrom_congr (parent_cons_of_nil (Heap.direct_of_bare empty.metatable) (empty.get _))]
    have written := Heap.written_link empty.inside name
    obtain ⟨vm', done, grows, memory, hangs⟩ := @ih { vm with heap := _ } (depth + 1) _ (Heap.stands_link empty.inside name)
    have kept := written.trans_new grows (Nat.le_refl _)
    refine ⟨vm', done, kept.grows, memory, t, .table vm.heap.tables.size, rfl, ⟨Nat.le_refl _, ?_, ?_, fun k => ?_⟩,
      hangs.below empty.inside⟩
    · exact Nat.lt_of_lt_of_le empty.inside kept.grows.size
    · rw [kept.metatable, empty.metatable]
    · rw [kept.get, empty.get]

/-- Through tables without metatables, an entry is set where names lead to, and no other one. -/
theorem setFrom_leads (path : List String) (depth : Nat) (w : Value) (leads : vm.heap.Leads last t names x n more) (passable : vm.heap.Passable t names) : ∃ v vm',
    setFrom path depth t names last w vm = .ok () vm' ∧ vm'.memory = vm.memory ∧
      vm.heap.Written vm'.heap x (.text n) v ∧ vm'.heap.Hangs vm.heap.tables.size w more v := by
  induction leads generalizing depth with
  | @here t =>
    exact ⟨w, _, store_eq (Heap.direct_of_bare passable.2) last w, rfl, Heap.written_rawSet passable.1 _ w, rfl⟩
  | @missing t name rest missing =>
    rw [setFrom_congr (parent_cons_of_nil (Heap.direct_of_bare passable.bare) missing)]
    have inside := passable.inside
    obtain ⟨vm', done, grows, memory, hangs⟩ := @setFrom_new { vm with heap := _ } path rest last (depth + 1) _ w
      (Heap.stands_link inside name)
    exact ⟨.table vm.heap.tables.size, vm', done, memory, (Heap.written_link inside name).trans_new grows (Nat.le_refl _), hangs⟩
  | inside there leads ih =>
    rw [setFrom_congr (parent_cons_of_table (Heap.direct_of_bare passable.bare) there)]
    exact ih (depth + 1) (passable.2.2 _ there)

theorem descend_of_other (present : v ≠ .nil) (other : ∀ id, v ≠ .table id) :
    descend path depth t name names v = throw (pathFault path (depth + 1)) := by
  unfold descend
  split
  · exact absurd rfl present
  · exact absurd rfl (other _)
  · rfl

/-- Where names lead to a value that is no table, nothing is set. -/
theorem setFrom_blocked {behind : Nat} (path : List String) (depth : Nat) (last : String) (w : Value)
    (blocked : vm.heap.Blocked t names behind v) (passable : vm.heap.Passable t names) :
    setFrom path depth t names last w vm = .error (if Codec.isText v then pathFault path (depth + behind) else .undecodable)
      { vm with heap := afterSeeing vm.heap v } := by
  induction blocked generalizing depth with
  | @here t name rest v there present other =>
    refine bind_of_error ?_
    have shown := see_eq v vm
    rw [parent_cons_eq (Heap.direct_of_bare passable.bare), there]
    cases text : Codec.isText v with
    | true =>
      rw [text, if_pos rfl] at shown
      rw [bind_of_ok shown, descend_of_other present other]
      rfl
    | false =>
      rw [text, if_neg Bool.false_ne_true] at shown
      rw [bind_of_error shown]
      cases v with
      | str b => rfl
      | _ => cases text
  | @inside t id behind name rest v there _ ih =>
    rw [setFrom_congr (parent_cons_of_table (Heap.direct_of_bare passable.bare) there), ih (depth + 1) (passable.2.2 _ there),
      Nat.add_right_comm, Nat.add_assoc]

end Vm

/-! ### Entries -/

namespace Sandbox

variable {standard before after entries : List Entry} {policy : Datum} {e : Entry} {f : Fault} {vm vm' vm₁ : Vm}

/-- An entry is performed: its replacement is encoded, and set under the last name of its path, in new tables if
names before that are missing. -/
def Performs (e : Entry) (vm vm' : Vm) : Prop :=
  ∃ names last t n more v w, e.path = names ++ [last] ∧ vm.heap.Leads last Fixed.globals names t n more ∧
    vm.heap.Written vm'.heap t (.text n) v ∧ vm'.heap.Hangs vm.heap.tables.size w more v ∧
    Codec.Encoded vm'.heap vm.heap.tables.size e.replacement w ∧ vm'.memory = vm.memory

/-- An entry is refused, for its replacement or for a value in its way, and no object that was there is changed,
unless that value is a coroutine that has not begun: the host takes its function away. -/
inductive Refuses (e : Entry) (vm : Vm) : Fault → Vm → Prop
  | replacement {kind : String} {vm' : Vm} (none : Codec.isEncodable e.replacement = false) (grows : vm.heap.Grows [] vm'.heap)
    (memory : vm'.memory = vm.memory) : Refuses e vm (.encode kind) vm'
  | path {names : List String} {last : String} {depth : Nat} {v : Value} {vm' : Vm} (is : e.path = names ++ [last])
    (encodable : Codec.isEncodable e.replacement = true) (blocked : vm.heap.Blocked Fixed.globals names depth v)
    (grows : (Vm.afterSeeing vm.heap v).Grows [] vm'.heap) (memory : vm'.memory = vm.memory) :
    Refuses e vm (if Codec.isText v then Vm.pathFault e.path depth else .undecodable) vm'

/-- Can an entry be tried? Lists answer for themselves, and the tables on the path are there, without metatables. -/
structure Ready (e : Entry) (vm : Vm) : Prop where
  plain : vm.heap.PlainLists
  passable : vm.heap.Passable Fixed.globals e.path.dropLast

instance : Decidable (Ready e vm) :=
  decidable_of_iff (((vm.heap.table Fixed.sequence).get (.text "__index") = .nil ∧
      (vm.heap.table Fixed.sequence).get (.text "__newindex") = .nil ∧ (vm.heap.table Fixed.sequence).get (.text "__len") = .nil) ∧
      vm.heap.Passable Fixed.globals e.path.dropLast)
    ⟨fun ⟨⟨index, newItem, length⟩, passable⟩ => ⟨⟨index, newItem, length⟩, passable⟩,
      fun ⟨⟨index, newItem, length⟩, passable⟩ => ⟨⟨index, newItem, length⟩, passable⟩⟩

theorem grows_afterSeeing {h h' : Heap} (grows : h.Grows [] h') (v : Value) :
    (Vm.afterSeeing h v).Grows [] (Vm.afterSeeing h' v) := by
  cases v with
  | ref r =>
    cases r with
    | thread t =>
      have same : h'.thread t = h.thread t := by rw [grows.others]; rfl
      unfold Vm.afterSeeing
      simp only [same]
      split
      · refine ⟨?_, grows.size, grows.table⟩
        rw [Heap.setThread, Heap.setThread, grows.others]
      · exact grows
    | _ => exact grows
  | _ => exact grows

/-- An entry is performed or refused. -/
theorem overwrite_spec (named : e.path ≠ []) (fits : Codec.Fits e.replacement) (ready : Ready e vm) :
    (∃ vm', overwrite e vm = .ok () vm' ∧ Performs e vm vm') ∨ ∃ f vm', overwrite e vm = .error f vm' ∧ Refuses e vm f vm' := by
  obtain ⟨names, last, is⟩ : ∃ names last, e.path = names ++ [last] :=
    ⟨_, _, (List.dropLast_append_getLast named).symm⟩
  have passable : vm.heap.Passable Fixed.globals names := by
    have passable := ready.passable
    rwa [is, List.dropLast_concat] at passable
  rcases Codec.item_of_fits ready.plain fits with
    ⟨encodable, it, w, vm₁, item, value, grows, memory, encoded⟩ | ⟨refused, kind, vm', item, grows, memory⟩
  · have overwritten : overwrite e vm = Vm.setFrom e.path 0 Fixed.globals names last w vm₁ := by
      rw [overwrite, bind_of_ok item, is, Vm.setPath_eq value]
    rcases vm.heap.leads_or_blocked last Fixed.globals names with ⟨t, n, more, leads⟩ | ⟨depth, v, blocked⟩
    · have inside := leads.lt_size passable
      obtain ⟨v, vm', done, memory', written, hangs⟩ := Vm.setFrom_leads e.path 0 w
        (leads.later grows passable) (passable.later grows)
      refine .inl ⟨vm', overwritten.trans done, names, last, t, n, more, v, w, is, leads, written.after grows inside,
        hangs.below grows.size, encoded.later written.grows (by simpa using inside), memory'.trans memory⟩
    · have done := Vm.setFrom_blocked e.path 0 last w
        (blocked.later grows passable) (passable.later grows)
      rw [Nat.zero_add] at done
      exact .inr ⟨_, _, overwritten.trans done, .path is encodable blocked (grows_afterSeeing grows v) memory⟩
  · exact .inr ⟨.encode kind, vm', bind_of_error item, .replacement refused grows memory⟩

/-! ### Policies -/

/-- Entries are performed one after the other. -/
inductive Performed : List Entry → Vm → Vm → Prop
  | nil {vm : Vm} : Performed [] vm vm
  | cons {e : Entry} {entries : List Entry} {vm vm₁ vm' : Vm} (one : Performs e vm vm₁) (others : Performed entries vm₁ vm') :
    Performed (e :: entries) vm vm'

/-- Entries are all performed, or those before the first one that is refused. -/
theorem forM_overwrite_spec (named : ∀ e ∈ entries, e.path ≠ []) (fits : ∀ e ∈ entries, Codec.Fits e.replacement)
    (ready : ∀ before e after vm₁, entries = before ++ e :: after → before.forM overwrite vm = .ok ⟨⟩ vm₁ → Ready e vm₁) :
    (∃ vm', entries.forM overwrite vm = .ok ⟨⟩ vm' ∧ Performed entries vm vm') ∨
    ∃ before e after vm₁ f vm', entries = before ++ e :: after ∧ before.forM overwrite vm = .ok ⟨⟩ vm₁ ∧ Performed before vm vm₁ ∧
      Refuses e vm₁ f vm' ∧ entries.forM overwrite vm = .error f vm' := by
  induction entries generalizing vm with
  | nil => exact .inl ⟨vm, rfl, .nil⟩
  | cons e entries ih =>
    obtain ⟨path, others⟩ := List.forall_mem_cons.mp named
    obtain ⟨fit, fits⟩ := List.forall_mem_cons.mp fits
    rcases overwrite_spec path fit (ready [] e entries vm rfl rfl) with ⟨vm₁, done, performs⟩ | ⟨f, vm', failed, refuses⟩
    · have next (entries : List Entry) : (e :: entries).forM overwrite vm = entries.forM overwrite vm₁ := bind_of_ok done
      rcases ih others fits fun before e' after vm₂ is reached =>
          ready (e :: before) e' after vm₂ (by rw [is]; rfl) ((next before).trans reached) with
        ⟨vm', all, performed⟩ | ⟨before, e', after, vm₂, f, vm', is, reached, performed, refuses, failed⟩
      · exact .inl ⟨vm', (next entries).trans all, .cons performs performed⟩
      · exact .inr ⟨e :: before, e', after, vm₂, f, vm', by rw [is]; rfl, (next before).trans reached, .cons performs performed,
          refuses, (next entries).trans failed⟩
    · exact .inr ⟨[], e, entries, vm, f, vm', rfl, rfl, .nil, refuses, bind_of_error failed⟩

theorem enforce_eq (normal : normalize policy standard = .ok entries) :
    enforce standard policy vm = (entries.forM overwrite >>= fun _ => pure entries) vm := by
  rw [enforce, normal]
  rfl

/-- A policy that is none changes nothing. Otherwise its entries are performed in their order, either all of them
or all before the first one that is refused, and those after that are not tried. This holds if the entries can be
tried: each one fits, and finds lists that answer for themselves and tables without metatables on its path. -/
theorem enforce_spec (named : ∀ e ∈ standard, e.path ≠ [])
    (fits : ∀ entries, normalize policy standard = .ok entries → ∀ e ∈ entries, Codec.Fits e.replacement)
    (ready : ∀ before e after vm₁, normalize policy standard = .ok (before ++ e :: after) →
      before.forM overwrite vm = .ok ⟨⟩ vm₁ → Ready e vm₁) :
    (∀ f, normalize policy standard = .error f → (∃ message, f = .init message) ∧ enforce standard policy vm = .error f vm) ∧
    ∀ entries, normalize policy standard = .ok entries →
      (∃ vm', enforce standard policy vm = .ok entries vm' ∧ Performed entries vm vm') ∨
      ∃ before e after vm₁ f vm', entries = before ++ e :: after ∧ before.forM overwrite vm = .ok ⟨⟩ vm₁ ∧
        Performed before vm vm₁ ∧ Refuses e vm₁ f vm' ∧ enforce standard policy vm = .error f vm' := by
  refine ⟨fun f refused => ⟨exists_init_of_normalize refused, by rw [enforce, refused]; rfl⟩, fun entries normal => ?_⟩
  have paths : ∀ e ∈ entries, e.path ≠ [] := by
    by_cases all : policy = .bool true
    · rw [all] at normal
      cases normal
      exact named
    · exact path_ne_nil_of_normalize all normal
  rcases forM_overwrite_spec paths (fits entries normal) fun before e after vm₁ is => ready before e after vm₁ (is ▸ normal) with
    ⟨vm', done, performed⟩ | ⟨before, e, after, vm₁, f, vm', is, reached, performed, refuses, failed⟩
  · exact .inl ⟨vm', (enforce_eq normal).trans (bind_of_ok done), performed⟩
  · exact .inr ⟨before, e, after, vm₁, f, vm', is, reached, performed, refuses, (enforce_eq normal).trans (bind_of_error failed)⟩

/-- A policy whose entries go through a table that is there, and through one that the first of them makes. -/
def nested : Datum := .mapping [(.text "os.fresh.name", .list [.int 1]), (.text "_G/os/fresh/other", .null)]

def madeEntry : Entry := ⟨["os", "fresh", "name"], .list [.int 1]⟩

def otherEntry : Entry := ⟨["os", "fresh", "other"], .null⟩

def libraryVm : Vm := ⟨Fixed.heap, none⟩

theorem normalize_nested : normalize nested defaults = .ok [madeEntry, otherEntry] := rfl

set_option maxRecDepth 100000 in
theorem ready_nested : (match [madeEntry].forM overwrite libraryVm, enforce defaults nested libraryVm with
    | .ok _ vm, .ok _ _ => decide (Ready madeEntry libraryVm) && decide (Ready otherEntry vm)
    | _, _ => false) = true := by decide +kernel

theorem enforce_spec_nested : ∃ vm', enforce defaults nested libraryVm = .ok [madeEntry, otherEntry] vm' ∧
    Performed [madeEntry, otherEntry] libraryVm vm' := by
  have checked := ready_nested
  split at checked
  next vm₁ _ vm' reached done =>
    obtain ⟨first, second⟩ := Bool.and_eq_true_iff.mp checked
    have fits : ∀ e ∈ [madeEntry, otherEntry], Codec.Fits e.replacement := by
      simp [madeEntry, otherEntry, Codec.Fits, Codec.AllFit]
      decide
    have tried := (@enforce_spec defaults nested libraryVm (by decide)
      (fun entries normal => by cases normalize_nested.symm.trans normal; exact fits) ?_).2 _ normalize_nested
    · rcases tried with performed | ⟨_, _, _, _, f, vm', _, _, _, _, failed⟩
      · exact performed
      · cases failed.symm.trans done
    · intro before e after vm₂ normal reached'
      have is := Except.ok.inj (normalize_nested.symm.trans normal)
      rcases before with _ | ⟨a, _ | ⟨b, before⟩⟩
      · cases is
        cases reached'
        exact of_decide_eq_true first
      · cases is
        cases reached.symm.trans reached'
        exact of_decide_eq_true second
      · simp at is
  next => cases checked

/-- An interpreter with a global variable that holds bytes that are no text. -/
def garbledVm : Vm := ⟨Fixed.heap.rawSet Fixed.globals (.text "x") (.str ⟨#[0xff]⟩), none⟩

def garbledEntry : Entry := ⟨["x", "y"], .int 1⟩

theorem overwrite_garbled (blocked : garbledVm.heap.Blocked Fixed.globals ["x"] 1 (.str ⟨#[0xff]⟩))
    (ready : Ready garbledEntry garbledVm) : overwrite garbledEntry garbledVm = .error .undecodable garbledVm := by
  have entered : Codec.item (.int 1) garbledVm = .ok (.scalar (.int 1)) garbledVm := rfl
  have failed := Vm.setFrom_blocked ["x", "y"] 0 "y" (.int 1) blocked ready.passable
  have bytes : Codec.isText (.str ⟨#[0xff]⟩) = false := by decide
  rw [bytes, if_neg Bool.false_ne_true] at failed
  rw [overwrite, garbledEntry, bind_of_ok entered]
  exact (congrFun (@Vm.setPath_eq ["x"] "y" (.int 1) (.scalar (.int 1)) rfl) garbledVm).trans failed

/-- A path through such bytes is refused because they are no text, and not because they are no table. -/
theorem enforce_garbled : normalize (.mapping [(.text "x.y", .int 1)]) defaults = .ok [garbledEntry] ∧
    Codec.Fits garbledEntry.replacement ∧ Ready garbledEntry garbledVm ∧
    garbledVm.heap.Blocked Fixed.globals ["x"] 1 (.str ⟨#[0xff]⟩) ∧
    enforce defaults (.mapping [(.text "x.y", .int 1)]) garbledVm = .error .undecodable garbledVm ∧
    ∀ message, Fault.undecodable ≠ .init message := by
  have ready : Ready garbledEntry garbledVm := by decide +kernel
  have blocked : garbledVm.heap.Blocked Fixed.globals ["x"] 1 (.str ⟨#[0xff]⟩) := .here (by decide +kernel) nofun nofun
  have fits : isInt64 1 = true := by decide
  have normal : normalize (.mapping [(.text "x.y", .int 1)]) defaults = .ok [garbledEntry] := rfl
  have failed : [garbledEntry].forM overwrite garbledVm = .error .undecodable garbledVm :=
    bind_of_error (overwrite_garbled blocked ready)
  exact ⟨normal, fits, ready, blocked, (enforce_eq normal).trans (bind_of_error failed), nofun⟩

end Sandbox

end LuaCapsule
