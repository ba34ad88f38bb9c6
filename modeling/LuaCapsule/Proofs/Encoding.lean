import LuaCapsule.Codec.Encode
import LuaCapsule.Proofs.PlainLists

/-! What encoding makes of a value. As long as lists answer for themselves, a list becomes a new
table whose entries are its items but null, and a mapping one whose entries are the values that
its keys have last. Objects that were there before stay as they are, also when it fails, and it
fails for values that have no such form and for no others. -/

namespace LuaCapsule

open Lua

/-! ### Growing heaps -/

/-- A heap that differs from another one in new tables and in those of a list only. -/
structure Lua.Heap.Grows (written : List Nat) (h h' : Heap) : Prop where
  others : h' = { h with tables := h'.tables, founded := h'.founded }
  size : h.tables.size ≤ h'.tables.size
  table : ∀ t < h.tables.size, t ∉ written → h'.table t = h.table t

namespace Lua.Heap

variable {h h' h'' : Heap} {written : List Nat}

theorem Grows.refl (written : List Nat) (h : Heap) : h.Grows written h := ⟨rfl, Nat.le_refl _, fun _ _ _ => rfl⟩

theorem Grows.trans (first : h.Grows written h') (second : h'.Grows written h'') : h.Grows written h'' where
  others := by
    rw [second.others, first.others]
  size := Nat.le_trans first.size second.size
  table := by
    intro t inside other
    rw [second.table t (Nat.lt_of_lt_of_le inside first.size) other, first.table t inside other]

theorem Grows.weaken (grows : h.Grows [] h') : h.Grows written h' :=
  ⟨grows.others, grows.size, fun t inside _ => grows.table t inside List.not_mem_nil⟩

/-- What is written to a new table only is not seen in those that were there. -/
theorem Grows.of_newTable {table : Table} (grows : (h.newTable table).2.Grows [h.tables.size] h') : h.Grows [] h' where
  others := grows.others
  size := by
    have := grows.size
    simp only [newTable, Array.size_push] at this
    omega
  table := by
    intro t inside _
    have old : t ≠ h.tables.size := Nat.ne_of_lt inside
    rw [grows.table t (by simp only [newTable, Array.size_push]; omega) (by simpa using old), table_newTable, if_neg old]

theorem grows_rawSet (h : Heap) (t : Nat) (k : Key) (v : Value) : h.Grows [t] (h.rawSet t k v) where
  others := rfl
  size := by simp [rawSet, modifyTable]
  table := by
    intro t' _ other
    rw [rawSet, table_modifyTable, if_neg]
    exact fun same => other (by simp [same.1])

/-- The metatable of lists is no new table. -/
theorem sequence_lt (h : Heap) : Fixed.sequence < h.tables.size := Nat.lt_of_lt_of_le (by decide) h.founded

theorem PlainLists.of_grows (plain : h.PlainLists) (grows : h.Grows written h') (other : Fixed.sequence ∉ written) :
    h'.PlainLists := by
  have same := grows.table _ h.sequence_lt other
  exact ⟨same ▸ plain.index, same ▸ plain.newItem, same ▸ plain.length⟩

end Lua.Heap

namespace Codec

/-! ### Values that can be encoded -/

/-- The key of a table that a key of a mapping becomes. -/
def key? (d : Datum) : Option Key :=
  match keyFault? d, scalar d with
  | none, .ok v => Key.ofValue? v
  | _, _ => none

mutual

/-- Can a value be encoded? The positions in a list are 64-bit integers. -/
def isEncodable : Datum → Bool
  | .list items => areEncodable items && isInt64 items.length
  | .tuple items => areEncodable items && isInt64 items.length
  | .mapping entries => areFields entries
  | d => (scalar d).toBool

def areEncodable : List Datum → Bool
  | [] => true
  | d :: ds => isEncodable d && areEncodable ds

def areFields : List (Datum × Datum) → Bool
  | [] => true
  | (k, d) :: rest => isEncodable d && (key? k).isSome && areFields rest

end

theorem int_of_scalar {i : Int} {v : Value} (entered : scalar (.int i) = .ok v) : isInt64 i = true ∧ v = .int (Int64.ofInt i) := by
  have entered : (if isInt64 i then .ok (.int (Int64.ofInt i)) else .error .overflow : Except Fault Value) = .ok v := entered
  split at entered
  next fits =>
    cases entered
    exact ⟨fits, rfl⟩
  next => cases entered

/-! ### What values become -/

/-- The value under a key of a table of list items. -/
def itemAt (vs : List Value) : Key → Value
  | .int i => if 1 ≤ i.toInt then vs.getD (i.toInt.toNat - 1) .nil else .nil
  | _ => .nil

/-- The value that a key has last among entries. -/
def lastAt (kvs : List (Key × Value)) (k : Key) : Value := kvs.foldl (fun v kv => if kv.1 = k then kv.2 else v) .nil

/-- A table, from a number on, with a metatable and with what stands under each key. -/
structure Stands (h : Heap) (first t : Nat) (metatable : Option Nat) (get : Key → Value) : Prop where
  first : first ≤ t
  inside : t < h.tables.size
  metatable : (h.table t).metatable = metatable
  get : ∀ k, (h.table t).get k = get k

mutual

/-- A value of the host and what it becomes, with tables from a number on: each table comes
before those of its items. -/
def Encoded (h : Heap) (first : Nat) : Datum → Value → Prop
  | .list items, v =>
    ∃ t vs, v = .table t ∧ EncodedAll h (t + 1) items vs ∧ Stands h first t (some Fixed.sequence) (itemAt vs)
  | .tuple items, v =>
    ∃ t vs, v = .table t ∧ EncodedAll h (t + 1) items vs ∧ Stands h first t (some Fixed.sequence) (itemAt vs)
  | .mapping entries, v =>
    ∃ t kvs, v = .table t ∧ EncodedFields h (t + 1) entries kvs ∧ Stands h first t none (lastAt kvs)
  | d, v => scalar d = .ok v

def EncodedAll (h : Heap) (first : Nat) : List Datum → List Value → Prop
  | [], vs => vs = []
  | d :: ds, vs => ∃ v rest, vs = v :: rest ∧ Encoded h first d v ∧ EncodedAll h first ds rest

def EncodedFields (h : Heap) (first : Nat) : List (Datum × Datum) → List (Key × Value) → Prop
  | [], kvs => kvs = []
  | (k, d) :: es, kvs => ∃ key v rest, kvs = (key, v) :: rest ∧ key? k = some key ∧ Encoded h first d v ∧
    EncodedFields h first es rest

end

/-! ### Laws -/

variable {h h' : Heap} {written : List Nat} {first first' t : Nat}

theorem Stands.later {m : Option Nat} {get : Key → Value} (stands : Stands h first t m get) (grows : h.Grows written h')
    (other : t ∉ written) : Stands h' first t m get := by
  have same := grows.table t stands.inside other
  exact ⟨stands.first, Nat.lt_of_lt_of_le stands.inside grows.size, same ▸ stands.metatable, same ▸ stands.get⟩

theorem Stands.below {m : Option Nat} {get : Key → Value} (stands : Stands h first t m get) (le : first' ≤ first) :
    Stands h first' t m get :=
  ⟨Nat.le_trans le stands.first, stands.inside, stands.metatable, stands.get⟩

/-- Tables from a number on are tables from a smaller one on. -/
theorem Encoded.below {d : Datum} {v : Value} (encoded : Encoded h first d v) (le : first' ≤ first) :
    Encoded h first' d v := by
  cases d with
  | list items =>
    obtain ⟨t, vs, is, each, stands⟩ := encoded
    exact ⟨t, vs, is, each, stands.below le⟩
  | tuple items =>
    obtain ⟨t, vs, is, each, stands⟩ := encoded
    exact ⟨t, vs, is, each, stands.below le⟩
  | mapping entries =>
    obtain ⟨t, kvs, is, each, stands⟩ := encoded
    exact ⟨t, kvs, is, each, stands.below le⟩
  | _ => exact encoded

theorem EncodedAll.below (le : first' ≤ first) :
    ∀ {ds : List Datum} {vs : List Value}, EncodedAll h first ds vs → EncodedAll h first' ds vs
  | [], _, is => is
  | _ :: _, _, ⟨v, rest, is, one, others⟩ => ⟨v, rest, is, one.below le, others.below le⟩

mutual

/-- What is written to smaller tables and to new ones changes nothing. -/
theorem Encoded.later (grows : h.Grows written h') {first : Nat} (apart : ∀ t ∈ written, t < first) :
    ∀ {d : Datum} {v : Value}, Encoded h first d v → Encoded h' first d v
  | .list _, _, ⟨t, vs, is, each, stands⟩ =>
    ⟨t, vs, is, EncodedAll.later grows (fun t' mem => Nat.lt_succ_of_lt (Nat.lt_of_lt_of_le (apart t' mem) stands.first)) each,
      stands.later grows fun mem => absurd (apart t mem) (Nat.not_lt_of_le stands.first)⟩
  | .tuple _, _, ⟨t, vs, is, each, stands⟩ =>
    ⟨t, vs, is, EncodedAll.later grows (fun t' mem => Nat.lt_succ_of_lt (Nat.lt_of_lt_of_le (apart t' mem) stands.first)) each,
      stands.later grows fun mem => absurd (apart t mem) (Nat.not_lt_of_le stands.first)⟩
  | .mapping _, _, ⟨t, kvs, is, each, stands⟩ =>
    ⟨t, kvs, is, EncodedFields.later grows (fun t' mem => Nat.lt_succ_of_lt (Nat.lt_of_lt_of_le (apart t' mem) stands.first)) each,
      stands.later grows fun mem => absurd (apart t mem) (Nat.not_lt_of_le stands.first)⟩
  | .null, _, is => is
  | .bool _, _, is => is
  | .int _, _, is => is
  | .float _, _, is => is
  | .text _, _, is => is
  | .bytes _, _, is => is
  | .host _, _, is => is
  | .live _, _, is => is

theorem EncodedAll.later (grows : h.Grows written h') {first : Nat} (apart : ∀ t ∈ written, t < first) :
    ∀ {ds : List Datum} {vs : List Value}, EncodedAll h first ds vs → EncodedAll h' first ds vs
  | [], _, is => is
  | _ :: _, _, ⟨v, rest, is, one, others⟩ =>
    ⟨v, rest, is, Encoded.later grows apart one, EncodedAll.later grows apart others⟩

theorem EncodedFields.later (grows : h.Grows written h') {first : Nat} (apart : ∀ t ∈ written, t < first) :
    ∀ {es : List (Datum × Datum)} {kvs : List (Key × Value)}, EncodedFields h first es kvs → EncodedFields h' first es kvs
  | [], _, is => is
  | (_, _) :: _, _, ⟨key, v, rest, is, known, one, others⟩ =>
    ⟨key, v, rest, is, known, Encoded.later grows apart one, EncodedFields.later grows apart others⟩

end

theorem EncodedAll.length_eq : ∀ {ds : List Datum} {vs : List Value}, EncodedAll h first ds vs → vs.length = ds.length
  | [], _, rfl => rfl
  | _ :: _, _, ⟨_, _, rfl, _, others⟩ => congrArg (· + 1) others.length_eq

theorem itemAt_nil : itemAt [] = fun _ => .nil := by
  funext k
  cases k <;> simp [itemAt]

/-- One more item goes under the next position. -/
theorem itemAt_concat (vs : List Value) (v : Value) (k : Key) (fits : isInt64 (vs.length + 1) = true) :
    itemAt (vs ++ [v]) k = if .int (Int64.ofInt (vs.length + 1)) = k then v else itemAt vs k := by
  cases k with
  | int i =>
    have position : (Int64.ofInt (vs.length + 1)).toInt = vs.length + 1 := Binary64.toInt_ofInt_of_isInt64 fits
    simp only [itemAt, Key.int.injEq]
    by_cases same : Int64.ofInt (vs.length + 1) = i
    · subst same
      rw [if_pos rfl, position, if_pos (by omega), show ((vs.length : Int) + 1).toNat - 1 = vs.length from by omega]
      simp
    · rw [if_neg same]
      split
      next positive =>
        have apart : i.toInt.toNat - 1 ≠ vs.length := by
          intro last
          refine same (Int64.toInt_inj.mp ?_)
          rw [position]
          omega
        simp only [List.getD_eq_getElem?_getD, List.getElem?_append, List.getElem?_singleton]
        by_cases inside : i.toInt.toNat - 1 < vs.length
        · rw [if_pos inside]
        · rw [if_neg inside, if_neg (by omega), List.getElem?_eq_none (by omega)]
      next => rfl
  | _ => rfl

theorem lastAt_concat (kvs : List (Key × Value)) (key : Key) (v : Value) (k : Key) :
    lastAt (kvs ++ [(key, v)]) k = if key = k then v else lastAt kvs k := by
  simp [lastAt]

/-! ### Operations of the host -/

/-- How an operation comes out that writes to a list of tables and new ones only: with a result
that is as it should be, or not for a good reason. -/
def Leaves {α : Type} (written : List Nat) (vm : Vm) (good : α → Heap → Prop) (bad : Prop) :
    EStateM.Result Fault Vm α → Prop
  | .ok a vm' => vm.heap.Grows written vm'.heap ∧ vm'.memory = vm.memory ∧ good a vm'.heap
  | .error _ vm' => vm.heap.Grows written vm'.heap ∧ vm'.memory = vm.memory ∧ bad

section Leaves

variable {α β : Type} {vm vm' : Vm} {good : α → Heap → Prop} {good' : β → Heap → Prop} {bad bad' : Prop}

theorem Leaves.after {r : EStateM.Result Fault Vm α} (leaves : Leaves written vm' good bad r)
    (grows : vm.heap.Grows written vm'.heap) (memory : vm'.memory = vm.memory) : Leaves written vm good bad r := by
  cases r with
  | ok a vm'' => exact ⟨grows.trans leaves.1, leaves.2.1.trans memory, leaves.2.2⟩
  | error f vm'' => exact ⟨grows.trans leaves.1, leaves.2.1.trans memory, leaves.2.2⟩

theorem Leaves.of_newTable (table : Table) {r : EStateM.Result Fault Vm α}
    (leaves : Leaves [vm.heap.tables.size] { vm with heap := (vm.heap.newTable table).2 } good bad r) :
    Leaves [] vm good bad r := by
  cases r with
  | ok a vm'' => exact ⟨leaves.1.of_newTable, leaves.2⟩
  | error f vm'' => exact ⟨leaves.1.of_newTable, leaves.2⟩

theorem Leaves.imp {good' : α → Heap → Prop} {r : EStateM.Result Fault Vm α} (leaves : Leaves written vm good bad r)
    (better : ∀ a h, vm.heap.Grows written h → good a h → good' a h) (worse : bad → bad') :
    Leaves written vm good' bad' r := by
  cases r with
  | ok a vm' => exact ⟨leaves.1, leaves.2.1, better a _ leaves.1 leaves.2.2⟩
  | error f vm' => exact ⟨leaves.1, leaves.2.1, worse leaves.2.2⟩

/-- One operation after the other. -/
theorem Leaves.bind {act : VmM α} {next : α → VmM β} (one : Leaves [] vm good bad (act vm)) (worse : bad → bad')
    (others : ∀ a vm', vm.heap.Grows [] vm'.heap → good a vm'.heap → Leaves written vm' good' bad' (next a vm')) :
    Leaves written vm good' bad' ((act >>= next) vm) := by
  change Leaves written vm good' bad' (EStateM.bind act next vm)
  rw [EStateM.bind]
  cases done : act vm with
  | ok a vm' =>
    rw [done] at one
    obtain ⟨grows, memory, fine⟩ := one
    exact (others a vm' grows fine).after grows.weaken memory
  | error f vm' =>
    rw [done] at one
    exact ⟨one.1.weaken, one.2.1, worse one.2.2⟩

end Leaves

variable {vm : Vm}

/-- Storing in a table whose metatable does not answer for new items. -/
theorem store_eq (silent : vm.heap.metamethod (.table t) "__newindex" = .nil) (k v : Value) : ∃ f, Vm.store (.table t) k v vm =
    match Key.ofValue? k with
    | some key => .ok () { vm with heap := vm.heap.rawSet t key v }
    | none => .error f vm := by
  have raw := Heap.store_eq_raw silent k v
  rw [Vm.store, Vm.getHeap_bind]
  cases known : Key.ofValue? k with
  | some key =>
    rw [raw, Heap.storeRaw_of_key known]
    exact ⟨.outOfMemory, rfl⟩
  | none =>
    obtain ⟨c, fault⟩ := Heap.storeRaw_of_none (t := t) known
    rw [raw, fault]
    exact ⟨_, rfl⟩

theorem isInt64_of_le {m n : Nat} (le : m ≤ n) (fits : isInt64 n = true) : isInt64 m = true := by
  rw [Binary64.isInt64_iff] at *
  omega

/-- What is stored under a key of a table that stands for a container. -/
theorem Stands.rawSet {m : Option Nat} {get get' : Key → Value} {key : Key} {v : Value} (stands : Stands h first t m get)
    (next : ∀ k, get' k = if key = k then v else get k) : Stands (h.rawSet t key v) first t m get' := by
  have here : (h.rawSet t key v).table t = (h.table t).set key v := by
    rw [Heap.rawSet, Heap.table_modifyTable, if_pos ⟨rfl, stands.inside⟩]
  refine ⟨stands.first, ?_, ?_, ?_⟩
  · simpa [Heap.rawSet, Heap.modifyTable] using stands.inside
  · rw [here, Table.metatable_set, stands.metatable]
  · intro k
    rw [here, Table.get_set, next, stands.get]

/-- An item that stands for what a value becomes, if that can be encoded. -/
def Item.Is (h : Heap) (first : Nat) (d : Datum) (it : Item) : Prop :=
  match it.value with
  | .ok v => isEncodable d = true ∧ Encoded h first d v
  | .error _ => isEncodable d = false

theorem Item.is_of_value {d : Datum} {it : Item} {v : Value} (value : it.value = .ok v) (check : isEncodable d = true)
    (becomes : Encoded h first d v) : Item.Is h first d it := by
  rw [Is, value]
  exact ⟨check, becomes⟩

theorem Item.is_of_fault {d : Datum} {it : Item} {f : Fault} (value : it.value = .error f)
    (check : isEncodable d = false) : Item.Is h first d it := by
  rw [Is, value]
  exact check

theorem leaves_scalar {d : Datum} (check : isEncodable d = (scalar d).toBool)
    (becomes : ∀ v, scalar d = .ok v → Encoded vm.heap vm.heap.tables.size d v) :
    Leaves [] vm (fun it h => Item.Is h vm.heap.tables.size d it) (isEncodable d = false) (.ok (Item.scalar d) vm) := by
  refine ⟨.refl _ _, rfl, ?_⟩
  cases entered : scalar d with
  | ok v => exact Item.is_of_value entered (by rw [check, entered, Except.toBool]) (becomes v entered)
  | error f => exact Item.is_of_fault entered (by rw [check, entered, Except.toBool])

/-- A table that was filled as a list or as a mapping stands for it. -/
theorem leaves_container {α : Type} (table : Table) {d : Datum} {act : VmM α} {good : α → Heap → Prop}
    (filled : Leaves [vm.heap.tables.size] { vm with heap := (vm.heap.newTable table).2 } good (isEncodable d = false)
      (act { vm with heap := (vm.heap.newTable table).2 }))
    (becomes : ∀ a h, good a h → isEncodable d = true ∧ Encoded h vm.heap.tables.size d (.table vm.heap.tables.size)) :
    Leaves [] vm (fun it h => Item.Is h vm.heap.tables.size d it) (isEncodable d = false)
      ((act >>= fun _ => pure (Item.made (.table vm.heap.tables.size))) { vm with heap := (vm.heap.newTable table).2 }) := by
  refine Leaves.of_newTable table ?_
  change Leaves _ _ _ _ (EStateM.bind act _ _)
  rw [EStateM.bind]
  cases done : act { vm with heap := (vm.heap.newTable table).2 } with
  | ok a vm' =>
    rw [done] at filled
    exact ⟨filled.1, filled.2.1, becomes a vm'.heap filled.2.2⟩
  | error f vm' =>
    rw [done] at filled
    exact filled

/-- Storing values fills a list from the item behind its last one on. -/
def FillsList (ds : List Datum) : Prop :=
  ∀ (vm : Vm) (t : Nat) (i : Int) (vs : List Value), vm.heap.PlainLists → Fixed.sequence < t →
    Stands vm.heap t t (some Fixed.sequence) (itemAt vs) → isInt64 vs.length = true → i = vs.length + 1 →
    Leaves [t] vm (fun _ h => (areEncodable ds && isInt64 (vs.length + ds.length)) = true ∧
        ∃ new, EncodedAll h (t + 1) ds new ∧ Stands h t t (some Fixed.sequence) (itemAt (vs ++ new)))
      ((areEncodable ds && isInt64 (vs.length + ds.length)) = false) (listItems t i ds vm)

/-- Storing entries fills a mapping. -/
def FillsMapping (es : List (Datum × Datum)) : Prop :=
  ∀ (vm : Vm) (t : Nat) (kvs : List (Key × Value)), vm.heap.PlainLists → Fixed.sequence < t →
    Stands vm.heap t t none (lastAt kvs) →
    Leaves [t] vm (fun _ h => areFields es = true ∧
        ∃ new, EncodedFields h (t + 1) es new ∧ Stands h t t none (lastAt (kvs ++ new)))
      (areFields es = false) (fields t es vm)

theorem stands_newTable (h : Heap) (m : Option Nat) :
    Stands (h.newTable { metatable := m }).2 h.tables.size h.tables.size m fun _ => .nil := by
  have here : (h.newTable { metatable := m }).2.table h.tables.size = { metatable := m } := by
    rw [Heap.table_newTable, if_pos rfl]
  refine ⟨Nat.le_refl _, by simp [Heap.newTable], by rw [here], fun k => ?_⟩
  rw [here]
  simp [Table.get]

theorem plainLists_newTable (plain : h.PlainLists) (table : Table) : (h.newTable table).2.PlainLists :=
  plain.of_grows (Heap.Grows.of_newTable (.refl _ _)) List.not_mem_nil

theorem FillsList.leaves {ds : List Datum} {d : Datum} (fills : FillsList ds) (plain : vm.heap.PlainLists)
    (check : isEncodable d = (areEncodable ds && isInt64 ds.length))
    (becomes : ∀ h t vs, EncodedAll h (t + 1) ds vs → Stands h t t (some Fixed.sequence) (itemAt vs) →
      Encoded h t d (.table t)) :
    Leaves [] vm (fun it h => Item.Is h vm.heap.tables.size d it) (isEncodable d = false)
      ((do let t ← newSequence; listItems t 1 ds; return Item.made (.table t) : VmM Item) vm) := by
  have empty : Stands (vm.heap.newTable { metatable := some Fixed.sequence }).2 vm.heap.tables.size vm.heap.tables.size
      (some Fixed.sequence) (itemAt []) := by
    rw [itemAt_nil]
    exact stands_newTable vm.heap (some Fixed.sequence)
  have filled := fills { vm with heap := (vm.heap.newTable { metatable := some Fixed.sequence }).2 } _ 1 []
    (plainLists_newTable plain _) vm.heap.sequence_lt empty rfl rfl
  have count : (([] : List Value).length : Int) + ds.length = ds.length := by simp
  rw [count, ← check] at filled
  refine leaves_container { metatable := some Fixed.sequence } filled ?_
  rintro _ h ⟨good, new, each, stands⟩
  exact ⟨good, becomes h _ new each stands⟩

theorem FillsMapping.leaves {es : List (Datum × Datum)} (fills : FillsMapping es) (plain : vm.heap.PlainLists) :
    Leaves [] vm (fun it h => Item.Is h vm.heap.tables.size (.mapping es) it) (isEncodable (.mapping es) = false)
      ((do let t ← Vm.make (·.newTable {}); fields t es; return Item.made (.table t) : VmM Item) vm) := by
  have filled := fills { vm with heap := (vm.heap.newTable {}).2 } _ [] (plainLists_newTable plain _)
    vm.heap.sequence_lt (stands_newTable vm.heap none)
  refine leaves_container {} filled ?_
  rintro _ h ⟨good, new, each, stands⟩
  exact ⟨good, _, new, rfl, each, stands⟩

mutual

/-- A value becomes an item that stands for it, if there is one. -/
theorem item_spec : ∀ (d : Datum) (vm : Vm), vm.heap.PlainLists →
    Leaves [] vm (fun it h => Item.Is h vm.heap.tables.size d it) (isEncodable d = false) (item d vm)
  | .null => fun _ _ => leaves_scalar rfl fun _ is => is
  | .bool _ => fun _ _ => leaves_scalar rfl fun _ is => is
  | .int _ => fun _ _ => leaves_scalar rfl fun _ is => is
  | .float _ => fun _ _ => leaves_scalar rfl fun _ is => is
  | .text _ => fun _ _ => leaves_scalar rfl fun _ is => is
  | .bytes _ => fun _ _ => leaves_scalar rfl fun _ is => is
  | .host _ => fun vm _ => ⟨.refl _ vm.heap, rfl, rfl⟩
  | .live _ => fun vm _ => ⟨.refl _ vm.heap, rfl, rfl⟩
  | .list ds => fun _ plain =>
    (listItems_spec ds).leaves plain rfl fun _ t vs each stands => ⟨t, vs, rfl, each, stands⟩
  | .tuple ds => fun _ plain =>
    (listItems_spec ds).leaves plain rfl fun _ t vs each stands => ⟨t, vs, rfl, each, stands⟩
  | .mapping es => fun _ plain => (fields_spec es).leaves plain

theorem listItems_spec : ∀ ds : List Datum, FillsList ds
  | [] => by
    intro vm t i vs plain old stands fits place
    rw [listItems]
    exact ⟨.refl _ _, rfl, by simp [areEncodable, fits], [], rfl, by simpa using stands⟩
  | d :: ds => by
    intro vm t i vs plain old stands fits place
    rw [listItems]
    refine Leaves.bind (item_spec d vm plain) (fun bad => by simp [areEncodable, bad]) ?_
    intro it vm₁ grows is
    cases inside : isInt64 i with
    | false =>
      have none : scalar (.int i) = .error .overflow := by simp [scalar, inside]
      rw [none]
      refine ⟨.refl _ _, rfl, ?_⟩
      cases all : isInt64 (vs.length + (d :: ds).length) with
      | false => simp
      | true =>
        have first : isInt64 ((vs.length + 1 : Nat) : Int) = true :=
          isInt64_of_le (n := vs.length + (d :: ds).length) (by simp) (by simpa using all)
        rw [place] at inside
        exact absurd (inside.symm.trans (by simpa using first)) Bool.false_ne_true
    | true =>
      have position : scalar (.int i) = .ok (.int (Int64.ofInt i)) := by simp [scalar, inside]
      rw [position]
      cases entered : it.value with
      | error f =>
        rw [Item.Is, entered] at is
        exact ⟨.refl _ _, rfl, by simp [areEncodable, is]⟩
      | ok v =>
        rw [Item.Is, entered] at is
        obtain ⟨check, encoded⟩ := is
        have stands₁ := stands.later grows List.not_mem_nil
        have plain₁ := plain.of_grows grows List.not_mem_nil
        have silent : vm₁.heap.metamethod (.table t) "__newindex" = .nil :=
          (Heap.IsList.metamethod_eq stands₁.metatable _).trans plain₁.newItem
        obtain ⟨f, stored⟩ := store_eq silent (.int (Int64.ofInt i)) v
        change Leaves _ _ _ _ (EStateM.bind (Vm.store (.table t) (.int (Int64.ofInt i)) v)
          (fun _ => listItems t (i + 1) ds) vm₁)
        rw [EStateM.bind, stored]
        dsimp only [Key.ofValue?]
        have written := Heap.grows_rawSet vm₁.heap t (.int (Int64.ofInt i)) v
        have plain₂ := plain₁.of_grows written (by simpa using Nat.ne_of_lt old)
        have fits' : isInt64 ((vs ++ [v]).length : Int) = true := by
          rw [place] at inside
          simpa using inside
        have stands₂ : Stands (vm₁.heap.rawSet t (.int (Int64.ofInt i)) v) t t (some Fixed.sequence) (itemAt (vs ++ [v])) := by
          refine stands₁.rawSet fun k => ?_
          rw [place] at inside ⊢
          exact itemAt_concat vs v k inside
        have filled : Leaves [t] vm₁ _ _ _ :=
          (listItems_spec ds { vm₁ with heap := vm₁.heap.rawSet t (.int (Int64.ofInt i)) v } t (i + 1) (vs ++ [v])
            plain₂ old stands₂ fits' (by simp [place])).after written rfl
        have count : ((vs ++ [v]).length : Int) + ds.length = vs.length + (d :: ds).length := by
          simp
          omega
        rw [count] at filled
        refine filled.imp ?_ fun bad => by simpa [areEncodable, check] using bad
        rintro _ h grows' ⟨good, new, each, stands'⟩
        refine ⟨by simpa [areEncodable, check] using good, v :: new, ⟨v, new, rfl, ?_, each⟩, ?_⟩
        · exact (encoded.below stands.inside).later grows' (by simp)
        · rw [List.append_assoc] at stands'
          exact stands'

theorem fields_spec : ∀ es : List (Datum × Datum), FillsMapping es
  | [] => by
    intro vm t kvs plain old stands
    rw [fields]
    exact ⟨.refl _ _, rfl, rfl, [], rfl, by simpa using stands⟩
  | (k, d) :: es => by
    intro vm t kvs plain old stands
    rw [fields]
    refine Leaves.bind (item_spec d vm plain) (fun bad => by simp [areFields, bad]) ?_
    intro it vm₁ grows is
    cases named : keyFault? k with
    | some f => exact ⟨.refl _ _, rfl, by simp [areFields, key?, named]⟩
    | none =>
      cases keyed : scalar k with
      | error f => exact ⟨.refl _ _, rfl, by simp [areFields, key?, keyed]⟩
      | ok kv =>
        cases entered : it.value with
        | error f =>
          rw [Item.Is, entered] at is
          exact ⟨.refl _ _, rfl, by simp [areFields, is]⟩
        | ok v =>
          rw [Item.Is, entered] at is
          obtain ⟨check, encoded⟩ := is
          have stands₁ := stands.later grows List.not_mem_nil
          have plain₁ := plain.of_grows grows List.not_mem_nil
          obtain ⟨f, stored⟩ := store_eq (Heap.metamethod_of_bare stands₁.metatable _) kv v
          change Leaves _ _ _ _ (EStateM.bind (Vm.store (.table t) kv v) (fun _ => fields t es) vm₁)
          rw [EStateM.bind, stored]
          cases known : Key.ofValue? kv with
          | none => exact ⟨.refl _ _, rfl, by simp [areFields, key?, named, keyed, known]⟩
          | some key =>
            have here : key? k = some key := by rw [key?, named, keyed, ← known]
            have written := Heap.grows_rawSet vm₁.heap t key v
            have plain₂ := plain₁.of_grows written (by simpa using Nat.ne_of_lt old)
            have stands₂ : Stands (vm₁.heap.rawSet t key v) t t none (lastAt (kvs ++ [(key, v)])) :=
              stands₁.rawSet fun k => lastAt_concat kvs key v k
            have filled : Leaves [t] vm₁ _ _ _ :=
              (fields_spec es { vm₁ with heap := vm₁.heap.rawSet t key v } t (kvs ++ [(key, v)]) plain₂ old
                stands₂).after written rfl
            refine filled.imp ?_ fun bad => by simpa [areFields, check, here] using bad
            rintro _ h grows' ⟨good, new, each, stands'⟩
            refine ⟨by simpa [areFields, check, here] using good, (key, v) :: new, ⟨key, v, new, rfl, here, ?_, each⟩, ?_⟩
            · exact (encoded.below stands.inside).later grows' (by simp)
            · rw [List.append_assoc] at stands'
              exact stands'

end

/-- What encoding makes of a value, and that it is made of all values that have such a form. -/
theorem encode_spec (plain : vm.heap.PlainLists) (d : Datum) :
    Leaves [] vm (fun v h => isEncodable d = true ∧ Encoded h vm.heap.tables.size d v) (isEncodable d = false)
      (encode d vm) := by
  refine Leaves.bind (item_spec d vm plain) id fun it vm' _ is => ?_
  cases entered : it.value with
  | error f =>
    rw [Item.Is, entered] at is
    exact ⟨.refl _ _, rfl, is⟩
  | ok v =>
    rw [Item.Is, entered] at is
    exact ⟨.refl _ _, rfl, is⟩

/-- The items of a list are what stands under the positions from one on. -/
theorem map_itemAt {vs : List Value} (fits : isInt64 vs.length = true) :
    ((List.range vs.length).map fun j : Nat => itemAt vs (.int (Int64.ofInt (1 + j)))) = vs := by
  refine List.ext_getElem (by simp) fun j bound bound' => ?_
  have inside : isInt64 ((1 + j : Nat) : Int) = true := isInt64_of_le (by omega) fits
  have position : (Int64.ofInt (1 + j)).toInt = 1 + j := Binary64.toInt_ofInt_of_isInt64 (by simpa using inside)
  rw [List.getElem_map, List.getElem_range, itemAt, position, if_pos (by omega),
    show (1 + (j : Int)).toNat - 1 = j from by omega]
  simp [bound']

end Codec

end LuaCapsule
