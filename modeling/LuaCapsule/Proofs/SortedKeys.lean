import LuaCapsule.Proofs.LockStep
import LuaCapsule.Proofs.RawDecoding
import LuaCapsule.Proofs.Sorting
import LuaCapsule.Proofs.UncheckedObjects
import LuaCapsule.Snapshot.SortedKeys

/-! The order in which the keys of a table are listed. The comparison is that of the order of keys, by
which they are grouped by type: numbers and strings are compared as the language compares them, and at most one
key is an object. Putting the keys into a list leaves nothing else in it, so that sorting the list is
sorting by an order that is total on its items, and its result is the one list of these keys in order. -/

namespace LuaCapsule.Snapshot.SortedKeys

open Lua Codec Unchecked

variable {st st' : State} {a b c : Key} {α : Type}

/-! ### Comparison -/

theorem rank_value (k : Key) : rank k.value = k.kind := by
  cases k with
  | ref r => cases r <;> rfl
  | _ => rfl

theorem settle_eq {line : Nat} {op : Heap → Outcome} {v : Value} (is : op st.heap = .value v) :
    Walk.settle line op st = .ok v st := by
  refine atLine_eq ?_
  rw [bind_of_ok (rfl : getHeap _ = .ok st.heap { st with frames := .host line :: st.frames }), is]
  rfl

theorem exists_address (r : Ref) : ∃ p : Bytes, ∀ st : State,
    library 30 (.string .format) "format" [.text "%p", .ref r] st = .ok [.str p] st :=
  ⟨_, fun _ => rfl⟩

/-- Does a key come before another in the order of keys? -/
def precedes (a b : Key) : Bool := a.cmp b == .lt

theorem precedes_of_kind (other : a.kind ≠ b.kind) : precedes a b = decide (a.kind < b.kind) := by
  have by_kind : a.cmp b = compare a.kind b.kind := by
    rw [Key.cmp_eq]
    show (compare a.kind b.kind).then _ = _
    cases kinds : compare a.kind b.kind with
    | eq => exact absurd (Nat.compare_eq_eq.mp kinds) other
    | lt => rfl
    | gt => rfl
  rw [precedes, by_kind, Bool.eq_iff_iff, beq_iff_eq, compare_lt_iff_lt, decide_eq_true_iff]

/-- Numbers and strings are compared as the language compares them. -/
theorem lessThan?_value (same : a.kind = b.kind) (scalar : a.kind = 2 ∨ a.kind = 3) :
    lessThan? a.value b.value = some (precedes a b) := by
  cases a with
  | bool x => simp [Key.kind] at scalar
  | ref r => simp [Key.kind] at scalar
  | int i =>
    cases b with
    | int j =>
      refine congrArg some ?_
      rw [Bool.eq_iff_iff, decide_eq_true_iff, precedes, beq_iff_eq]
      exact compare_lt_iff_lt.symm
    | float y own =>
      refine congrArg some ?_
      rw [Binary64.isNaN_eq_false own, precedes]
      show (!false && y.compareInt i.toInt == .gt) = ((y.compareInt i.toInt).swap == .lt)
      cases y.compareInt i.toInt <;> rfl
    | _ => cases same
  | float x own =>
    cases b with
    | int j =>
      refine congrArg some ?_
      rw [Binary64.isNaN_eq_false own]
      rfl
    | float y own' =>
      refine congrArg some ?_
      rw [Binary64.lt, Binary64.isNaN_eq_false own, Binary64.isNaN_eq_false own', precedes, Bool.eq_iff_iff, beq_iff_eq]
      show decide (x.orderKey < y.orderKey) = true ↔ _
      rw [decide_eq_true_iff]
      exact compare_lt_iff_lt.symm
    | _ => cases same
  | str x =>
    cases b with
    | str y => rfl
    | _ => cases same

/-- An object comes before no object at the same address. -/
theorem keyLess_object (r : Ref) (st : State) : keyLess (.ref r) (.ref r) st = .ok (.bool false) st := by
  obtain ⟨p, address⟩ := exists_address r
  have same : st.heap.ordered true (.str p) (.str p) = .value (.bool false) := by
    have equal : Bytes.cmp p p = .eq := Key.cmp_self (.str p)
    show Outcome.value (.bool (Bytes.cmp p p == .lt)) = _
    rw [equal]
    rfl
  have four : rank (.ref r) = 4 := rank_value (.ref r)
  unfold keyLess
  rw [four, if_neg (by decide), if_neg (by decide), if_pos (by decide), bind_of_ok (address st), bind_of_ok (address st)]
  exact settle_eq same

/-- The comparison has an answer for any two keys that are not different objects. -/
theorem keyLess_eq (single : ∀ r r', a = .ref r → b = .ref r' → r = r') (st : State) :
    keyLess a.value b.value st = .ok (.bool (precedes a b)) st := by
  by_cases kinds : a.kind = b.kind
  · by_cases scalar : a.kind = 2 ∨ a.kind = 3
    · have answer : st.heap.ordered true a.value b.value = .value (.bool (precedes a b)) := by
        rw [Heap.ordered, if_pos rfl, lessThan?_value kinds scalar]
      unfold keyLess
      rw [rank_value, rank_value, ← kinds, if_neg (by simp), if_neg (by simp; omega), if_neg (by simp; omega)]
      exact settle_eq answer
    · cases a with
      | bool x =>
        cases b with
        | bool y => cases x <;> cases y <;> rfl
        | _ => cases kinds
      | ref r =>
        cases b with
        | ref r' =>
          obtain rfl := single r r' rfl rfl
          rw [precedes, Key.cmp_self]
          exact keyLess_object r st
        | _ => cases kinds
      | _ => simp [Key.kind] at scalar
  · unfold keyLess
    rw [rank_value, rank_value, if_pos (by simpa using kinds), precedes_of_kind kinds]
    rfl

/-! ### The order -/

theorem precedes_self (k : Key) : precedes k k = false := by
  rw [precedes, Key.cmp_self]
  rfl

theorem precedes_eq_false : precedes b a = false ↔ (a.cmp b).isLE = true := by
  rw [precedes, Key.cmp_swap b a]
  cases a.cmp b <;> decide

theorem precedes_asymm (less : precedes a b = true) : precedes b a = false := by
  rw [precedes_eq_false, beq_iff_eq.mp less]
  rfl

theorem precedes_trans (first : precedes b a = false) (second : precedes c b = false) : precedes c a = false := by
  rw [precedes_eq_false] at *
  exact Std.TransCmp.isLE_trans first second

theorem precedes_of_precedes (first : precedes a b = true) (second : precedes b c = true) : precedes a c = true := by
  rw [precedes, beq_iff_eq] at *
  exact Std.TransCmp.lt_trans first second

/-- Of two different keys one comes before the other. -/
theorem precedes_eq_not (other : a ≠ b) : precedes a b = !precedes b a := by
  have apart : a.cmp b ≠ .eq := fun same => other (Std.LawfulEqCmp.eq_of_compare same)
  rw [precedes, precedes, Key.cmp_swap b a]
  cases same : a.cmp b with
  | eq => exact absurd same apart
  | lt => rfl
  | gt => rfl

/-- At most one key is an object. -/
def Single (keys : List Key) : Prop := ∀ r r', Key.ref r ∈ keys → Key.ref r' ∈ keys → r = r'

/-- The order of keys as an order of values. -/
def valuePrecedes (v w : Value) : Bool :=
  match Key.ofValue? v, Key.ofValue? w with
  | some a, some b => precedes a b
  | _, _ => false

@[simp] theorem valuePrecedes_value (a b : Key) : valuePrecedes a.value b.value = precedes a b := by
  rw [valuePrecedes, Key.ofValue?_value, Key.ofValue?_value]

theorem value_ne_nil (k : Key) : k.value ≠ .nil := by
  cases k <;> exact nofun

/-- The comparison that sorting is given answers for keys of which at most one is an object. -/
theorem orders_sorting {keys : List Key} (single : Single keys) {order : Value} (function : Heap.isFunction order = true)
    (list : Value) : Tables.Orders (sorting order list) valuePrecedes fun v => ∃ k ∈ keys, v = k.value where
  some := by
    rintro _ ⟨k, _, rfl⟩
    exact value_ne_nil k
  before := by
    rintro _ _ ⟨a, first, rfl⟩ ⟨b, second, rfl⟩ st
    have answer := keyLess_eq (a := a) (b := b) (fun r r' hr hr' => single r r' (hr ▸ first) (hr' ▸ second)) st
    have called : (sorting order list).call1 order [a.value, b.value] st = .ok (.bool (precedes a b)) st := by
      unfold Site.call1
      have results : (sorting order list).call order [a.value, b.value] st = .ok [.bool (precedes a b)] st := bind_of_ok answer
      exact bind_of_ok results
    rw [valuePrecedes_value]
    unfold Tables.before
    cases order with
    | ref r => exact bind_of_ok called
    | _ => cases function
  asymm := by
    rintro _ _ ⟨a, _, rfl⟩ ⟨b, _, rfl⟩ less
    rw [valuePrecedes_value] at *
    exact precedes_asymm less
  trans := by
    rintro _ _ _ ⟨a, _, rfl⟩ ⟨b, _, rfl⟩ ⟨c, _, rfl⟩ first second
    rw [valuePrecedes_value] at *
    exact precedes_trans first second

/-! ### The list of keys -/

theorem atLine_error {act : M α} {line : Nat} {f : Failure}
    (failed : act { st with frames := .host line :: st.frames } = .error f st') : Reporting.atLine line act st = .error f st' := by
  unfold Reporting.atLine
  rw [bind_of_ok (rfl : (modify fun st => { st with frames := .host line :: st.frames } : M Unit) st = .ok ⟨⟩ _)]
  exact bind_of_error failed

section Appending

variable {id : Nat} {t : Table} (inside : id < st.heap.tables.size)

include inside

theorem setEntry_fails {cap : Nat} (limit : st.cap = some cap) (k : Key) (v : Value) (full : cap < (t.set k v).bytes) :
    ∃ st', setEntry id k v (st.withTable id t) = .error .memory st' := by
  have set : modifyHeap (·.rawSet id k v) (st.withTable id t) = .ok ⟨⟩ (st.withTable id (t.set k v)) :=
    congrArg (EStateM.Result.ok PUnit.unit) (st.modifyTable_withTable id t (·.set k v))
  have read : (get : M State) (st.withTable id (t.set k v)) = .ok (st.withTable id (t.set k v)) (st.withTable id (t.set k v)) := rfl
  unfold setEntry checkRoom
  rw [bind_of_ok set, bind_of_ok read, State.table_withTable inside, State.cap_withTable, limit]
  dsimp only
  rw [if_pos full]
  exact ⟨_, rfl⟩

/-- A list that can be appended to and its room. -/
structure Open (st : State) (t : Table) : Prop where
  plain : t.metatable = none
  fits : ∀ cap ∈ st.cap, t.bytes ≤ cap

/-- The key under which an item is put behind the last one. -/
def behind (t : Table) : Key := .int (Int64.ofNat t.length + 1)

/-- A key goes behind the last item, or there is no room for it. -/
theorem append_cons (opened : Open st t) (k : Key) (keys : List Key) :
    (Open st (t.set (behind t) k.value) ∧
      append (.table id) (k :: keys) (st.withTable id t) = append (.table id) keys (st.withTable id (t.set (behind t) k.value))) ∨
    st.cap ≠ none ∧ ∃ st', append (.table id) (k :: keys) (st.withTable id t) = .error .memory st' := by
  have silent := Tables.metamethod_withTable inside opened.plain
  have long : (st.withTable id t).heap.unary .len (.table id) = .value (.ofNat t.length) := by
    rw [Heap.length_eq_raw (silent "__len"), State.table_withTable inside]
  have next : (st.withTable id t).heap.arith .add (.ofNat t.length) (.int 1) = .value (.int (Int64.ofNat t.length + 1)) := rfl
  have stored : (st.withTable id t).heap.store (.table id) (.int (Int64.ofNat t.length + 1)) k.value = .entry id (behind t) := by
    rw [Heap.store_eq_raw (silent "__newindex")]
    rfl
  let called : State := { st with frames := .host 36 :: st.frames }
  have inside' : id < called.heap.tables.size := inside
  have read : getHeap (called.withTable id t) = .ok (st.withTable id t).heap (called.withTable id t) := rfl
  rw [append, bind_of_ok (settle_eq long), bind_of_ok (settle_eq next)]
  by_cases fits : ∀ cap ∈ st.cap, (t.set (behind t) k.value).bytes ≤ cap
  · have put : Walk.store 36 "keys" (.table id) (.int (Int64.ofNat t.length + 1)) k.value (st.withTable id t) =
        .ok ⟨⟩ (st.withTable id (t.set (behind t) k.value)) := by
      refine atLine_eq ?_
      change EStateM.bind _ _ (called.withTable id t) = .ok _ (called.withTable id (t.set (behind t) k.value))
      refine (bind_of_ok read).trans ?_
      rw [stored]
      exact Tables.setEntry_eq inside' _ _ fits
    exact .inl ⟨⟨(Table.metatable_set ..).trans opened.plain, fits⟩, bind_of_ok put⟩
  · obtain ⟨cap, limit, full⟩ : ∃ cap, st.cap = some cap ∧ cap < (t.set (behind t) k.value).bytes := by
      simpa [Option.mem_def] using fits
    obtain ⟨st', fails⟩ := setEntry_fails inside' limit (behind t) k.value full
    have put : Walk.store 36 "keys" (.table id) (.int (Int64.ofNat t.length + 1)) k.value (st.withTable id t) = .error .memory st' := by
      refine atLine_error ?_
      change EStateM.bind _ _ (called.withTable id t) = _
      refine (bind_of_ok read).trans ?_
      rw [stored]
      exact fails
    refine .inr ⟨by rw [limit]; exact nofun, st', ?_⟩
    exact bind_of_error put

/-- What every key keeps that is put behind the others holds in the end, if there is room. -/
theorem append_spec {Good : List Key → Table → Prop} (step : ∀ k keys t, Good (k :: keys) t → Good keys (t.set (behind t) k.value))
    (keys : List Key) (opened : Open st t) (good : Good keys t) :
    (∃ t', append (.table id) keys (st.withTable id t) = .ok ⟨⟩ (st.withTable id t') ∧ Open st t' ∧ Good [] t') ∨
    st.cap ≠ none ∧ ∃ st', append (.table id) keys (st.withTable id t) = .error .memory st' := by
  induction keys generalizing t with
  | nil => exact .inl ⟨t, rfl, opened, good⟩
  | cons k keys ih =>
    rcases append_cons inside opened k keys with ⟨opened', is⟩ | failed
    · rw [is]
      exact ih opened' (step k keys t good)
    · exact .inr failed

end Appending

/-- A list of keys, as far as they were put into it. -/
structure Filled (all : List Key) (rest : List Key) (t : Table) : Prop where
  laid : t.LaidOut
  items : ∃ done, all = done ++ rest ∧ ∀ k, t.get k = itemAt (done.map Key.value) k

theorem length_of_items {done : List Key} {t : Table} (laid : t.LaidOut) (items : ∀ k, t.get k = itemAt (done.map Key.value) k)
    (small : done.length < 2 ^ 62) : t.length = done.length := by
  refine Table.length_eq (fun i bound => ?_) laid small
  rw [Table.getInt, items]
  cases i with
  | zero => simp [itemAt]
  | succ i =>
    rw [itemAt_ofNat _ (by omega), List.getD_eq_getElem?_getD, List.getElem?_map]
    cases found : done[i]? with
    | none =>
      have := List.getElem?_eq_none_iff.mp found
      simp
      omega
    | some k =>
      have := (List.getElem?_eq_some_iff.mp found).1
      simp [value_ne_nil]
      omega

theorem filled_step {all : List Key} (small : all.length < 2 ^ 62) (k : Key) (keys : List Key) (t : Table)
    (filled : Filled all (k :: keys) t) : Filled all keys (t.set (behind t) k.value) := by
  obtain ⟨done, is, items⟩ := filled.items
  have bound : done.length < 2 ^ 62 := by
    rw [is, List.length_append] at small
    omega
  refine ⟨filled.laid.set _ (value_ne_nil k), done ++ [k], by rw [is, List.append_assoc, List.singleton_append], fun k' => ?_⟩
  have place : behind t = .int (Int64.ofInt ((done.map Key.value).length + 1)) := by
    rw [behind, length_of_items filled.laid items bound, List.length_map, ← ofNat_succ, Int64.ofNat_add]
    rfl
  have fits : isInt64 ((done.map Key.value).length + 1) = true := by
    rw [List.length_map]
    exact Binary64.isInt64_iff.mpr (by omega)
  rw [Table.get_set, List.map_append, List.map_singleton, itemAt_concat _ _ _ fits, place, items]

/-- A list of keys that is longer than any that is sorted, whatever else is put into it. -/
structure Crowded (all : List Key) (rest : List Key) (t : Table) : Prop where
  others : ∀ key ∈ rest, key ∈ all
  keys : ∀ k, t.get k = .nil ∨ ∃ key ∈ all, t.get k = key.value
  present : ∀ i : Int, 1 ≤ i → i ≤ 2147483647 → t.item i ≠ .nil

theorem crowded_step {all : List Key} (k : Key) (keys : List Key) (t : Table) (crowded : Crowded all (k :: keys) t) :
    Crowded all keys (t.set (behind t) k.value) := by
  obtain ⟨first, others⟩ := List.forall_mem_cons.mp crowded.others
  refine ⟨others, fun k' => ?_, fun i low high => ?_⟩
  · rw [Table.get_set]
    split
    · exact .inr ⟨k, first, rfl⟩
    · exact crowded.keys k'
  · rw [Table.item, Table.get_set]
    split
    · exact value_ne_nil k
    · exact crowded.present i low high

theorem append_append (list : Value) (keys keys' : List Key) :
    append list (keys ++ keys') = (do append list keys; append list keys') := by
  induction keys with
  | nil => rfl
  | cons k keys ih => simp only [List.cons_append, append, ih, bind_assoc]

/-- The failure of sorting a list that is too long. -/
def tooBig : Failure :=
  .raised (.str (Bytes.ofString "[string \"<python>\"]:37: bad argument #1 to 'sort' (array too big)")) false

section Sorting

variable {keys : List Key} (single : Single keys) {order : Value} (function : Heap.isFunction order = true) {id : Nat} {t : Table}
  (inside : id < st.heap.tables.size) (opened : Open st t)

theorem argumentFault_eq (list : Value) (st : State) :
    ((sorting order list).argumentFault 1 "array too big" : M α) { st with frames := .host 37 :: st.frames } =
      .error tooBig { st with frames := .host 37 :: st.frames } := by
  rfl

include single function inside opened

/-- Sorting puts a list of keys in order, unless the list is too long. -/
theorem sort_keys (items : ∀ i, 1 ≤ i → i ≤ (Int64.ofNat t.length).toInt → i ≤ 2147483647 → ∃ k ∈ keys, t.item i = k.value) :
    (∃ t', Reporting.atLine 37 (Tables.sort (sorting order (.table id))) (st.withTable id t) = .ok [] (st.withTable id t') ∧
      Rearranged 1 (Int64.ofNat t.length).toInt t t' ∧ Tables.Ordered valuePrecedes 1 (Int64.ofNat t.length).toInt t') ∨
    2147483647 ≤ (Int64.ofNat t.length).toInt ∧
      ∃ st', Reporting.atLine 37 (Tables.sort (sorting order (.table id))) (st.withTable id t) = .error tooBig st' := by
  let called : State := { st with frames := .host 37 :: st.frames }
  have inside' : id < called.heap.tables.size := inside
  have orders := orders_sorting single function (.table id)
  by_cases many : 2147483647 ≤ (Int64.ofNat t.length).toInt
  · have failed := Tables.sort_of_many inside' opened.plain (s := sorting order (.table id)) rfl many
      (argumentFault_eq (.table id) (st.withTable id t))
    exact .inr ⟨many, _, atLine_error failed⟩
  have held : Tables.Held called id (fun v => ∃ k ∈ keys, v = k.value) 1 (Int64.ofNat t.length).toInt t :=
    ⟨inside, opened.plain, opened.fits, fun i low high => items i low high (by omega)⟩
  by_cases some : 1 < (Int64.ofNat t.length).toInt
  · obtain ⟨t', done, moved, ordered⟩ := Tables.sort_spec inside' opened.plain rfl orders function some (by omega) held
    exact .inl ⟨t', atLine_eq done, moved, ordered⟩
  · have done := Tables.sort_of_few inside' opened.plain (s := sorting order (.table id)) rfl (by omega)
    exact .inl ⟨t, atLine_eq done, .refl .., Tables.ordered_of_le orders held (by omega)⟩

end Sorting

/-! ### Lists of keys in order -/

theorem itemAt_of_outside {vs : List Value} {k : Key} (outside : ¬Between 1 vs.length k) : itemAt vs k = .nil := by
  cases k with
  | int i =>
    rw [itemAt]
    split
    next positive =>
      rw [List.getD_eq_getElem?_getD, List.getElem?_eq_none, Option.getD_none]
      by_contra bound
      refine outside ⟨i.toInt, positive, by omega, ?_⟩
      rw [itemKey, Int64.ofInt_toInt]
    next => rfl
  | _ => rfl

theorem itemAt_itemKey {vs : List Value} (i : Nat) (small : i < 2 ^ 63 - 1) : itemAt vs (itemKey (i + 1)) = vs.getD i .nil := by
  rw [← itemAt_ofNat vs small, ofNat_succ]
  rfl

/-- Lists that are in order and have the same keys are the same. -/
theorem eq_of_ordered {ks : List Key} {vs : List Value} (perm : vs.Perm (ks.map Key.value))
    (sorted : ks.Pairwise fun a b => precedes b a = false) (ordered : vs.Pairwise fun v w => valuePrecedes w v = false) :
    vs = ks.map Key.value := by
  refine perm.eq_of_pairwise ?_ ordered (List.pairwise_map.mpr ?_)
  · intro v w first second less more
    obtain ⟨a, _, rfl⟩ := List.mem_map.mp (perm.mem_iff.mp first)
    obtain ⟨b, _, rfl⟩ := List.mem_map.mp second
    rw [valuePrecedes_value] at *
    by_contra other
    have := precedes_eq_not fun same => other (congrArg Key.value same)
    rw [less, more] at this
    cases this
  · simpa only [valuePrecedes_value] using sorted

/-- What is left of sorting a list of keys is the list of them in order. -/
theorem items_of_sorted {ks keys : List Key} {t t' : Table} (perm : ks.Perm keys)
    (sorted : ks.Pairwise fun a b => precedes b a = false) (small : keys.length < 2147483647)
    (items : ∀ k, t.get k = itemAt (keys.map Key.value) k) (moved : Rearranged 1 keys.length t t')
    (ordered : Tables.Ordered valuePrecedes 1 keys.length t') (k : Key) : t'.get k = itemAt (ks.map Key.value) k := by
  let vs := (List.range keys.length).map fun i : Nat => t'.item (i + 1)
  have before : ((List.range keys.length).map fun i : Nat => t.item (i + 1)) = keys.map Key.value := by
    refine List.ext_getElem (by simp) fun i bound bound' => ?_
    rw [List.length_map, List.length_range] at bound
    rw [List.getElem_map, List.getElem_range, Table.item, items, itemAt_itemKey i (by omega), List.getD_eq_getElem?_getD,
      List.getElem?_eq_getElem bound', Option.getD_some]
  have listed : vs = ks.map Key.value := by
    refine eq_of_ordered ?_ sorted (List.pairwise_map.mpr ?_)
    · have same := moved.items_perm small
      rw [before] at same
      exact same.trans (perm.map Key.value).symm
    · refine List.pairwise_lt_range.imp_of_mem fun {i j} first second less => ?_
      have := List.mem_range.mp second
      exact ordered _ _ (by omega) (by omega) (by omega)
  have length : (ks.map Key.value).length = keys.length := by rw [List.length_map, perm.length_eq]
  by_cases inside : Between 1 keys.length k
  · obtain ⟨i, low, high, rfl⟩ := inside
    obtain ⟨n, rfl⟩ : ∃ n : Nat, i = n + 1 := ⟨(i - 1).toNat, by omega⟩
    have bound : n < vs.length := by
      simp only [vs, List.length_map, List.length_range]
      omega
    rw [itemAt_itemKey n (by omega), ← listed, List.getD_eq_getElem?_getD, List.getElem?_eq_getElem bound, Option.getD_some]
    simp only [vs, List.getElem_map, List.getElem_range]
    rfl
  · rw [moved.get_of_outside inside, items, itemAt_of_outside (by rwa [List.length_map]), itemAt_of_outside (by rwa [length])]

/-! ### The keys of a table -/

/-- The state with a new table. -/
def withNew (st : State) : State := { st with heap := (st.heap.newTable {}).2 }

theorem inside_withNew (st : State) : st.heap.tables.size < (withNew st).heap.tables.size := by
  simp [withNew, Heap.newTable]

theorem withTable_withNew (st : State) : (withNew st).withTable st.heap.tables.size {} = withNew st := by
  have new : (withNew st).heap.table st.heap.tables.size = {} := by rw [withNew, Heap.table_newTable, if_pos rfl]
  have same := (withNew st).withTable_self st.heap.tables.size
  rwa [new] at same

theorem newTable_spec (st : State) : newTable {} st = .ok st.heap.tables.size (withNew st) ∨
    st.cap ≠ none ∧ ∃ st', newTable {} st = .error .memory st' := by
  have read : (get : M State) st = .ok st st := rfl
  have checked : checkSize (st.heap.tables.size * 14) st = .ok ⟨⟩ st ∨
      st.cap ≠ none ∧ ∃ st', checkSize (st.heap.tables.size * 14) st = .error .memory st' := by
    unfold checkSize
    rw [bind_of_ok read]
    cases st.cap with
    | none => exact .inl rfl
    | some cap =>
      dsimp only
      split
      · exact .inr ⟨nofun, _, rfl⟩
      · exact .inl rfl
  unfold newTable
  rw [bind_of_ok read]
  rcases checked with fine | ⟨capped, st', fails⟩
  · rw [bind_of_ok fine]
    exact .inl rfl
  · exact .inr ⟨capped, st', bind_of_error fails⟩

theorem filled_start (keys : List Key) : Filled keys keys {} :=
  ⟨Table.laidOut_empty, [], rfl, fun k => by rw [List.map_nil, itemAt_nil]; exact Table.get_empty 0 0 k⟩

theorem crowded_of_filled {first rest : List Key} {t : Table} (filled : Filled first [] t) (long : first.length = 2147483647) :
    Crowded (first ++ rest) rest t := by
  obtain ⟨done, is, items⟩ := filled.items
  rw [List.append_nil] at is
  subst is
  refine ⟨fun key mem => List.mem_append_right _ mem, fun k => ?_, fun i low high => ?_⟩
  · by_cases none : itemAt (first.map Key.value) k = .nil
    · exact .inl ((items k).trans none)
    · obtain ⟨key, mem, is⟩ := List.mem_map.mp (mem_of_itemAt none)
      exact .inr ⟨key, List.mem_append_left _ mem, (items k).trans is.symm⟩
  · obtain ⟨n, rfl⟩ : ∃ n : Nat, i = n + 1 := ⟨(i - 1).toNat, by omega⟩
    have bound : n < first.length := by omega
    rw [Table.item, items, itemAt_itemKey n (by omega), List.getD_eq_getElem?_getD, List.getElem?_map,
      List.getElem?_eq_getElem bound]
    exact value_ne_nil _

theorem Filled.eq {keys : List Key} {t : Table} (filled : Filled keys [] t) (k : Key) : t.get k = itemAt (keys.map Key.value) k := by
  obtain ⟨done, is, items⟩ := filled.items
  rw [List.append_nil] at is
  exact is ▸ items k

theorem Filled.length {keys : List Key} {t : Table} (filled : Filled keys [] t) (small : keys.length < 2147483647) :
    (Int64.ofNat t.length).toInt = keys.length := by
  rw [length_of_items filled.laid filled.eq (by omega)]
  exact Int64.toInt_ofNat_of_lt (by omega)

/-- Putting keys into a new list leaves nothing but keys there, and no other ones if they can be sorted at all. -/
theorem append_keys (st : State) (keys : List Key) :
    (∃ t, append (.table st.heap.tables.size) keys (withNew st) = .ok ⟨⟩ ((withNew st).withTable st.heap.tables.size t) ∧
      Open (withNew st) t ∧ (keys.length < 2147483647 → Filled keys [] t) ∧
      ∀ i, 1 ≤ i → i ≤ (Int64.ofNat t.length).toInt → i ≤ 2147483647 → ∃ k ∈ keys, t.item i = k.value) ∨
    st.cap ≠ none ∧ ∃ st', append (.table st.heap.tables.size) keys (withNew st) = .error .memory st' := by
  have inside := inside_withNew st
  have empty : Open (withNew st) {} := ⟨rfl, fun cap _ => Nat.zero_le cap⟩
  have start := withTable_withNew st
  by_cases small : keys.length < 2147483647
  · rcases append_spec inside (filled_step (by omega)) keys empty (filled_start keys) with ⟨t, done, opened, filled⟩ | failed
    · rw [start] at done
      refine .inl ⟨t, done, opened, fun _ => filled, fun i low high _ => ?_⟩
      rw [filled.length small] at high
      obtain ⟨n, rfl⟩ : ∃ n : Nat, i = n + 1 := ⟨(i - 1).toNat, by omega⟩
      have bound : n < keys.length := by omega
      refine ⟨keys[n], List.getElem_mem bound, ?_⟩
      rw [Table.item, filled.eq, itemAt_itemKey n (by omega), List.getD_eq_getElem?_getD, List.getElem?_map,
        List.getElem?_eq_getElem bound]
      rfl
    · rw [start] at failed
      exact .inr failed
  · -- The first keys fill all places that could be sorted; whatever the others do, keys stay there.
    obtain ⟨first, rest, rfl, long⟩ : ∃ first rest, keys = first ++ rest ∧ first.length = 2147483647 :=
      ⟨keys.take 2147483647, keys.drop 2147483647, (List.take_append_drop ..).symm, List.length_take_of_le (by omega)⟩
    rw [append_append]
    rcases append_spec inside (filled_step (by omega)) first empty (filled_start first) with ⟨t, done, opened, filled⟩ | ⟨capped, st', fails⟩
    · rw [start] at done
      rw [bind_of_ok done]
      have crowded : Crowded (first ++ rest) rest t := crowded_of_filled filled long
      rcases append_spec inside crowded_step rest opened crowded with ⟨t', done', opened', crowded'⟩ | failed
      · refine .inl ⟨t', done', opened', fun few => absurd few small, fun i low _ few => ?_⟩
        exact (crowded'.keys _).resolve_left (crowded'.present i low few)
      · exact .inr failed
    · rw [start] at fails
      exact .inr ⟨capped, st', bind_of_error fails⟩

section Sorted

variable {keys : List Key} (single : Single keys) {order : Value} (function : Heap.isFunction order = true)

include single function

/-- A list of keys is sorted, unless it is too long or there is no room for it. -/
theorem sortedList_spec (st : State) :
    (∃ t', sortedList order keys st = .ok (.table st.heap.tables.size) ((withNew st).withTable st.heap.tables.size t') ∧
      (keys.length < 2147483647 → ∀ ks : List Key, ks.Perm keys → ks.Pairwise (fun a b => precedes b a = false) →
        ∀ k, t'.get k = itemAt (ks.map Key.value) k)) ∨
    st.cap ≠ none ∧ (∃ st', sortedList order keys st = .error .memory st') ∨
    2147483647 ≤ keys.length ∧ ∃ st', sortedList order keys st = .error tooBig st' := by
  unfold sortedList
  rcases newTable_spec st with made | ⟨capped, st', fails⟩
  · rw [bind_of_ok made]
    rcases append_keys st keys with ⟨t, done, opened, filled, items⟩ | ⟨capped, st', fails⟩
    · rw [bind_of_ok done]
      rcases sort_keys single function (inside_withNew st) opened items with ⟨t', sorts, moved, ordered⟩ | ⟨many, st', fails⟩
      · rw [bind_of_ok sorts]
        refine .inl ⟨t', rfl, fun small ks perm sorted => ?_⟩
        rw [(filled small).length small] at moved ordered
        exact items_of_sorted perm sorted small (filled small).eq moved ordered
      · refine .inr (.inr ⟨?_, st', bind_of_error fails⟩)
        by_contra few
        rw [(filled (by omega)).length (by omega)] at many
        omega
    · exact .inr (.inl ⟨capped, st', bind_of_error fails⟩)
  · exact .inr (.inl ⟨capped, st', bind_of_error fails⟩)

end Sorted

/-- The comparison of the keys of a table is a strict total order. -/
structure Compares (t : Table) (less : Key → Key → Bool) : Prop where
  answers : ∀ a b, t.get a ≠ .nil → t.get b ≠ .nil → ∀ st, keyLess a.value b.value st = .ok (.bool (less a b)) st
  irrefl : ∀ a, less a a = false
  trans : ∀ a b c, less a b = true → less b c = true → less a c = true
  total : ∀ a b, a ≠ b → less a b = !less b a

/-- How listing keys in an order comes out: in a new table with the keys in this order, while nothing else
is different; or there is no room for that table; or it is too long to be sorted. -/
inductive Lists (sorted : List Key) (st : State) : EStateM.Result Failure State Value → Prop
  | listed (t : Table) (items : sorted.length < 2147483647 → ∀ k, t.get k = itemAt (sorted.map Key.value) k) :
      Lists sorted st (.ok (.table st.heap.tables.size) { st with heap := (st.heap.newTable t).2 })
  | memory (limited : st.cap ≠ none) (st' : State) : Lists sorted st (.error .memory st')
  | tooBig (many : 2147483647 ≤ sorted.length) (st' : State) : Lists sorted st (.error tooBig st')

theorem single_keys {t : Table} (single : ∀ r r', t.get (.ref r) ≠ .nil → t.get (.ref r') ≠ .nil → r = r') {keys : List Key}
    (perm : keys.Perm (t.toList.map Prod.fst)) : Single keys :=
  fun r r' first second => single r r' (Table.mem_keys.mp (perm.mem_iff.mp first)) (Table.mem_keys.mp (perm.mem_iff.mp second))

theorem compares {t : Table} (single : ∀ r r', t.get (.ref r) ≠ .nil → t.get (.ref r') ≠ .nil → r = r') :
    Compares t precedes where
  answers := by
    rintro a b first second st
    refine keyLess_eq ?_ st
    rintro r r' rfl rfl
    exact single r r' first second
  irrefl := precedes_self
  trans _ _ _ := precedes_of_precedes
  total _ _ := precedes_eq_not

theorem sorted_keys (t : Table) : (t.toList.map Prod.fst).Pairwise fun a b => precedes a b = true :=
  t.keys_sorted.imp fun less => beq_iff_eq.mpr less

theorem withTable_withNew_eq (st : State) (t : Table) :
    (withNew st).withTable st.heap.tables.size t = { st with heap := (st.heap.newTable t).2 } := by
  have same : ((st.heap.tables.push {}).modify st.heap.tables.size fun _ => t) = st.heap.tables.push t := by
    refine Array.ext_getElem? fun i => ?_
    rw [Array.getElem?_modify, Array.getElem?_push, Array.getElem?_push]
    by_cases here : st.heap.tables.size = i
    · simp [here]
    · simp [here, Ne.symm here]
  simp only [withNew, State.withTable, Heap.modifyTable, Heap.newTable, same]

theorem lists_sorted {t : Table} (single : ∀ r r', t.get (.ref r) ≠ .nil → t.get (.ref r') ≠ .nil → r = r') {order : Value}
    (function : Heap.isFunction order = true) {keys : List Key} (perm : keys.Perm (t.toList.map Prod.fst)) (st : State) :
    Lists (t.toList.map Prod.fst) st (sortedList order keys st) := by
  have ordered : (t.toList.map Prod.fst).Pairwise fun a b => precedes b a = false := (sorted_keys t).imp precedes_asymm
  rcases sortedList_spec (single_keys single perm) function st with ⟨t', is, items⟩ | ⟨limited, st', is⟩ | ⟨many, st', is⟩
  · rw [is, withTable_withNew_eq]
    exact .listed t' fun few => items (perm.length_eq ▸ few) _ perm.symm ordered
  · rw [is]
    exact .memory limited st'
  · rw [is]
    exact .tooBig (perm.length_eq ▸ many) st'

/-- If at most one key of a table is an object, the comparison of its keys is a strict total order, and the
list of its keys is each of them once, in this order: in whatever order the keys are met, sorting them
gives this list, and never fails for an order that is invalid. -/
theorem keys_in_order (t : Table) (single : ∀ r r', t.get (.ref r) ≠ .nil → t.get (.ref r') ≠ .nil → r = r') :
    ∃ less, Compares t less ∧ ∃ sorted : List Key, sorted.Nodup ∧ (∀ k, k ∈ sorted ↔ t.get k ≠ .nil) ∧
      sorted.Pairwise (fun a b => less a b = true) ∧ ∀ order, Heap.isFunction order = true → ∀ st,
        (∀ keys : List Key, keys.Perm sorted → Lists sorted st (sortedList order keys st)) ∧
        ∀ id, st.heap.table id = t → Lists sorted st (sortedKeys order id st) := by
  refine ⟨precedes, compares single, t.toList.map Prod.fst, t.nodup_keys, fun _ => Table.mem_keys, sorted_keys t,
    fun order function st => ⟨fun keys perm => lists_sorted single function perm st, ?_⟩⟩
  rintro id rfl
  have read : tableOf id st = .ok (st.heap.table id) st := rfl
  unfold sortedKeys
  rw [bind_of_ok read]
  exact lists_sorted single function ((st.heap.table id).enumerate_perm.map Prod.fst) st

/-- Keys of all kinds, in their order. -/
def mixedKeys : List Key :=
  [.bool false, .bool true, .int 2, .float ⟨0x4004000000000000⟩ (by decide), .int 3, .str (Bytes.ofString "b"), .ref (.table 0)]

/-- A table with these keys, the last one first, which holds itself under itself. -/
def mixedTable : Table := mixedKeys.foldr (fun k t => t.set k (.table 0)) {}

theorem get_mixedTable (k : Key) : mixedTable.get k ≠ .nil ↔ k ∈ mixedKeys := by
  have get (keys : List Key) : (keys.foldr (fun k t => t.set k (.table 0)) ({} : Table)).get k ≠ .nil ↔ k ∈ keys := by
    induction keys with
    | nil => simp [Table.get]
    | cons first keys ih =>
      rw [List.foldr_cons, Table.get_set, List.mem_cons]
      split
      next same => simp [same.symm]
      next other => rw [ih, or_iff_right (Ne.symm other)]
  exact get mixedKeys

/-- An interpreter with this table. -/
def mixedState : State := { heap := (Fixed.heap.newTable mixedTable).2 }

theorem keys_in_order_mixed :
    ∃ t : Table, sortedKeys (.ref (.native (.base .rawequal))) Fixed.heap.tables.size mixedState =
        .ok (.table mixedState.heap.tables.size) { mixedState with heap := (mixedState.heap.newTable t).2 } ∧
      ∀ k, t.get k = itemAt (mixedKeys.map Key.value) k := by
  have single : ∀ r r', mixedTable.get (.ref r) ≠ .nil → mixedTable.get (.ref r') ≠ .nil → r = r' := by
    intro r r' first second
    rw [get_mixedTable] at first second
    simp only [mixedKeys, List.mem_cons, reduceCtorEq, Key.ref.injEq, List.not_mem_nil, or_false, false_or] at first second
    rw [first, second]
  obtain ⟨less, compares, sorted, nodup, mem, ordered, lists⟩ := keys_in_order mixedTable single
  have goes (a b : Key) (first : a ∈ mixedKeys) (second : b ∈ mixedKeys)
      (is : keyLess a.value b.value mixedState = .ok (.bool true) mixedState) : less a b = true := by
    have answer := compares.answers a b ((get_mixedTable a).mpr first) ((get_mixedTable b).mpr second) mixedState
    rw [is] at answer
    injection answer with answer
    injection answer with answer
    exact answer.symm
  have chain : mixedKeys.Pairwise fun a b => less a b = true := by
    have : Trans (less · · = true) (less · · = true) (less · · = true) := ⟨compares.trans _ _ _⟩
    rw [← List.isChain_iff_pairwise]
    repeat' constructor
    all_goals exact goes _ _ (by decide) (by decide) rfl
  have is : sorted = mixedKeys := by
    have perm : sorted.Perm mixedKeys :=
      (List.perm_ext_iff_of_nodup nodup (by decide)).mpr fun k => (mem k).trans (get_mixedTable k)
    refine perm.eq_of_pairwise (fun a b _ _ first second => ?_) ordered chain
    by_contra other
    have := compares.total a b other
    rw [first, second] at this
    cases this
  subst is
  have listed := (lists (.ref (.native (.base .rawequal))) rfl mixedState).2 Fixed.heap.tables.size (by
    rw [mixedState, Heap.table_newTable, if_pos rfl])
  generalize found : sortedKeys _ _ mixedState = result at listed
  cases listed with
  | listed t items => exact ⟨t, rfl, items (by decide)⟩
  | memory limited => exact absurd rfl limited
  | tooBig many => exact absurd many (by decide)

end LuaCapsule.Snapshot.SortedKeys
