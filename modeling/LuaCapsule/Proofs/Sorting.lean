import LuaCapsule.Lua.Library.Tables
import LuaCapsule.Proofs.PlainLists
import LuaCapsule.Proofs.TableLength
import LuaCapsule.Vm.Basic
import Mathlib.Data.List.Nodup
import Mathlib.Logic.Equiv.Basic

/-! Sorting a list in place. As long as the comparison has an answer for any two items, and its answers
are those of an order in which all items can be compared, sorting rearranges the items so that none
stands behind one that comes after it, and never takes the order for an invalid one. Each exchange of
two items is a rearrangement of the places that are being sorted; what the scans of a partition have
passed is on the right side of the pivot. -/

namespace LuaCapsule.Lua

variable {st : State} {id : Nat} {t t' t'' : Table}

/-! ### A table that is worked on -/

/-- A state in which a table is another one. -/
def State.withTable (st : State) (id : Nat) (t : Table) : State :=
  { st with heap := st.heap.modifyTable id fun _ => t }

namespace State

theorem table_withTable (inside : id < st.heap.tables.size) : (st.withTable id t).heap.table id = t := by
  rw [withTable, Heap.table_modifyTable, if_pos ⟨rfl, inside⟩]

theorem cap_withTable : (st.withTable id t).cap = st.cap := rfl

theorem modifyTable_withTable (st : State) (id : Nat) (t : Table) (f : Table → Table) :
    { st.withTable id t with heap := (st.withTable id t).heap.modifyTable id f } = st.withTable id (f t) := by
  have same : (st.heap.tables.modify id fun _ => t).modify id f = st.heap.tables.modify id fun _ => f t := by
    refine Array.ext_getElem? fun i => ?_
    rw [Array.getElem?_modify, Array.getElem?_modify, Array.getElem?_modify]
    split
    · rw [Option.map_map]
      rfl
    · rfl
  simp only [withTable, Heap.modifyTable, same]

theorem withTable_self (st : State) (id : Nat) : st.withTable id (st.heap.table id) = st := by
  have same : (st.heap.tables.modify id fun _ => st.heap.table id) = st.heap.tables := by
    refine Array.ext_getElem? fun i => ?_
    rw [Array.getElem?_modify]
    split
    next here =>
      subst here
      rw [Heap.table, Array.getD_eq_getD_getElem?]
      cases st.heap.tables[id]? <;> rfl
    next => rfl
  simp only [withTable, Heap.modifyTable, same]

end State

/-- The place of a list item. -/
def itemKey (i : Int) : Key := .int (Int64.ofInt i)

theorem itemKey_inj {i j : Int} (hi : isInt64 i = true) (hj : isInt64 j = true) (same : itemKey i = itemKey j) : i = j := by
  have ints := congrArg Int64.toInt (Key.int.inj same)
  rwa [Binary64.toInt_ofInt_of_isInt64 hi, Binary64.toInt_ofInt_of_isInt64 hj] at ints

/-- The item at a place. -/
def Table.item (t : Table) (i : Int) : Value := t.get (itemKey i)

/-! ### Rearrangements -/

/-- A key that is the place of an item between two others. -/
def Between (lo up : Int) (k : Key) : Prop := ∃ i, lo ≤ i ∧ i ≤ up ∧ k = itemKey i

/-- A table in which the items between two places have changed places, while nothing else is different. -/
structure Rearranged (lo up : Int) (t t' : Table) : Prop where
  metatable : t'.metatable = t.metatable
  bytes : t'.bytes = t.bytes
  moves : ∃ σ : Equiv.Perm Key, (∀ k, ¬Between lo up k → σ k = k) ∧ ∀ k, t'.get k = t.get (σ k)

namespace Rearranged

variable {lo up lo' up' i j : Int}

theorem refl (lo up : Int) (t : Table) : Rearranged lo up t t := ⟨rfl, rfl, Equiv.refl Key, fun _ _ => rfl, fun _ => rfl⟩

theorem trans (one : Rearranged lo up t t') (other : Rearranged lo up t' t'') : Rearranged lo up t t'' := by
  obtain ⟨σ, fixed, moved⟩ := one.moves
  obtain ⟨τ, fixed', moved'⟩ := other.moves
  refine ⟨other.metatable.trans one.metatable, other.bytes.trans one.bytes, τ.trans σ, fun k outside => ?_, fun k => ?_⟩
  · rw [Equiv.trans_apply, fixed' k outside, fixed k outside]
  · rw [moved', moved, Equiv.trans_apply]

theorem widen (moved : Rearranged lo up t t') (low : lo' ≤ lo) (high : up ≤ up') : Rearranged lo' up' t t' := by
  obtain ⟨σ, fixed, moved'⟩ := moved.moves
  refine ⟨moved.metatable, moved.bytes, σ, fun k outside => fixed k ?_, moved'⟩
  rintro ⟨i, above, below, rfl⟩
  exact outside ⟨i, Int.le_trans low above, Int.le_trans below high, rfl⟩

/-- What leaves all other places as they are moves the places among themselves. -/
theorem between_iff {σ : Equiv.Perm Key} (fixed : ∀ k, ¬Between lo up k → σ k = k) (k : Key) :
    Between lo up (σ k) ↔ Between lo up k := by
  constructor
  · intro inside
    by_contra outside
    exact outside (fixed k outside ▸ inside)
  · intro inside
    by_contra outside
    have same : σ k = k := σ.injective (fixed _ outside)
    exact outside (same.symm ▸ inside)

/-- What holds of all items holds of them when they are rearranged. -/
theorem forall_item (moved : Rearranged lo up t t') {Q : Value → Prop} (all : ∀ i, lo ≤ i → i ≤ up → Q (t.item i)) :
    ∀ i, lo ≤ i → i ≤ up → Q (t'.item i) := by
  obtain ⟨σ, fixed, moved⟩ := moved.moves
  intro i low high
  obtain ⟨j, low', high', is⟩ := (between_iff fixed (itemKey i)).mpr ⟨i, low, high, rfl⟩
  rw [Table.item, moved, is]
  exact all j low' high'

theorem get_of_outside (moved : Rearranged lo up t t') {k : Key} (outside : ¬Between lo up k) : t'.get k = t.get k := by
  obtain ⟨σ, fixed, moved⟩ := moved.moves
  rw [moved, fixed k outside]

end Rearranged

/-- Places that can be told apart. -/
structure InRange (lo up : Int) : Prop where
  positive : 0 < lo
  small : up < 2147483647

namespace InRange

variable {lo up : Int} (range : InRange lo up)

include range

theorem itemKey_eq_iff {i j : Int} (hi : lo ≤ i ∧ i ≤ up) (hj : lo ≤ j ∧ j ≤ up) : itemKey i = itemKey j ↔ i = j := by
  have := range.positive
  have := range.small
  refine ⟨itemKey_inj ?_ ?_, congrArg itemKey⟩
  · exact Binary64.isInt64_iff.mpr (by omega)
  · exact Binary64.isInt64_iff.mpr (by omega)

theorem narrow {lo' up' : Int} (low : lo ≤ lo') (high : up' ≤ up) : InRange lo' up' :=
  ⟨Int.lt_of_lt_of_le range.positive low, Int.lt_of_le_of_lt high range.small⟩

/-- Items beside those that are rearranged stay where they are. -/
theorem item_of_rearranged {lo' up' i : Int} (moved : Rearranged lo' up' t t') (low : lo ≤ lo') (high : up' ≤ up)
    (here : lo ≤ i ∧ i ≤ up) (outside : i < lo' ∨ up' < i) : t'.item i = t.item i := by
  refine moved.get_of_outside ?_
  rintro ⟨j, above, below, same⟩
  have := (range.itemKey_eq_iff here ⟨Int.le_trans low above, Int.le_trans below high⟩).mp same
  omega

end InRange

/-- Items that are rearranged are the same ones, each as often. -/
theorem Rearranged.items_perm {n : Nat} (moved : Rearranged 1 n t t') (small : n < 2147483647) :
    ((List.range n).map fun i : Nat => t'.item (i + 1)).Perm ((List.range n).map fun i : Nat => t.item (i + 1)) := by
  obtain ⟨σ, fixed, moved⟩ := moved.moves
  let places : List Key := (List.range n).map fun i : Nat => itemKey (i + 1)
  have mem (k : Key) : k ∈ places ↔ Between 1 n k := by
    rw [List.mem_map]
    constructor
    · rintro ⟨i, bound, rfl⟩
      have := List.mem_range.mp bound
      exact ⟨i + 1, by omega, by omega, rfl⟩
    · rintro ⟨i, low, high, rfl⟩
      exact ⟨(i - 1).toNat, List.mem_range.mpr (by omega), congrArg itemKey (by omega)⟩
  have nodup : places.Nodup := by
    refine List.Nodup.map_on (fun i hi j hj same => ?_) List.nodup_range
    have range : InRange 1 n := ⟨by decide, by omega⟩
    have := List.mem_range.mp hi
    have := List.mem_range.mp hj
    have := (range.itemKey_eq_iff (by omega) (by omega)).mp same
    omega
  have permuted : (places.map σ).Perm places := by
    rw [List.perm_ext_iff_of_nodup (nodup.map σ.injective) nodup]
    intro k
    rw [List.mem_map]
    constructor
    · rintro ⟨k', there, rfl⟩
      exact (mem _).mpr ((between_iff fixed k').mpr ((mem k').mp there))
    · intro there
      refine ⟨σ.symm k, (mem _).mpr ((between_iff fixed _).mp ?_), σ.apply_symm_apply k⟩
      rw [σ.apply_symm_apply]
      exact (mem k).mp there
  have before : places.map t.get = (List.range n).map fun i : Nat => t.item (i + 1) := List.map_map
  have after : (places.map σ).map t.get = (List.range n).map fun i : Nat => t'.item (i + 1) := by
    rw [List.map_map, List.map_map]
    exact List.map_congr_left fun i _ => (moved _).symm
  rw [← before, ← after]
  exact permuted.map t.get

/-! ### Exchanges -/

/-- The table with two items exchanged. -/
def Table.swapped (t : Table) (i j : Int) : Table := (t.set (itemKey i) (t.item j)).set (itemKey j) (t.item i)

theorem Table.get_swapped (t : Table) (i j : Int) (k : Key) :
    (t.swapped i j).get k = t.get (Equiv.swap (itemKey i) (itemKey j) k) := by
  rw [swapped, get_set, get_set]
  by_cases second : itemKey j = k
  · rw [if_pos second, ← second, Equiv.swap_apply_right, item]
  · rw [if_neg second]
    by_cases first : itemKey i = k
    · rw [if_pos first, ← first, Equiv.swap_apply_left, item]
    · rw [if_neg first, Equiv.swap_apply_of_ne_of_ne (Ne.symm first) (Ne.symm second)]

theorem Table.bytes_set_of_present {k : Key} (present : t.get k ≠ .nil) (v : Value) : (t.set k v).bytes = t.bytes := by
  obtain ⟨arraySize, capacity⟩ := layout_set_of_present present v
  rw [bytes, arraySize, capacity, bytes]

theorem Table.bytes_swapped {i j : Int} (hi : t.item i ≠ .nil) (hj : t.item j ≠ .nil) : (t.swapped i j).bytes = t.bytes := by
  have present : (t.set (itemKey i) (t.item j)).get (itemKey j) ≠ .nil := by
    rw [get_set]
    split
    · exact hj
    · exact hj
  rw [swapped, bytes_set_of_present present, bytes_set_of_present hi]

theorem Rearranged.swapped {lo up i j : Int} (first : lo ≤ i ∧ i ≤ up) (second : lo ≤ j ∧ j ≤ up) (hi : t.item i ≠ .nil)
    (hj : t.item j ≠ .nil) : Rearranged lo up t (t.swapped i j) where
  metatable := by rw [Table.swapped, Table.metatable_set, Table.metatable_set]
  bytes := Table.bytes_swapped hi hj
  moves := by
    refine ⟨Equiv.swap (itemKey i) (itemKey j), fun k outside => ?_, t.get_swapped i j⟩
    refine Equiv.swap_apply_of_ne_of_ne ?_ ?_
    · rintro rfl
      exact outside ⟨i, first.1, first.2, rfl⟩
    · rintro rfl
      exact outside ⟨j, second.1, second.2, rfl⟩

theorem InRange.item_swapped {lo up i j x : Int} (range : InRange lo up) (first : lo ≤ i ∧ i ≤ up) (second : lo ≤ j ∧ j ≤ up)
    (here : lo ≤ x ∧ x ≤ up) : (t.swapped i j).item x = if x = j then t.item i else if x = i then t.item j else t.item x := by
  have left := range.itemKey_eq_iff first here
  have right := range.itemKey_eq_iff second here
  simp only [Table.item, Table.swapped, Table.get_set, left, right, eq_comm (a := x)]

namespace Tables

variable {s : Site} {less : Value → Value → Bool} {P : Value → Prop} {lo up : Int}

/-! ### Reading and writing -/

/-- A comparison that has an answer for any two values of some kind, none of which is nil, and whose
answers are those of an order: no two values come before each other, and what comes before none of
two values in turn comes before neither. -/
structure Orders (s : Site) (less : Value → Value → Bool) (P : Value → Prop) : Prop where
  some : ∀ {v}, P v → v ≠ .nil
  before : ∀ {a b}, P a → P b → ∀ st, before s a b st = .ok (less a b) st
  asymm : ∀ {a b}, P a → P b → less a b = true → less b a = false
  trans : ∀ {a b c}, P a → P b → P c → less b a = false → less c b = false → less c a = false

theorem Orders.irrefl (orders : Orders s less P) {a : Value} (known : P a) : less a a = false := by
  cases before : less a a with
  | false => rfl
  | true => exact before.symm.trans (orders.asymm known known before)

/-- A list whose items between two places can be compared, and which can be written to. -/
structure Held (st : State) (id : Nat) (P : Value → Prop) (lo up : Int) (t : Table) : Prop where
  inside : id < st.heap.tables.size
  plain : t.metatable = none
  fits : ∀ cap ∈ st.cap, t.bytes ≤ cap
  items : ∀ i, lo ≤ i → i ≤ up → P (t.item i)

theorem Held.rearranged {lo' up' : Int} (held : Held st id P lo up t) (moved : Rearranged lo' up' t t') (low : lo ≤ lo')
    (high : up' ≤ up) : Held st id P lo up t' where
  inside := held.inside
  plain := moved.metatable.trans held.plain
  fits cap has := moved.bytes ▸ held.fits cap has
  items := (moved.widen low high).forall_item held.items

theorem Held.narrow {lo' up' : Int} (held : Held st id P lo up t) (low : lo ≤ lo') (high : up' ≤ up) : Held st id P lo' up' t where
  inside := held.inside
  plain := held.plain
  fits := held.fits
  items i above below := held.items i (Int.le_trans low above) (Int.le_trans below high)

theorem metamethod_withTable (inside : id < st.heap.tables.size) (plain : t.metatable = none) (event : String) :
    (st.withTable id t).heap.metamethod (.table id) event = .nil := by
  rw [Heap.metamethod, Heap.metatable?, State.table_withTable inside, plain]

theorem item_eq (inside : id < st.heap.tables.size) (plain : t.metatable = none) (i : Int) :
    item s (.table id) i (st.withTable id t) = .ok (t.item i) (st.withTable id t) := by
  have read : (st.withTable id t).heap.index (.table id) (.int (Int64.ofInt i)) = .value (t.item i) := by
    rw [Heap.index_eq_raw (metamethod_withTable inside plain "__index"), Heap.rawGet, State.table_withTable inside]
    rfl
  unfold item Site.index
  rw [bind_of_ok (rfl : getHeap (st.withTable id t) = .ok (st.withTable id t).heap (st.withTable id t)), read]
  rfl

theorem checkRoom_eq (inside : id < st.heap.tables.size) (fits : ∀ cap ∈ st.cap, t.bytes ≤ cap) :
    checkRoom id (st.withTable id t) = .ok ⟨⟩ (st.withTable id t) := by
  unfold checkRoom
  rw [bind_of_ok (rfl : (get : M State) (st.withTable id t) = .ok (st.withTable id t) (st.withTable id t)),
    State.table_withTable inside, State.cap_withTable]
  cases limit : st.cap with
  | none => rfl
  | some cap =>
    have small : ¬t.bytes > cap := Nat.not_lt.mpr (fits cap limit)
    dsimp only
    rw [if_neg small]
    rfl

theorem setEntry_eq (inside : id < st.heap.tables.size) (k : Key) (v : Value) (fits : ∀ cap ∈ st.cap, (t.set k v).bytes ≤ cap) :
    setEntry id k v (st.withTable id t) = .ok ⟨⟩ (st.withTable id (t.set k v)) := by
  have set : modifyHeap (·.rawSet id k v) (st.withTable id t) = .ok ⟨⟩ (st.withTable id (t.set k v)) :=
    congrArg (EStateM.Result.ok PUnit.unit) (st.modifyTable_withTable id t (·.set k v))
  unfold setEntry
  rw [bind_of_ok set, checkRoom_eq inside fits]

theorem setItem_eq (inside : id < st.heap.tables.size) (plain : t.metatable = none) (i : Int) (v : Value)
    (fits : ∀ cap ∈ st.cap, (t.set (itemKey i) v).bytes ≤ cap) :
    setItem s (.table id) i v (st.withTable id t) = .ok ⟨⟩ (st.withTable id (t.set (itemKey i) v)) := by
  have stored : (st.withTable id t).heap.store (.table id) (.int (Int64.ofInt i)) v = .entry id (itemKey i) := by
    rw [Heap.store_eq_raw (metamethod_withTable inside plain "__newindex")]
    rfl
  unfold setItem Site.store
  rw [bind_of_ok (rfl : getHeap (st.withTable id t) = .ok (st.withTable id t).heap (st.withTable id t)), stored]
  exact setEntry_eq inside (itemKey i) v fits

/-- Two items change places. -/
theorem exchange_eq (held : Held st id P lo up t) (orders : Orders s less P) {i j : Int} (first : lo ≤ i ∧ i ≤ up)
    (second : lo ≤ j ∧ j ≤ up) (next : Unit → M α) :
    (setItem s (.table id) i (t.item j) >>= fun _ => setItem s (.table id) j (t.item i) >>= next) (st.withTable id t) =
      next ⟨⟩ (st.withTable id (t.swapped i j)) := by
  have here := orders.some (held.items i first.1 first.2)
  have there := orders.some (held.items j second.1 second.2)
  have fits : ∀ cap ∈ st.cap, (t.set (itemKey i) (t.item j)).bytes ≤ cap := fun cap has => by
    rw [Table.bytes_set_of_present here]
    exact held.fits cap has
  have fits' : ∀ cap ∈ st.cap, (t.swapped i j).bytes ≤ cap := fun cap has => by
    rw [Table.bytes_swapped here there]
    exact held.fits cap has
  rw [bind_of_ok (setItem_eq held.inside held.plain i _ fits)]
  exact bind_of_ok (setItem_eq held.inside ((Table.metatable_set ..).trans held.plain) j _ fits')

/-! ### Scans -/

section Scans

variable (orders : Orders s less P) (held : Held st id P lo up t) {pivot : Value} {stop i j : Int}

include orders held

/-- Going up, a scan finds the first item that does not come before the pivot. -/
theorem scanUp_spec (known : P pivot) (fuel : Nat) (at' : t.item stop = pivot) (low : lo ≤ i) (here : i ≤ stop) (high : stop ≤ up)
    (enough : stop < i + fuel) : ∃ i', i ≤ i' ∧ i' ≤ stop ∧
      scanUp s (.table id) pivot stop fuel i (st.withTable id t) = .ok (i', t.item i') (st.withTable id t) ∧
      less (t.item i') pivot = false ∧ ∀ x, i ≤ x → x < i' → less (t.item x) pivot = true := by
  induction fuel generalizing i with
  | zero => omega
  | succ fuel ih =>
    have compared := orders.before (held.items i low (Int.le_trans here high)) known (st.withTable id t)
    unfold scanUp
    rw [bind_of_ok (item_eq held.inside held.plain i), bind_of_ok compared]
    cases before : less (t.item i) pivot with
    | false => exact ⟨i, Int.le_refl i, here, rfl, before, fun x _ _ => by omega⟩
    | true =>
      have other : i ≠ stop := by
        rintro rfl
        rw [at', orders.irrefl known] at before
        cases before
      obtain ⟨i', above, below, found, fits, passed⟩ := ih (i := i + 1) (by omega) (by omega) (by omega)
      refine ⟨i', by omega, below, ?_, fits, fun x low' high' => ?_⟩
      · rw [if_pos rfl, if_neg (by simpa using other)]
        exact found
      · by_cases same : x = i
        · exact same ▸ before
        · exact passed x (by omega) high'

/-- Going down, a scan finds the first item that the pivot does not come before. -/
theorem scanDown_spec (known : P pivot) (fuel : Nat) {floor : Int} (low : lo ≤ floor) (here : floor ≤ j) (high : j ≤ up)
    (halts : less pivot (t.item floor) = false) (sound : ∀ x, floor ≤ x → x < stop → less pivot (t.item x) = false)
    (enough : j < floor + fuel) : ∃ j', floor ≤ j' ∧ j' ≤ j ∧
      scanDown s (.table id) pivot stop fuel j (st.withTable id t) = .ok (j', t.item j') (st.withTable id t) ∧
      less pivot (t.item j') = false ∧ ∀ x, j' < x → x ≤ j → less pivot (t.item x) = true := by
  induction fuel generalizing j with
  | zero => omega
  | succ fuel ih =>
    have compared := orders.before known (held.items j (Int.le_trans low here) high) (st.withTable id t)
    unfold scanDown
    rw [bind_of_ok (item_eq held.inside held.plain j), bind_of_ok compared]
    cases before : less pivot (t.item j) with
    | false => exact ⟨j, here, Int.le_refl j, rfl, before, fun x _ _ => by omega⟩
    | true =>
      have other : j ≠ floor := by
        rintro rfl
        cases before.symm.trans halts
      have beyond : ¬j < stop := fun less => by cases before.symm.trans (sound j here less)
      obtain ⟨j', above, below, found, fits, passed⟩ := ih (j := j - 1) (by omega) (by omega) (by omega)
      refine ⟨j', above, by omega, ?_, fits, fun x low' high' => ?_⟩
      · rw [if_pos rfl, if_neg beyond]
        exact found
      · by_cases same : x = j
        · exact same ▸ before
        · exact passed x low' (by omega)

end Scans

/-! ### Partitions -/

/-- The items up to one place are not above the pivot, those from another one on are not below it, and
the pivot stands just below the last item. -/
structure Split (less : Value → Value → Bool) (pivot : Value) (lo i j up : Int) (t : Table) : Prop where
  low : ∀ x, lo ≤ x → x ≤ i → less pivot (t.item x) = false
  high : ∀ x, j ≤ x → x ≤ up → less (t.item x) pivot = false
  pivot : t.item (up - 1) = pivot

/-- No item before a place is above the one at the place, and none behind it is below that. -/
structure Parted (less : Value → Value → Bool) (lo p up : Int) (t : Table) : Prop where
  low : ∀ x, lo ≤ x → x < p → less (t.item p) (t.item x) = false
  high : ∀ x, p < x → x ≤ up → less (t.item x) (t.item p) = false

section Partitions

variable (orders : Orders s less P) (range : InRange lo up)

include orders range

/-- A partition moves the pivot to a place that parts the items. -/
theorem partition_spec {pivot : Value} (known : P pivot) {size : Nat} (wide : up ≤ lo + size) (fuel : Nat) {i j : Int}
    (held : Held st id P lo up t) (split : Split less pivot lo i j up t) (low : lo ≤ i) (inner : i < up - 1) (some : lo < j)
    (high : j ≤ up - 1) (enough : j < lo + fuel) : ∃ p t', lo < p ∧ p ≤ up - 1 ∧
      partition s (.table id) pivot size up fuel i j (st.withTable id t) = .ok p (st.withTable id t') ∧
      Rearranged lo up t t' ∧ Parted less lo p up t' := by
  induction fuel generalizing t i j with
  | zero => omega
  | succ fuel ih =>
    obtain ⟨i', above, below, found, fits, passed⟩ := scanUp_spec orders held known (size + 2) split.pivot
      (i := i + 1) (by omega) (by omega) (by omega) (by omega)
    have sound : ∀ x, lo ≤ x → x < i' → less pivot (t.item x) = false := fun x low' high' => by
      by_cases old : x ≤ i
      · exact split.low x low' old
      · exact orders.asymm (held.items x low' (by omega)) known (passed x (by omega) high')
    obtain ⟨j', above', below', found', fits', passed'⟩ := scanDown_spec orders held known (size + 2) (j := j - 1)
      (Int.le_refl lo) (by omega) (by omega) (split.low lo (Int.le_refl lo) low) sound (by omega)
    have behind : ∀ x, j' < x → x ≤ up → less (t.item x) pivot = false := fun x low' high' => by
      by_cases old : j ≤ x
      · exact split.high x old high'
      · exact orders.asymm known (held.items x (by omega) high') (passed' x low' (by omega))
    have first : lo ≤ i' ∧ i' ≤ up := ⟨by omega, by omega⟩
    have second : lo ≤ j' ∧ j' ≤ up := ⟨by omega, by omega⟩
    have last : lo ≤ up - 1 ∧ up - 1 ≤ up := ⟨by omega, by omega⟩
    have present {x : Int} (inside : lo ≤ x ∧ x ≤ up) : t.item x ≠ .nil := orders.some (held.items x inside.1 inside.2)
    unfold partition
    rw [bind_of_ok found]
    dsimp only
    rw [bind_of_ok found']
    dsimp only
    by_cases crossed : j' < i'
    · -- The scans have crossed: everything is on its side, and the pivot goes between the sides.
      rw [if_pos crossed]
      have exchanged := exchange_eq held orders last first (fun _ => (pure i' : M Int))
      rw [split.pivot] at exchanged
      have items {x : Int} (inside : lo ≤ x ∧ x ≤ up) := range.item_swapped (t := t) last first inside
      have center : (t.swapped (up - 1) i').item i' = pivot := by rw [items first, if_pos rfl, split.pivot]
      refine ⟨i', t.swapped (up - 1) i', by omega, below, exchanged,
        .swapped last first (present last) (present first), fun x low' high' => ?_, fun x low' high' => ?_⟩
      · rw [center, items ⟨low', by omega⟩, if_neg (by omega), if_neg (by omega)]
        exact sound x low' high'
      · rw [center, items ⟨by omega, high'⟩, if_neg (by omega)]
        split
        · exact fits
        · exact behind x (by omega) high'
    · rw [if_neg crossed, exchange_eq held orders first second fun _ => partition s (.table id) pivot size up fuel i' j']
      have items {x : Int} (inside : lo ≤ x ∧ x ≤ up) := range.item_swapped (t := t) first second inside
      have moved : Rearranged lo up t (t.swapped i' j') := .swapped first second (present first) (present second)
      have split' : Split less pivot lo i' j' up (t.swapped i' j') := by
        refine ⟨fun x low' high' => ?_, fun x low' high' => ?_, ?_⟩
        · rw [items ⟨low', by omega⟩]
          by_cases new : x = i'
          · rw [if_pos new, new]
            split
            next same => rwa [same]
            next => exact fits'
          · rw [if_neg (by omega), if_neg new]
            exact sound x low' (by omega)
        · rw [items ⟨by omega, high'⟩]
          by_cases new : x = j'
          · rw [if_pos new]
            exact fits
          · rw [if_neg new, if_neg (by omega)]
            exact behind x (by omega) high'
        · rw [items last, if_neg (by omega), if_neg (by omega)]
          exact split.pivot
      obtain ⟨p, t', inside, inside', done, moved', parted⟩ := ih (held.rearranged moved (Int.le_refl lo) (Int.le_refl up)) split'
        (by omega) (by omega) (by omega) (by omega) (by omega)
      exact ⟨p, t', inside, inside', done, moved.trans moved', parted⟩

end Partitions

/-! ### Order -/

/-- No item between two places comes before one that it stands behind. -/
def Ordered (less : Value → Value → Bool) (lo up : Int) (t : Table) : Prop :=
  ∀ x y, lo ≤ x → x ≤ y → y ≤ up → less (t.item y) (t.item x) = false

theorem Ordered.of_item_eq (ordered : Ordered less lo up t) (same : ∀ x, lo ≤ x → x ≤ up → t'.item x = t.item x) :
    Ordered less lo up t' := fun x y low le high => by
  rw [same x low (Int.le_trans le high), same y (Int.le_trans low le) high]
  exact ordered x y low le high

theorem Parted.rearranged_low {p : Int} (range : InRange lo up) (parted : Parted less lo p up t) (inside : lo ≤ p ∧ p ≤ up)
    (moved : Rearranged lo (p - 1) t t') : Parted less lo p up t' := by
  have same {x : Int} (low : p ≤ x) (high : x ≤ up) : t'.item x = t.item x :=
    range.item_of_rearranged moved (Int.le_refl lo) (by omega) ⟨by omega, high⟩ (by omega)
  refine ⟨fun x low high => ?_, fun x low high => ?_⟩
  · rw [same (Int.le_refl p) inside.2]
    exact moved.forall_item (Q := fun v => less (t.item p) v = false) (fun y low' high' => parted.low y low' (by omega)) x low
      (by omega)
  · rw [same (by omega) high, same (Int.le_refl p) inside.2]
    exact parted.high x low high

theorem Parted.rearranged_high {p : Int} (range : InRange lo up) (parted : Parted less lo p up t) (inside : lo ≤ p ∧ p ≤ up)
    (moved : Rearranged (p + 1) up t t') : Parted less lo p up t' := by
  have same {x : Int} (low : lo ≤ x) (high : x ≤ p) : t'.item x = t.item x :=
    range.item_of_rearranged moved (by omega) (Int.le_refl up) ⟨low, by omega⟩ (by omega)
  refine ⟨fun x low high => ?_, fun x low high => ?_⟩
  · rw [same low (by omega), same inside.1 (Int.le_refl p)]
    exact parted.low x low high
  · rw [same inside.1 (Int.le_refl p)]
    exact moved.forall_item (Q := fun v => less v (t.item p) = false) (fun y low' high' => parted.high y (by omega) high') x
      (by omega) high

section Orders

variable (orders : Orders s less P)

include orders

theorem ordered_of_le (held : Held st id P lo up t) (few : up ≤ lo) : Ordered less lo up t := fun x y low le high => by
  obtain rfl : x = y := by omega
  exact orders.irrefl (held.items x low high)

/-- Sides that are in order are so together with what parts them. -/
theorem Parted.ordered {p : Int} (held : Held st id P lo up t) (parted : Parted less lo p up t) (inside : lo ≤ p ∧ p ≤ up)
    (below : Ordered less lo (p - 1) t) (above : Ordered less (p + 1) up t) : Ordered less lo up t := fun x y low le high => by
  have known {z : Int} (low : lo ≤ z) (high : z ≤ up) := held.items z low high
  by_cases left : y < p
  · exact below x y low le (by omega)
  by_cases right : p < x
  · exact above x y (by omega) le high
  have first : less (t.item p) (t.item x) = false := by
    by_cases same : x = p
    · exact same ▸ orders.irrefl (known low (by omega))
    · exact parted.low x low (by omega)
  have second : less (t.item y) (t.item p) = false := by
    by_cases same : y = p
    · exact same ▸ orders.irrefl (known (by omega) high)
    · exact parted.high y (by omega) high
  exact orders.trans (known low (by omega)) (known inside.1 inside.2) (known (by omega) high) first second

/-! ### Sorting a range -/

/-- The outer items of a range are put in order. -/
theorem exists_pair (range : InRange lo up) (held : Held st id P lo up t) (some : lo < up) : ∃ t', Rearranged lo up t t' ∧
    less (t'.item up) (t'.item lo) = false ∧ ∀ next : M Unit, (do
      let a ← item s (.table id) lo
      let b ← item s (.table id) up
      if ← before s b a then
        setItem s (.table id) lo b
        setItem s (.table id) up a
      next : M Unit) (st.withTable id t) = next (st.withTable id t') := by
  have first : lo ≤ lo ∧ lo ≤ up := ⟨Int.le_refl lo, by omega⟩
  have last : lo ≤ up ∧ up ≤ up := ⟨by omega, Int.le_refl up⟩
  have known {x : Int} (inside : lo ≤ x ∧ x ≤ up) := held.items x inside.1 inside.2
  cases before : less (t.item up) (t.item lo) with
  | false =>
    refine ⟨t, .refl lo up t, before, fun next => ?_⟩
    rw [bind_of_ok (item_eq held.inside held.plain lo), bind_of_ok (item_eq held.inside held.plain up),
      bind_of_ok (orders.before (known last) (known first) _), before]
    rfl
  | true =>
    refine ⟨t.swapped lo up, .swapped first last (orders.some (known first)) (orders.some (known last)), ?_, fun next => ?_⟩
    · rw [range.item_swapped first last last, range.item_swapped first last first, if_pos rfl, if_neg (by omega), if_pos rfl]
      exact orders.asymm (known last) (known first) before
    · rw [bind_of_ok (item_eq held.inside held.plain lo), bind_of_ok (item_eq held.inside held.plain up),
        bind_of_ok (orders.before (known last) (known first) _), before]
      exact exchange_eq held orders first last fun _ => next

/-- An item within a range and the outer ones, which are in order, are put in order. -/
theorem exists_median (range : InRange lo up) (held : Held st id P lo up t) {p : Int} (above : lo < p) (below : p < up)
    (pair : less (t.item up) (t.item lo) = false) : ∃ t', Rearranged lo up t t' ∧
    less (t'.item p) (t'.item lo) = false ∧ less (t'.item up) (t'.item p) = false ∧ ∀ next : M Unit, (do
      let mid ← item s (.table id) p
      let low ← item s (.table id) lo
      if ← before s mid low then
        setItem s (.table id) p low
        setItem s (.table id) lo mid
      else
        let high ← item s (.table id) up
        if ← before s high mid then
          setItem s (.table id) p high
          setItem s (.table id) up mid
      next : M Unit) (st.withTable id t) = next (st.withTable id t') := by
  have first : lo ≤ lo ∧ lo ≤ up := ⟨Int.le_refl lo, by omega⟩
  have center : lo ≤ p ∧ p ≤ up := ⟨by omega, by omega⟩
  have last : lo ≤ up ∧ up ≤ up := ⟨by omega, Int.le_refl up⟩
  have known {x : Int} (inside : lo ≤ x ∧ x ≤ up) := held.items x inside.1 inside.2
  cases low : less (t.item p) (t.item lo) with
  | true =>
    refine ⟨t.swapped p lo, .swapped center first (orders.some (known center)) (orders.some (known first)), ?_, ?_, fun next => ?_⟩
    · rw [range.item_swapped center first center, range.item_swapped center first first, if_neg (by omega), if_pos rfl, if_pos rfl]
      exact orders.asymm (known center) (known first) low
    · rw [range.item_swapped center first center, range.item_swapped center first last, if_neg (by omega), if_neg (by omega),
        if_neg (by omega), if_pos rfl]
      exact pair
    · rw [bind_of_ok (item_eq held.inside held.plain p), bind_of_ok (item_eq held.inside held.plain lo),
        bind_of_ok (orders.before (known center) (known first) _), low]
      exact exchange_eq held orders center first fun _ => next
  | false =>
    cases high : less (t.item up) (t.item p) with
    | true =>
      refine ⟨t.swapped p up, .swapped center last (orders.some (known center)) (orders.some (known last)), ?_, ?_, fun next => ?_⟩
      · rw [range.item_swapped center last center, range.item_swapped center last first, if_neg (by omega), if_pos rfl,
          if_neg (by omega), if_neg (by omega)]
        exact pair
      · rw [range.item_swapped center last center, range.item_swapped center last last, if_pos rfl, if_neg (by omega), if_pos rfl]
        exact orders.asymm (known last) (known center) high
      · rw [bind_of_ok (item_eq held.inside held.plain p), bind_of_ok (item_eq held.inside held.plain lo),
          bind_of_ok (orders.before (known center) (known first) _), low, if_neg Bool.false_ne_true,
          bind_of_ok (item_eq held.inside held.plain up), bind_of_ok (orders.before (known last) (known center) _), high]
        exact exchange_eq held orders center last fun _ => next
    | false =>
      refine ⟨t, .refl lo up t, low, high, fun next => ?_⟩
      rw [bind_of_ok (item_eq held.inside held.plain p), bind_of_ok (item_eq held.inside held.plain lo),
        bind_of_ok (orders.before (known center) (known first) _), low, if_neg Bool.false_ne_true,
        bind_of_ok (item_eq held.inside held.plain up), bind_of_ok (orders.before (known last) (known center) _), high]
      rfl

/-- Sorting both sides of an item that parts a range puts the range in order, whichever side comes first. -/
theorem sortSides_spec (range : InRange lo up) (held : Held st id P lo up t) {p : Int} (parted : Parted less lo p up t)
    (inside : lo ≤ p ∧ p ≤ up) {low high : M Unit}
    (below : ∀ {t}, Held st id P lo (p - 1) t → ∃ t', low (st.withTable id t) = .ok ⟨⟩ (st.withTable id t') ∧
      Rearranged lo (p - 1) t t' ∧ Ordered less lo (p - 1) t')
    (above : ∀ {t}, Held st id P (p + 1) up t → ∃ t', high (st.withTable id t) = .ok ⟨⟩ (st.withTable id t') ∧
      Rearranged (p + 1) up t t' ∧ Ordered less (p + 1) up t') (lowFirst : Bool) :
    ∃ t', (if lowFirst then low >>= fun _ => high else high >>= fun _ => low) (st.withTable id t) = .ok ⟨⟩ (st.withTable id t') ∧
      Rearranged lo up t t' ∧ Ordered less lo up t' := by
  have left : p - 1 ≤ up := by omega
  have right : lo ≤ p + 1 := by omega
  cases lowFirst with
  | true =>
    obtain ⟨t₁, done₁, moved₁, ordered₁⟩ := below (held.narrow (Int.le_refl lo) left)
    have held₁ := held.rearranged moved₁ (Int.le_refl lo) left
    obtain ⟨t₂, done₂, moved₂, ordered₂⟩ := above (held₁.narrow right (Int.le_refl up))
    refine ⟨t₂, ?_, (moved₁.widen (Int.le_refl lo) left).trans (moved₂.widen right (Int.le_refl up)), ?_⟩
    · rw [if_pos rfl, bind_of_ok done₁, done₂]
    · refine ((parted.rearranged_low range inside moved₁).rearranged_high range inside moved₂).ordered orders
        (held₁.rearranged moved₂ right (Int.le_refl up)) inside (ordered₁.of_item_eq fun x low high => ?_) ordered₂
      exact range.item_of_rearranged moved₂ right (Int.le_refl up) (by omega) (by omega)
  | false =>
    obtain ⟨t₁, done₁, moved₁, ordered₁⟩ := above (held.narrow right (Int.le_refl up))
    have held₁ := held.rearranged moved₁ right (Int.le_refl up)
    obtain ⟨t₂, done₂, moved₂, ordered₂⟩ := below (held₁.narrow (Int.le_refl lo) left)
    refine ⟨t₂, ?_, (moved₁.widen right (Int.le_refl up)).trans (moved₂.widen (Int.le_refl lo) left), ?_⟩
    · rw [if_neg Bool.false_ne_true, bind_of_ok done₁, done₂]
    · refine ((parted.rearranged_high range inside moved₁).rearranged_low range inside moved₂).ordered orders
        (held₁.rearranged moved₂ (Int.le_refl lo) left) inside ordered₂ (ordered₁.of_item_eq fun x low high => ?_)
      exact range.item_of_rearranged moved₂ (Int.le_refl lo) left (by omega) (by omega)

/-- Sorting a range rearranges its items so that they are in order. -/
theorem sortRange_spec (fuel : Nat) (range : InRange lo up) (held : Held st id P lo up t) (enough : up < lo + fuel) :
    ∃ t', sortRange s (.table id) fuel lo up (st.withTable id t) = .ok ⟨⟩ (st.withTable id t') ∧
      Rearranged lo up t t' ∧ Ordered less lo up t' := by
  induction fuel generalizing lo up t with
  | zero => exact ⟨t, rfl, .refl lo up t, ordered_of_le orders held (by omega)⟩
  | succ fuel ih =>
    unfold sortRange
    by_cases few : lo ≥ up
    · exact ⟨t, by rw [if_pos few]; rfl, .refl lo up t, ordered_of_le orders held few⟩
    rw [if_neg few]
    obtain ⟨t₁, moved₁, pair, run₁⟩ := exists_pair orders range held (by omega)
    have held₁ := held.rearranged moved₁ (Int.le_refl lo) (Int.le_refl up)
    by_cases two : up - lo = 1
    · refine ⟨t₁, (run₁ _).trans ?_, moved₁, Parted.ordered orders held₁ (p := lo) ⟨fun x _ _ => by omega, fun x low high => ?_⟩
        (by omega) (ordered_of_le orders (held₁.narrow (Int.le_refl lo) (by omega)) (by omega))
        (ordered_of_le orders (held₁.narrow (by omega) (Int.le_refl up)) (by omega))⟩
      · rw [if_pos (beq_iff_eq.mpr two)]
        rfl
      · obtain rfl : x = up := by omega
        exact pair
    obtain ⟨t₂, moved₂, low, high, run₂⟩ := exists_median orders range held₁ (p := (lo + up) / 2) (by omega) (by omega) pair
    have held₂ := held₁.rearranged moved₂ (Int.le_refl lo) (Int.le_refl up)
    have center : lo < (lo + up) / 2 ∧ (lo + up) / 2 < up := ⟨by omega, by omega⟩
    generalize (lo + up) / 2 = p at *
    by_cases three : up - lo = 2
    · refine ⟨t₂, (run₁ _).trans ?_, moved₁.trans moved₂, Parted.ordered orders held₂ (p := p) ⟨fun x _ _ => ?_, fun x _ _ => ?_⟩
        (by omega) (ordered_of_le orders (held₂.narrow (Int.le_refl lo) (by omega)) (by omega))
        (ordered_of_le orders (held₂.narrow (by omega) (Int.le_refl up)) (by omega))⟩
      · rw [if_neg (by simpa using two)]
        refine (run₂ _).trans ?_
        rw [if_pos (beq_iff_eq.mpr three)]
        rfl
      · obtain rfl : x = lo := by omega
        exact low
      · obtain rfl : x = up := by omega
        exact high
    -- The pivot is put just below the last item, out of the way of the partition.
    have middle : lo ≤ p ∧ p ≤ up := by omega
    have last : lo ≤ up - 1 ∧ up - 1 ≤ up := by omega
    have known {x : Int} (inside : lo ≤ x ∧ x ≤ up) := held₂.items x inside.1 inside.2
    have moved₃ : Rearranged lo up t₂ (t₂.swapped p (up - 1)) :=
      .swapped middle last (orders.some (known middle)) (orders.some (known last))
    have items {x : Int} (inside : lo ≤ x ∧ x ≤ up) := range.item_swapped (t := t₂) middle last inside
    have split : Split less (t₂.item p) lo lo (up - 1) up (t₂.swapped p (up - 1)) := by
      refine ⟨fun x low' high' => ?_, fun x low' high' => ?_, by rw [items last, if_pos rfl]⟩
      · obtain rfl : x = lo := by omega
        rw [items (by omega), if_neg (by omega), if_neg (by omega)]
        exact low
      · rw [items (by omega)]
        split
        next => exact orders.irrefl (known middle)
        next other =>
          obtain rfl : x = up := by omega
          rw [if_neg (by omega)]
          exact high
    have held₃ := held₂.rearranged moved₃ (Int.le_refl lo) (Int.le_refl up)
    have wide : up ≤ lo + ((up - lo).toNat : Int) := by omega
    obtain ⟨q, t₄, above, below, divided, moved₄, parted⟩ := partition_spec orders range (known middle) wide
      ((up - lo).toNat + 2) held₃ split (by omega) (by omega) (by omega) (by omega) (by omega)
    have held₄ := held₃.rearranged moved₄ (Int.le_refl lo) (Int.le_refl up)
    obtain ⟨t₅, done, moved₅, ordered⟩ := sortSides_spec orders range held₄ parted (by omega)
      (fun held => ih (range.narrow (Int.le_refl lo) (by omega)) held (by omega))
      (fun held => ih (range.narrow (by omega) (Int.le_refl up)) held (by omega)) (decide (q - lo < up - q))
    refine ⟨t₅, (run₁ _).trans ?_, (((moved₁.trans moved₂).trans moved₃).trans moved₄).trans moved₅, ordered⟩
    rw [if_neg (by simpa using two)]
    refine (run₂ _).trans ?_
    rw [if_neg (by simpa using three), bind_of_ok (item_eq held₂.inside held₂.plain p),
      bind_of_ok (item_eq held₂.inside held₂.plain (up - 1)), exchange_eq held₂ orders middle last, bind_of_ok divided]
    by_cases lowFirst : q - lo < up - q
    · rw [if_pos lowFirst]
      rwa [if_pos (decide_eq_true lowFirst)] at done
    · rw [if_neg lowFirst]
      rwa [if_neg (by simpa using lowFirst)] at done

end Orders

/-! ### Sorting a list -/

section Lists

variable (inside : id < st.heap.tables.size) (plain : t.metatable = none) (list : s.arg 1 = .table id)

include inside plain

theorem length_eq : s.length (.table id) (st.withTable id t) = .ok (Int64.ofNat t.length).toInt (st.withTable id t) := by
  have long : (st.withTable id t).heap.unary .len (.table id) = .value (.ofNat t.length) := by
    rw [Heap.length_eq_raw (metamethod_withTable inside plain "__len"), State.table_withTable inside]
  unfold Site.length
  rw [bind_of_ok (rfl : getHeap (st.withTable id t) = .ok (st.withTable id t).heap (st.withTable id t)), long]
  rfl

include list

/-- A list of less than two items is sorted. -/
theorem sort_of_few (few : (Int64.ofNat t.length).toInt ≤ 1) : sort s (st.withTable id t) = .ok [] (st.withTable id t) := by
  unfold sort checkList
  rw [list, bind_of_ok (rfl : (pure (.table id) : M Value) (st.withTable id t) = .ok (.table id) (st.withTable id t)),
    bind_of_ok (length_eq inside plain), if_neg (by omega)]
  rfl

/-- A list that is too long is not sorted. -/
theorem sort_of_many (many : 2147483647 ≤ (Int64.ofNat t.length).toInt) {f : Failure} {st' : State}
    (fails : ∀ {α : Type}, (s.argumentFault 1 "array too big" : M α) (st.withTable id t) = .error f st') :
    sort s (st.withTable id t) = .error f st' := by
  unfold sort checkList
  rw [list, bind_of_ok (rfl : (pure (.table id) : M Value) (st.withTable id t) = .ok (.table id) (st.withTable id t)),
    bind_of_ok (length_eq inside plain), if_pos (by omega), if_neg (by omega)]
  exact bind_of_error fails

/-- Any other list is sorted if its items can be compared. -/
theorem sort_spec (orders : Orders s less P) (order : Heap.isFunction (s.arg 2) = true)
    (some : 1 < (Int64.ofNat t.length).toInt) (small : (Int64.ofNat t.length).toInt < 2147483647)
    (held : Held st id P 1 (Int64.ofNat t.length).toInt t) : ∃ t', sort s (st.withTable id t) = .ok [] (st.withTable id t') ∧
      Rearranged 1 (Int64.ofNat t.length).toInt t t' ∧ Ordered less 1 (Int64.ofNat t.length).toInt t' := by
  obtain ⟨t', done, moved, ordered⟩ := sortRange_spec orders (Int64.ofNat t.length).toInt.toNat ⟨by decide, small⟩ held (by omega)
  refine ⟨t', ?_, moved, ordered⟩
  unfold sort checkList
  rw [list, bind_of_ok (rfl : (pure (.table id) : M Value) (st.withTable id t) = .ok (.table id) (st.withTable id t)),
    bind_of_ok (length_eq inside plain), if_pos some, if_pos small]
  have there : ¬s.isAbsent 2 = true := by
    unfold Site.isAbsent
    rw [beq_iff_eq]
    intro absent
    rw [absent] at order
    cases order
  have checked : s.checkFunction 2 (st.withTable id t) = .ok (s.arg 2) (st.withTable id t) := by
    unfold Site.checkFunction
    rw [if_pos order]
    rfl
  dsimp only
  rw [if_neg there, bind_of_ok checked, bind_of_ok done]
  rfl

end Lists

end Tables

end LuaCapsule.Lua
