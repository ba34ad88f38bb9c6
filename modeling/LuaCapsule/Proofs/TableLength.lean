import LuaCapsule.Lua.Table
import Mathlib.Algebra.Group.Nat.Defs
import Mathlib.Data.List.Basic

/-! The length of a table. A table that holds list items alone has just one border, and the length is
that border however the table is laid out, as long as the layout is one that sets leave: it gives
every key that is no list item a place among the others. -/

namespace LuaCapsule.Lua.Table

variable {t : Table} {k : Key} {v : Value}

/-! ### Counts of keys -/

/-- The level of a key that could have a place of its own. -/
def levelOf? (k : Key) : Option Nat := (arrayKey? k).map level

/-- Would a key have a place of its own among so many? -/
def isItem (size : Nat) (k : Key) : Bool := (arrayKey? k).any (· ≤ size)

theorem inArray_eq (t : Table) (k : Key) : t.inArray k = isItem t.arraySize k := by
  unfold inArray isItem
  cases arrayKey? k <;> rfl

theorem bound_of_arrayKey? {n : Nat} (is : arrayKey? k = some n) : 1 ≤ n ∧ n ≤ 134217728 := by
  cases k with
  | int i =>
    simp only [arrayKey?, Bool.and_eq_true, decide_eq_true_eq] at is
    split at is
    · cases is
      omega
    · cases is
  | _ => cases is

theorem level_lt_succ {n i : Nat} (positive : 1 ≤ n) : level n < i + 1 ↔ n ≤ 2 ^ i := by
  unfold level
  split
  next small =>
    have := Nat.one_le_two_pow (n := i)
    omega
  next large =>
    rw [Nat.add_lt_add_iff_right, Nat.log2_lt (by omega)]
    omega

theorem level_lt {n : Nat} (positive : 1 ≤ n) (small : n ≤ 134217728) : level n < 28 :=
  (level_lt_succ (i := 27) positive).mpr small

/-- The keys below a level are those that would have a place of their own among its power of two. -/
theorem any_level_lt_succ (k : Key) (i : Nat) : (levelOf? k).any (· < i + 1) = isItem (2 ^ i) k := by
  unfold levelOf? isItem
  cases is : arrayKey? k with
  | none => rfl
  | some n =>
    simp only [Option.map_some, Option.any_some, decide_eq_decide]
    exact level_lt_succ (bound_of_arrayKey? is).1

theorem size_tally (counts : Array Nat) (k : Key) : (tally counts k).size = counts.size := by
  unfold tally
  split
  · exact Array.size_modify
  · rfl

theorem getD_tally {counts : Array Nat} (size : counts.size = 28) (k : Key) (j : Nat) :
    (tally counts k).getD j 0 = counts.getD j 0 + if levelOf? k = some j then 1 else 0 := by
  unfold tally levelOf?
  cases is : arrayKey? k with
  | none => rfl
  | some n =>
    obtain ⟨positive, small⟩ := bound_of_arrayKey? is
    have inside : level n < counts.size := size ▸ level_lt positive small
    simp only [Option.map_some, Option.some.injEq, Array.getD_eq_getD_getElem?, Array.getElem?_modify]
    split
    next same =>
      subst same
      rw [Array.getElem?_eq_getElem inside]
      rfl
    next => rfl

theorem size_foldl_tally (ks : List Key) (counts : Array Nat) : (ks.foldl tally counts).size = counts.size := by
  induction ks generalizing counts with
  | nil => rfl
  | cons k ks ih => rw [List.foldl_cons, ih, size_tally]

/-- The tally of keys counts them by level. -/
theorem getD_foldl_tally (ks : List Key) {counts : Array Nat} (size : counts.size = 28) (j : Nat) :
    (ks.foldl tally counts).getD j 0 = counts.getD j 0 + ks.countP (levelOf? · = some j) := by
  induction ks generalizing counts with
  | nil => rfl
  | cons k ks ih =>
    rw [List.foldl_cons, ih ((size_tally counts k).trans size), getD_tally size, List.countP_cons]
    simp only [decide_eq_true_eq]
    omega

theorem countP_lt_succ (ks : List Key) (i : Nat) : ks.countP (fun k => (levelOf? k).any (· < i + 1)) =
    ks.countP (fun k => (levelOf? k).any (· < i)) + ks.countP (levelOf? · = some i) := by
  induction ks with
  | nil => rfl
  | cons k ks ih =>
    simp only [List.countP_cons, ih]
    cases levelOf? k with
    | none => simp
    | some j =>
      simp only [Option.any_some, Option.some.injEq, decide_eq_true_eq]
      grind

/-! ### Layouts -/

/-- The chosen size comes with the number of keys that have a place of their own then. -/
theorem bestSize_spec {ks : List Key} {total : Nat} (counts : List Nat) {i seen : Nat} {best : Nat × Nat}
    (levels : i + counts.length = 28) (each : ∀ j < counts.length, counts.getD j 0 = ks.countP (levelOf? · = some (i + j)))
    (below : seen = ks.countP fun k => (levelOf? k).any (· < i)) (fits : best.1 ≤ 134217728)
    (held : best.2 = ks.countP (isItem best.1)) :
    (bestSize counts total i seen best).1 ≤ 134217728 ∧
      (bestSize counts total i seen best).2 = ks.countP (isItem (bestSize counts total i seen best).1) := by
  induction counts generalizing i seen best with
  | nil => exact ⟨fits, held⟩
  | cons c counts ih =>
    unfold bestSize
    split
    · exact ⟨fits, held⟩
    · have here : c = ks.countP (levelOf? · = some i) := each 0 (Nat.zero_lt_succ _)
      have below' : seen + c = ks.countP fun k => (levelOf? k).any (· < i + 1) := by
        rw [countP_lt_succ, below, here]
      have each' : ∀ j < counts.length, counts.getD j 0 = ks.countP (levelOf? · = some (i + 1 + j)) := by
        intro j bound
        have later := each (j + 1) (Nat.succ_lt_succ bound)
        rwa [List.getD_cons_succ, show i + (j + 1) = i + 1 + j by omega] at later
      have levels' : i + 1 + counts.length = 28 := by
        rw [← levels, List.length_cons]
        omega
      refine ih levels' each' below' ?_ ?_
      · split
        · exact Nat.pow_le_pow_right (j := 27) Nat.two_pos (by omega)
        · exact fits
      · split
        · exact below'.trans (congrArg (ks.countP ·) (funext fun k => any_level_lt_succ k i))
        · exact held

/-- A layout that sets leave: the keys that have no place of their own have room elsewhere. -/
structure LaidOut (t : Table) : Prop where
  small : t.arraySize ≤ 134217728
  room : ∀ k, t.get k ≠ .nil → t.inArray k = true ∨ 0 < t.capacity

theorem laidOut_empty : LaidOut {} where
  small := Nat.zero_le _
  room k some := absurd (get_empty 0 0 k) some

theorem roundUp_pos {n : Nat} (positive : 0 < n) : 0 < roundUp n := by
  unfold roundUp
  rw [if_neg (by simpa using Nat.ne_of_gt positive)]
  exact Nat.two_pow_pos _

theorem foldl_tally_entries (t : Table) (counts : Array Nat) :
    t.entries.foldl (fun c key _ => tally c key) counts = (t.toList.map Prod.fst).foldl tally counts := by
  rw [Std.TreeMap.foldl_eq_foldl_toList, List.foldl_map]
  rfl

/-- After a new layout, the table has room for its keys and for the one that comes in. -/
theorem layOut_spec (t : Table) (k : Key) : (t.layOut k).arraySize ≤ 134217728 ∧
    ∀ k', k' = k ∨ t.get k' ≠ .nil → (t.layOut k).inArray k' = true ∨ 0 < (t.layOut k).capacity := by
  let ks := k :: t.toList.map Prod.fst
  have counted : t.entries.foldl (fun c key _ => tally c key) (tally (Array.replicate 28 0) k) =
      ks.foldl tally (Array.replicate 28 0) := foldl_tally_entries t _
  have size : (ks.foldl tally (Array.replicate 28 0)).size = 28 := by rw [size_foldl_tally, Array.size_replicate]
  have each : ∀ j < (ks.foldl tally (Array.replicate 28 0)).toList.length,
      (ks.foldl tally (Array.replicate 28 0)).toList.getD j 0 = ks.countP (levelOf? · = some (0 + j)) := by
    intro j bound
    rw [List.getD_eq_getElem?_getD, Array.getElem?_toList, ← Array.getD_eq_getD_getElem?,
      getD_foldl_tally ks Array.size_replicate, Nat.zero_add]
    have zero : (Array.replicate 28 0).getD j 0 = 0 := by
      rw [Array.getD_eq_getD_getElem?, Array.getElem?_replicate]
      split <;> rfl
    rw [zero, Nat.zero_add]
  have none : 0 = ks.countP (isItem 0) := by
    refine (List.countP_eq_zero.mpr fun k' _ => ?_).symm
    unfold isItem
    cases is : arrayKey? k' with
    | none => exact Bool.false_ne_true
    | some n =>
      have := (bound_of_arrayKey? is).1
      simp only [Option.any_some, decide_eq_true_eq]
      omega
  let best := bestSize (ks.foldl tally (Array.replicate 28 0)).toList ((ks.foldl tally (Array.replicate 28 0)).foldl (· + ·) 0)
    0 0 (0, 0)
  obtain ⟨fits, held⟩ : best.1 ≤ 134217728 ∧ best.2 = ks.countP (isItem best.1) :=
    bestSize_spec _ (by rw [Nat.zero_add, Array.length_toList, size]) each (by simp) (Nat.zero_le _) none
  have arraySize : (t.layOut k).arraySize = best.1 := by
    unfold layOut
    rw [counted]
  have capacity : (t.layOut k).capacity = roundUp (t.entries.size + 1 - best.2) := by
    unfold layOut
    rw [counted]
  refine ⟨arraySize ▸ fits, fun k' known => ?_⟩
  have mem : k' ∈ ks := known.elim (fun is => is ▸ List.mem_cons_self) fun some => List.mem_cons_of_mem _ (mem_keys.mpr some)
  rw [inArray_eq, arraySize, capacity]
  by_cases item : isItem best.1 k' = true
  · exact .inl item
  · refine .inr (roundUp_pos ?_)
    have length : ks.length = t.entries.size + 1 := by simp [ks, toList]
    have le := List.countP_le_length (p := isItem best.1) (l := ks)
    have ne : ks.countP (isItem best.1) ≠ ks.length := fun all => item (List.countP_eq_length.mp all k' mem)
    omega

theorem LaidOut.reserve (laid : t.LaidOut) (k : Key) : (t.reserve k).arraySize ≤ 134217728 ∧
    ∀ k', k' = k ∨ t.get k' ≠ .nil → (t.reserve k).inArray k' = true ∨ 0 < (t.reserve k).capacity := by
  have new := t.layOut_spec k
  unfold Table.reserve
  split
  next item =>
    refine ⟨laid.small, ?_⟩
    rintro k' (rfl | some)
    · exact .inl item
    · exact laid.room k' some
  next =>
    split
    next free => exact ⟨laid.small, fun k' _ => .inr (Nat.zero_lt_of_lt free)⟩
    next =>
      dsimp only
      split
      · exact new
      · exact new

theorem contains_iff : t.entries.contains k = true ↔ t.get k ≠ .nil := by
  rw [Std.TreeMap.contains_eq_isSome_getElem?, Option.isSome_iff_exists]
  constructor
  · rintro ⟨v, found⟩
    obtain ⟨rfl, some⟩ := getElem?_eq_some.mp found
    exact some
  · exact fun some => ⟨_, getElem?_eq_some.mpr ⟨rfl, some⟩⟩

/-- Setting a key that is there leaves the layout as it is. -/
theorem layout_set_of_present (present : t.get k ≠ .nil) (v : Value) :
    (t.set k v).arraySize = t.arraySize ∧ (t.set k v).capacity = t.capacity := by
  unfold Table.set
  split
  · exact ⟨rfl, rfl⟩
  · rw [if_pos (contains_iff.mpr present)]
    exact ⟨rfl, rfl⟩

/-- Setting a key that is not there makes room for it. -/
theorem layout_set_of_absent (absent : t.get k = .nil) (some : v ≠ .nil) :
    (t.set k v).arraySize = (t.reserve k).arraySize ∧ (t.set k v).capacity = (t.reserve k).capacity := by
  unfold Table.set
  rw [dif_neg some, if_neg (fun there => contains_iff.mp there absent)]
  exact ⟨rfl, rfl⟩

/-- Setting something keeps the room that a table has for its keys. -/
theorem LaidOut.set (laid : t.LaidOut) (k : Key) (some : v ≠ .nil) : (t.set k v).LaidOut := by
  have known (k' : Key) (there : (t.set k v).get k' ≠ .nil) : k' = k ∨ t.get k' ≠ .nil := by
    rw [get_set] at there
    split at there
    next same => exact .inl same.symm
    next => exact .inr there
  by_cases absent : t.get k = .nil
  · obtain ⟨arraySize, capacity⟩ := layout_set_of_absent absent some
    obtain ⟨small, room⟩ := laid.reserve k
    refine ⟨arraySize ▸ small, fun k' there => ?_⟩
    rw [inArray_eq, arraySize, capacity, ← inArray_eq]
    exact room k' (known k' there)
  · obtain ⟨arraySize, capacity⟩ := layout_set_of_present absent v
    refine ⟨arraySize ▸ laid.small, fun k' there => ?_⟩
    rw [inArray_eq, arraySize, capacity, ← inArray_eq]
    refine laid.room k' ((known k' there).elim (fun is => is ▸ absent) id)

/-! ### The border -/

theorem has_iff {i : Nat} : t.has i = true ↔ t.getInt i ≠ .nil := contains_iff

section Border

variable {n : Nat} (items : ∀ i < 2 ^ 63, t.getInt i ≠ .nil ↔ 1 ≤ i ∧ i ≤ n)

include items

theorem has_eq {i : Nat} (small : i < 2 ^ 63) : t.has i = decide (1 ≤ i ∧ i ≤ n) := by
  rw [Bool.eq_iff_iff, has_iff, items i small, decide_eq_true_iff]

theorem bisect_eq (fuel : Nat) {i j : Nat} (low : i ≤ n) (high : n < j) (small : j < 2 ^ 63) (enough : j - i ≤ 2 ^ fuel) :
    t.bisect fuel i j = n := by
  induction fuel generalizing i j with
  | zero =>
    unfold bisect
    omega
  | succ fuel ih =>
    unfold bisect
    rw [Nat.pow_succ] at enough
    split
    next close => omega
    next =>
      dsimp only
      rw [has_eq items (by omega)]
      split
      next there =>
        have := of_decide_eq_true there
        exact ih this.2 high small (by omega)
      next missing =>
        have : ¬(i + j) / 2 ≤ n := fun le => missing (decide_eq_true ⟨by omega, le⟩)
        exact ih low (by omega) (by omega) (by omega)

theorem searchAbove_eq (bound : n < 2 ^ 62) (fuel : Nat) {i : Nat} (positive : 1 ≤ i) (low : i ≤ n) (enough : n < i * 2 ^ fuel) :
    t.searchAbove fuel i = n := by
  induction fuel generalizing i with
  | zero => omega
  | succ fuel ih =>
    unfold searchAbove
    have doubled : (if (i == 0) = true then 1 else 2 * i) = 2 * i := if_neg (by rw [beq_iff_eq]; omega)
    simp only [doubled]
    rw [has_eq items (by omega)]
    split
    next there =>
      have := of_decide_eq_true there
      refine ih (by omega) this.2 ?_
      rw [Nat.pow_succ, ← Nat.mul_assoc] at enough
      rw [Nat.mul_comm 2 i, Nat.mul_assoc, Nat.mul_comm 2, ← Nat.mul_assoc]
      exact enough
    next missing =>
      have : ¬2 * i ≤ n := fun le => missing (decide_eq_true ⟨by omega, le⟩)
      exact bisect_eq items 64 low (by omega) (by omega) (by omega)

/-- The length of a table whose keys from 1 on are those up to a number is that number. -/
theorem length_eq (laid : t.LaidOut) (bound : n < 2 ^ 62) : t.length = n := by
  have small := laid.small
  have has {i : Nat} (small : i < 2 ^ 63) : t.has i = true ↔ 1 ≤ i ∧ i ≤ n := by
    rw [has_eq items small, decide_eq_true_iff]
  unfold length
  dsimp only
  split
  next above =>
    simp only [Bool.and_eq_true, decide_eq_true_eq, Bool.not_eq_true', ← Bool.not_eq_true, has (show t.arraySize < 2 ^ 63 by omega)] at above
    split
    next last =>
      simp only [Bool.and_eq_true, decide_eq_true_eq, has (show t.arraySize - 1 < 2 ^ 63 by omega)] at last
      omega
    next => exact bisect_eq items 64 (Nat.zero_le _) (by omega) (by omega) (by omega)
  next within =>
    simp only [Bool.and_eq_true, decide_eq_true_eq, Bool.not_eq_true', ← Bool.not_eq_true, has (show t.arraySize < 2 ^ 63 by omega)] at within
    split
    next last =>
      simp only [Bool.or_eq_true, beq_iff_eq, Bool.not_eq_true', ← Bool.not_eq_true, has (show t.arraySize + 1 < 2 ^ 63 by omega)] at last
      by_contra other
      have there : t.getInt n ≠ .nil := (items n (by omega)).mpr (by omega)
      rcases laid.room _ there with item | room
      · have number : (Int64.ofNat n).toInt = n := Int64.toInt_ofNat_of_lt (by omega)
        rw [inArray_eq] at item
        unfold isItem arrayKey? at item
        simp only [number] at item
        split at item
        · simp only [Option.any_some, decide_eq_true_eq] at item
          omega
        · cases item
      · omega
    next beyond =>
      simp only [Bool.or_eq_true, beq_iff_eq, Bool.not_eq_true', ← Bool.not_eq_true, has (show t.arraySize + 1 < 2 ^ 63 by omega)] at beyond
      exact searchAbove_eq items bound 64 (by omega) (by omega) (by omega)

end Border

end LuaCapsule.Lua.Table
