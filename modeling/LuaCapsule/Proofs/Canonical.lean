import LuaCapsule.Proofs.LockStep
import LuaCapsule.Proofs.RoundTrip

/-! Snapshots depend on what can be reached and on nothing else: interpreters whose heaps differ in
the names of objects have the same snapshot, and so have an interpreter and the one that is read
back from its snapshot. -/

namespace LuaCapsule

namespace Snapshot

open Lua

variable {h h' : Heap} {f : Ref → Ref}

/-! ### What a renaming keeps -/

theorem get_text_of_renamed {t t' : Table} {s : String} (renamed : Table.Renamed f t t')
    (absent : t.get (.text s) = .nil) : t'.get (.text s) = .nil := by
  by_contra present
  obtain ⟨k, same, there⟩ := renamed.keys _ present
  cases k with
  | str b =>
    obtain rfl := Key.str.inj same
    exact there absent
  | _ => cases same

/-- The metatable of lists of a described heap is as plain as that of another one. -/
theorem plainLists_of_describes {objs os : List Ref} {owner owner' : Nat → Nat × Nat} {l : Listing}
    (d : Describes h objs owner l) (d' : Describes h' os owner' l) (plain : h.PlainLists)
    (absent : .table Fixed.sequence ∉ os → ∀ k, (Fixed.heap.table Fixed.sequence).get k = .nil →
      (h'.table Fixed.sequence).get k = .nil) : h'.PlainLists := by
  have quiet (s : String) (here : (h.table Fixed.sequence).get (.text s) = .nil)
      (fresh : (Fixed.heap.table Fixed.sequence).get (.text s) = .nil) :
      (h'.table Fixed.sequence).get (.text s) = .nil := by
    by_cases mem : .table Fixed.sequence ∈ os
    · obtain ⟨n, there⟩ := List.getElem?_of_mem mem
      obtain ⟨rec, listed, record'⟩ := d'.record there
      have bound : n < objs.length := by
        rw [← d.length]
        exact (List.getElem?_eq_some_iff.mp listed).1
      have place := List.getElem?_eq_getElem bound
      have path := (sort_beside d d' place there).2
      have known : Fixed.pathOf? (.table Fixed.sequence) = some "@sequence" := rfl
      have same := Value.ref.inj (Fixed.path_inj known (path.symm.trans known))
      rw [← same] at place
      exact get_text_of_renamed (table_beside d.nodup (d.records n _ _ place listed) record') here
    · exact absent mem _ fresh
  refine ⟨quiet _ plain.index ?_, quiet _ plain.newItem ?_, quiet _ plain.length ?_⟩ <;> decide

/-! ### Snapshots -/

/-- A snapshot of one of two heaps that differ in the names of objects is one of the other. -/
theorem dumps_of_isomorphism (vm vm' : Vm) {blob : Bytes} (iso : vm.heap.Isomorphism vm'.heap f)
    (single : vm.heap.SingleObjectKeys) (idle : Walk.isIdle vm.heap = true) (idle' : Walk.isIdle vm'.heap = true) :
    (∃ vm₁, dumps vm = .ok blob vm₁) ↔ ∃ vm₁, dumps vm' = .ok blob vm₁ := by
  have same := capture_renamed iso single
  have captured {g g' : Heap} (same : (capture g).map (List.map Record.toDatum) = (capture g').map (List.map Record.toDatum))
      {l : Listing} (done : capture g = .ok l) :
      ∃ l', capture g' = .ok l' ∧ l'.map Record.toDatum = l.map Record.toDatum := by
    rw [done] at same
    cases done' : capture g' with
    | error e =>
      rw [done'] at same
      cases same
    | ok l' =>
      rw [done'] at same
      exact ⟨l', rfl, (Except.ok.inj same).symm⟩
  constructor
  · rintro ⟨vm₁, done⟩
    obtain ⟨rfl, l, listed, fits, written⟩ := (dumps_eq_ok idle).mp done
    obtain ⟨l', listed', alike⟩ := captured same listed
    exact ⟨vm', (dumps_eq_ok idle').mpr ⟨rfl, l', listed', alike ▸ fits, alike ▸ written⟩⟩
  · rintro ⟨vm₁, done⟩
    obtain ⟨rfl, l, listed, fits, written⟩ := (dumps_eq_ok idle').mp done
    obtain ⟨l', listed', alike⟩ := captured same.symm listed
    exact ⟨vm, (dumps_eq_ok idle).mpr ⟨rfl, l', listed', alike ▸ fits, alike ▸ written⟩⟩

/-- Interpreters whose heaps differ in the names of objects have the same snapshot, which is also
that of the interpreter that is read back from it. -/
theorem dumps_canonical {vm vm' : Vm} {f : Ref → Ref} (iso : vm.heap.Isomorphism vm'.heap f)
    (single : vm.heap.SingleObjectKeys) (plain : vm.heap.PlainLists) (plain' : vm'.heap.PlainLists) :
    (∀ blob, (∃ vm₁, dumps vm = .ok blob vm₁) ↔ ∃ vm₁, dumps vm' = .ok blob vm₁) ∧
      ∀ blob vm₁, dumps vm = .ok blob vm₁ →
        ∃ vm₂ vm₃, loads (.bytes blob) none = .ok vm₂ ∧ dumps vm₂ = .ok blob vm₃ := by
  refine ⟨fun blob => dumps_of_isomorphism vm vm' iso single (isIdle_of_plainLists plain) (isIdle_of_plainLists plain'), ?_⟩
  intro blob vm₁ done
  obtain ⟨_, l, captured, fits, written⟩ := (dumps_eq_ok (isIdle_of_plainLists plain)).mp done
  obtain ⟨objs, owner, d, reached⟩ := describes_capture captured
  obtain ⟨h', os, owner', _, loaded, d', absent⟩ := loads_write d plain.index fits written
  have restored := isomorphism_of_describes d.settled d' reached
  have plain₂ := plainLists_of_describes d.settled d' plain (absent _ (by decide))
  obtain ⟨vm₃, again⟩ := (dumps_of_isomorphism vm ⟨h', none⟩ restored single (isIdle_of_plainLists plain)
    (isIdle_of_plainLists plain₂)).mp ⟨vm₁, done⟩
  exact ⟨_, vm₃, loaded, again⟩

/-! ### Garbage -/

/-- Are all tables that are mentioned anywhere there, and has none of them two keys that are objects? -/
def isTidy (h : Heap) : Bool :=
  (mentioned h).all (fun r => match r with | .table t => t < h.tables.size | _ => true) &&
    h.tables.all fun t => (t.toList.filterMap fun e => e.1.value.ref?).length ≤ 1

theorem table_lt_of_isTidy (tidy : isTidy h = true) {t : Nat} (reached : h.Reaches (.table t)) : t < h.tables.size := by
  have all := List.all_eq_true.mp (Bool.and_eq_true_iff.mp tidy).1 _ (mentioned_of_reaches reached)
  simpa using all

theorem singleObjectKeys_of_isTidy (tidy : isTidy h = true) : h.SingleObjectKeys := by
  intro t r s reached first second
  have inside := table_lt_of_isTidy tidy reached
  have few : ((h.table t).toList.filterMap fun e => e.1.value.ref?).length ≤ 1 := by
    have all := Array.all_eq_true.mp (Bool.and_eq_true_iff.mp tidy).2 t inside
    simpa [Heap.table, inside] using all
  have mem {r : Ref} (present : (h.table t).get (.ref r) ≠ .nil) :
      r ∈ (h.table t).toList.filterMap fun e => e.1.value.ref? :=
    List.mem_filterMap.mpr ⟨_, Table.mem_toList.mpr ⟨rfl, present⟩, rfl⟩
  have left := mem first
  have right := mem second
  generalize (h.table t).toList.filterMap (fun e => e.1.value.ref?) = keys at few left right
  cases keys with
  | nil => cases left
  | cons k keys =>
    cases keys with
    | nil => exact (List.mem_singleton.mp left).trans (List.mem_singleton.mp right).symm
    | cons _ _ => simp at few

theorem renamed_id (v : Value) : Value.Renamed id v v := by
  cases v with
  | nil => exact .nil
  | bool b => exact .bool b
  | int i => exact .int i
  | float x => exact .float (.inl rfl)
  | str b => exact .str b
  | ref r => exact .ref r

theorem rename_id (k : Key) : k.rename id = k := by
  cases k <;> rfl

theorem holds_congr {g g' : Heap} {r : Ref} {v : Value} (table : ∀ id, r = .table id → g'.table id = g.table id)
    (closure : ∀ c, g'.closure c = g.closure c) (cell : ∀ x, g'.cell x = g.cell x) (holds : g.Holds r v) :
    g'.Holds r v := by
  cases holds with
  | @key t k present =>
    rw [← table t rfl] at present
    exact .key present
  | @value t k =>
    rw [← table t rfl]
    exact .value k
  | @metatable t m named =>
    rw [← table t rfl] at named
    exact .metatable named
  | @captured c i x here =>
    rw [← closure c] at here
    rw [← cell x]
    exact .captured here

/-- A table that nothing mentions makes no difference. -/
theorem isomorphism_newTable (tidy : isTidy h = true) (t : Table) : h.Isomorphism (h.newTable t).2 id := by
  have same {id : Nat} (reached : h.Reaches (.table id)) : (h.newTable t).2.table id = h.table id := by
    rw [Heap.table_newTable, if_neg (Nat.ne_of_lt (table_lt_of_isTidy tidy reached))]
  have held {r : Ref} {v : Value} (reached : h.Reaches r) : (h.newTable t).2.Holds r v ↔ h.Holds r v := by
    have table (id : Nat) (is : r = .table id) := same (is ▸ reached)
    exact ⟨holds_congr (fun id is => (table id is).symm) (fun _ => rfl) fun _ => rfl,
      holds_congr table (fun _ => rfl) fun _ => rfl⟩
  have reaches : {r | (h.newTable t).2.Reaches r} = {r | h.Reaches r} := by
    ext r
    constructor
    · intro reached
      induction reached with
      | root => exact .root
      | step _ holds ih => exact Heap.Reaches.step ih ((held ih).mp holds)
    · intro reached
      induction reached with
      | root => exact .root
      | step here holds ih => exact Heap.Reaches.step ih ((held here).mpr holds)
  refine ⟨?_, rfl, fun _ _ => rfl, fun _ _ => rfl, ?_, ?_, ?_, ?_⟩
  · rw [reaches]
    exact Set.bijOn_id _
  · rintro id _ reached ⟨⟩
    rw [same reached]
    refine ⟨fun k _ => ?_, fun k present => ⟨k, rename_id k, present⟩, rfl⟩
    rw [rename_id]
    exact renamed_id _
  · rintro c _ _ ⟨⟩
    rfl
  · rintro c _ _ ⟨⟩ i x x' captured captured'
    obtain rfl := Option.some.inj (captured.symm.trans captured')
    exact renamed_id _
  · rintro c d _ _ _ _ ⟨⟩ ⟨⟩ i j x y x' y' left right left' right'
    obtain rfl := Option.some.inj (left.symm.trans left')
    obtain rfl := Option.some.inj (right.symm.trans right')
    rfl

set_option maxRecDepth 100000 in
theorem isTidy_shared : isTidy shared.heap = true ∧ shared.heap.tables.size ≠ Fixed.sequence := by decide +kernel

theorem dumps_canonical_shared : ∃ blob vm₁ vm₂ vm₃, dumps shared = .ok blob shared ∧
    dumps ⟨(shared.heap.newTable {}).2, none⟩ = .ok blob vm₁ ∧ loads (.bytes blob) none = .ok vm₂ ∧
    dumps vm₂ = .ok blob vm₃ := by
  have plain := plainLists_of_isReady isReady_shared
  have plain' : (shared.heap.newTable {}).2.PlainLists := by
    have same : (shared.heap.newTable {}).2.table Fixed.sequence = shared.heap.table Fixed.sequence := by
      rw [Heap.table_newTable, if_neg isTidy_shared.2.symm]
    exact ⟨same ▸ plain.index, same ▸ plain.newItem, same ▸ plain.length⟩
  obtain ⟨blob, done⟩ := exists_dumps isReady_shared
  have iso := isomorphism_newTable isTidy_shared.1 {}
  have single := singleObjectKeys_of_isTidy isTidy_shared.1
  obtain ⟨both, again⟩ := @dumps_canonical shared ⟨(shared.heap.newTable {}).2, none⟩ id iso single plain plain'
  obtain ⟨vm₁, done'⟩ := (both blob).mp ⟨_, done⟩
  obtain ⟨vm₂, vm₃, loaded, done₂⟩ := again blob _ done
  exact ⟨blob, vm₁, vm₂, vm₃, done, done', loaded, done₂⟩

end Snapshot

end LuaCapsule
