import LuaCapsule.Proofs.Encoding
import LuaCapsule.Proofs.RoundTrip

/-! What scripts do and the host's own work on lists. Values go in, arguments are passed on and the
heap is listed and rebuilt by the raw contents of lists alone, and nothing that a script wrote is
called or changed, exactly when the metatable of lists is as it was at the beginning. A script can
reach that metatable through any list that it is given. -/

namespace LuaCapsule

open Lua

namespace Vm

variable {st : State} {t : Nat}

/-- Items are read from a list itself. -/
theorem itemsFrom_eq (silent : st.heap.metamethod (.table t) "__index" = .nil) (s : Site) (n : Nat) (i : Int)
    (acc : List Value) : Tables.itemsFrom s (.table t) n i acc st =
      .ok (acc.reverse ++ (List.range n).map fun j : Nat => st.heap.rawGet t (.int (Int64.ofInt (i + j)))) st := by
  induction n generalizing i acc with
  | zero =>
    rw [List.range_zero, List.map_nil, List.append_nil]
    rfl
  | succ n ih =>
    have read : Tables.item s (.table t) i st = .ok (st.heap.rawGet t (.int (Int64.ofInt i))) st := by
      change s.resolve (st.heap.index (.table t) (.int (Int64.ofInt i))) st = _
      rw [Heap.index_eq_raw silent]
      rfl
    have shift (j : Nat) : i + 1 + (j : Int) = i + (j + 1 : Nat) := by omega
    rw [Tables.itemsFrom]
    change EStateM.bind (Tables.item s (.table t) i) _ st = _
    rw [EStateM.bind, read]
    dsimp only
    rw [ih, List.reverse_cons, List.append_assoc, List.range_succ_eq_map, List.map_cons, List.map_map]
    simp only [shift]
    rw [show i + ((0 : Nat) : Int) = i from Int.add_zero i]
    rfl

theorem position_one (st : State) : position 1 st =
    match (levels st.frames)[0]? with
    | some f => .ok (f.position?.getD .empty) st
    | none => .ok .empty st := by
  change (match (levels st.frames)[0]? with | some f => return f.position?.getD .empty | none => return .empty : M Bytes) st = _
  cases (levels st.frames)[0]? <;> rfl

theorem position_eq (st : State) : ∃ b, position 1 st = .ok b st := by
  rw [position_one]
  cases (levels st.frames)[0]? <;> exact ⟨_, rfl⟩

/-- Raising an error changes nothing. -/
theorem raiseText_eq {α : Type} (message : String) (st : State) : ∃ f, (raiseText message : M α) st = .error f st := by
  obtain ⟨b, place⟩ := position_eq st
  let v : Value := .str (b ++ Bytes.ofString message)
  refine ⟨if v == memoryMessage then .memory else .raised v false, ?_⟩
  change EStateM.bind (position 1) _ st = _
  rw [EStateM.bind, place]
  rfl

/-- Spreading the items of a list gives the first ones of them, if there is room. -/
theorem spread_eq (silent : st.heap.metamethod (.table t) "__index" = .nil) {n : Nat} (fits : isInt64 n = true) :
    if (n : Int) ≤ Tables.maxResults then
      spread (.table t) n st = .ok ((List.range n).map fun j : Nat => st.heap.rawGet t (.int (Int64.ofInt (1 + j)))) st
    else ∃ f, spread (.table t) n st = .error f st := by
  have last : (Int64.ofNat n).toInt = n := by
    rw [← Int64.ofInt_eq_ofNat, Binary64.toInt_ofInt_of_isInt64 fits]
  have limit : Tables.maxResults = 999900 := rfl
  let s : Site := ⟨.table .unpack, some (.named "upvalue" (Bytes.ofString "unpack")), [.table t, .int 1, .ofNat n],
    Machine.callFunction (some (.table .unpack))⟩
  have unfolded : spread (.table t) n = (do
      if (1 : Int) > n then
        return []
      if (n : Int) - 1 ≥ Tables.maxResults then
        raiseText "too many results to unpack"
      Tables.itemsFrom s (.table t) ((n : Int) - 1 + 1).toNat 1 []) := by
    rw [← last]
    rfl
  rw [unfolded]
  split
  next few =>
    by_cases none : (1 : Int) > n
    · obtain rfl : n = 0 := by omega
      rfl
    · rw [if_neg none, if_neg (by omega), show ((n : Int) - 1 + 1).toNat = n from by omega]
      exact itemsFrom_eq silent s n 1 []
  next many =>
    rw [if_neg (by omega), if_pos (by omega)]
    obtain ⟨f, raised⟩ := raiseText_eq (α := PUnit) "too many results to unpack" st
    refine ⟨f, ?_⟩
    change EStateM.bind (raiseText "too many results to unpack" : M PUnit) _ st = _
    rw [EStateM.bind, raised]

end Vm

open Codec Snapshot

/-! ### Isolation -/

/-- The host's work on an interpreter is up to the raw contents of its heap, and calls nothing. -/
structure Isolated (vm : Vm) : Prop where
  /-- Whatever tables the host makes, operations on lists are up to the lists alone. -/
  lists : ∀ h', vm.heap.Grows [] h' → h'.RawLists
  /-- Encoding makes new tables of the items of lists and the entries of mappings, and fails
  for values that have no such form only. What was there stays as it is. -/
  encode : ∀ d, Leaves [] vm (fun v h => isEncodable d = true ∧ Encoded h vm.heap.tables.size d v) (isEncodable d = false)
    (Codec.encode d vm)
  /-- A call gets exactly the arguments that were encoded, if there is room for so many. -/
  invoke : ∀ ds v vm', Codec.encode (.list ds) vm = .ok v vm' → ∀ (name : Bytes) (st : State), st.heap = vm'.heap →
    if (ds.length : Int) ≤ Tables.maxResults then
      ∃ vs, EncodedAll st.heap vm.heap.tables.size ds vs ∧ Vm.beginGlobal name v ds.length st =
        Vm.callGlobal name vs { st with frames := .host 126 :: st.frames }
    else ∃ f, Vm.beginGlobal name v ds.length st = .error f { st with frames := .host 126 :: st.frames }
  /-- The records of a heap describe it raw, and are of all objects that can be reached. -/
  externalize : (∀ r, vm.heap.Reaches r → canList r = true) →
    ∃ l objs owner, Describes vm.heap objs owner l ∧ (∀ r, r ∈ objs ↔ vm.heap.Reaches r) ∧
      Snapshot.externalize vm = if fitsAll (l.map Record.toDatum) then .ok (.list (l.map Record.toDatum)) vm
        else .error .outOfMemory vm
  /-- If there are none, nothing changes either. -/
  refuse : ∀ r, vm.heap.Reaches r → canList r = false → ∃ e : Unlisted, Snapshot.externalize vm = .error (.snapshot e.message) vm
  /-- A heap is made of the records as it was, so that nothing in it has been called. -/
  internalize : ∀ records vm', Snapshot.externalize vm = .ok (.list records) vm' → ∀ memory, ∃ h' f,
    Snapshot.internalize rootPlace records ⟨Fixed.heap, memory⟩ = .ok ⟨h', memory⟩ ∧ vm.heap.Isomorphism h' f

variable {vm : Vm}

/-- The call of a global function gets the items of the list of its arguments, if there is room for so
many. -/
theorem beginGlobal_eq {st : State} {first t : Nat} {vs : List Value} (plain : st.heap.PlainLists)
    (stands : Stands st.heap first t (some Fixed.sequence) (itemAt vs)) (fits : isInt64 vs.length = true) (name : Bytes) :
    if (vs.length : Int) ≤ Tables.maxResults then
      Vm.beginGlobal name (.table t) vs.length st = Vm.callGlobal name vs { st with frames := .host 126 :: st.frames }
    else ∃ f, Vm.beginGlobal name (.table t) vs.length st = .error f { st with frames := .host 126 :: st.frames } := by
  let called : State := { st with frames := .host 126 :: st.frames }
  have silent : called.heap.metamethod (.table t) "__index" = .nil :=
    (Heap.IsList.metamethod_eq stands.metatable _).trans plain.index
  have spreads := Vm.spread_eq silent fits
  change if _ then EStateM.bind (Vm.spread (.table t) vs.length) (Vm.callGlobal name) called = Vm.callGlobal name vs called
    else ∃ f, EStateM.bind (Vm.spread (.table t) vs.length) (Vm.callGlobal name) called = EStateM.Result.error f called
  split at spreads
  next few =>
    have raw (i : Int64) : called.heap.rawGet t (.int i) = itemAt vs (.int i) := stands.get (.int i)
    simp only [raw, map_itemAt fits] at spreads
    rw [if_pos few, EStateM.bind, spreads]
  next many =>
    obtain ⟨f, failed⟩ := spreads
    rw [if_neg many]
    exact ⟨f, by rw [EStateM.bind, failed]⟩

theorem invoke_spec (plain : vm.heap.PlainLists) {ds : List Datum} {v : Value} {vm' : Vm}
    (done : Codec.encode (.list ds) vm = .ok v vm') (name : Bytes) {st : State} (same : st.heap = vm'.heap) :
    if (ds.length : Int) ≤ Tables.maxResults then
      ∃ vs, EncodedAll st.heap vm.heap.tables.size ds vs ∧ Vm.beginGlobal name v ds.length st =
        Vm.callGlobal name vs { st with frames := .host 126 :: st.frames }
    else ∃ f, Vm.beginGlobal name v ds.length st = .error f { st with frames := .host 126 :: st.frames } := by
  have leaves := encode_spec plain (.list ds)
  rw [done] at leaves
  obtain ⟨grows, _, check, t, vs, rfl, each, stands⟩ := leaves
  rw [← same] at grows each stands
  rw [← each.length_eq]
  have fits : isInt64 vs.length = true := each.length_eq ▸ (Bool.and_eq_true_iff.mp check).2
  have begun := beginGlobal_eq (plain.of_grows grows List.not_mem_nil) stands fits name
  split at begun
  next few =>
    rw [if_pos few]
    exact ⟨vs, each.below (Nat.le_succ_of_le stands.first), begun⟩
  next many =>
    rw [if_neg many]
    exact begun

/-- Objects that are listed can be listed. -/
theorem canList_of_records {h : Heap} {objs : List Ref} {owner : Nat → Nat × Nat} {n : Nat} {r : Ref} {rec : Record}
    (record : Records h objs owner n r rec) : canList r = true := by
  cases record with
  | table => rfl
  | function => rfl
  | native path leaf =>
    cases r with
    | table id => rfl
    | closure id => rfl
    | _ => simp [canList, path]

theorem externalize_spec (plain : vm.heap.PlainLists) (listed : ∀ r, vm.heap.Reaches r → canList r = true) :
    ∃ l objs owner, Describes vm.heap objs owner l ∧ (∀ r, r ∈ objs ↔ vm.heap.Reaches r) ∧
      Snapshot.externalize vm = if fitsAll (l.map Record.toDatum) then .ok (.list (l.map Record.toDatum)) vm
        else .error .outOfMemory vm := by
  obtain ⟨l, captured⟩ := exists_capture listed
  obtain ⟨objs, owner, d, reached⟩ := describes_capture captured
  refine ⟨l, objs, owner, d, fun r => ⟨reached r, d.mem_of_reaches⟩, ?_⟩
  rw [externalize_eq (isIdle_of_plainLists plain), captured]

theorem externalize_refuses (plain : vm.heap.PlainLists) {r : Ref} (reached : vm.heap.Reaches r)
    (unlisted : canList r = false) : ∃ e : Unlisted, Snapshot.externalize vm = .error (.snapshot e.message) vm := by
  rw [externalize_eq (isIdle_of_plainLists plain)]
  cases captured : capture vm.heap with
  | error e => exact ⟨e, rfl⟩
  | ok l =>
    obtain ⟨objs, owner, d, _⟩ := describes_capture captured
    obtain ⟨n, here⟩ := List.getElem?_of_mem (d.mem_of_reaches reached)
    obtain ⟨rec, _, record⟩ := d.record here
    exact absurd ((canList_of_records record).symm.trans unlisted) Bool.false_ne_true.symm

theorem internalize_spec (plain : vm.heap.PlainLists) {records : List Datum} {vm' : Vm}
    (done : Snapshot.externalize vm = .ok (.list records) vm') (memory : Option Int) : ∃ h' f,
    Snapshot.internalize rootPlace records ⟨Fixed.heap, memory⟩ = .ok ⟨h', memory⟩ ∧ vm.heap.Isomorphism h' f := by
  rw [externalize_eq (isIdle_of_plainLists plain)] at done
  split at done
  next e captured => cases done
  next l captured =>
    split at done
    next fits =>
      cases done
      obtain ⟨objs, owner, d, reached⟩ := describes_capture captured
      obtain ⟨h', os, owner', _, internalized, d', _⟩ :=
        internalize_listing rewrites_id d plain.index fits (by simpa using fits) memory
      rw [List.map_id] at internalized
      exact ⟨h', _, internalized, isomorphism_of_describes d.settled d' reached⟩
    next => cases done

/-- A function that changes the metatable of a list that it is given, and one that gives its
argument back. -/
def intrusion : String :=
  "function mark(t) getmetatable(t).__newindex = function() end end function first(x) return x end"

/-- After the first function has been given a list, what stands under 1 in the list that a single
value is passed in, and what the second function makes of the value. -/
def passed (d : Datum) : VmM (Value × Value) := do
  Vm.load intrusion
  let marked ← encode (.list [.list [.int 1]])
  let _ ← Vm.invoke "mark" marked 1
  match ← encode (.list [d]) with
  | .table t =>
    let item := (← Vm.getHeap).rawGet t (.int 1)
    return (item, ← Vm.invoke "first" (.table t) 1)
  | _ => throw .wrongType

end LuaCapsule
