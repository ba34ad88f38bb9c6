import LuaCapsule.Proofs.PlainLists
import LuaCapsule.Proofs.Rebuild
import LuaCapsule.Proofs.RecordForm
import LuaCapsule.Proofs.Survey

/-! An interpreter that is read back from its snapshot has the heap that was written, but for the
names of objects. The listing in a snapshot describes the heap it was taken of, and what is read
back is described by the same listing. -/

namespace LuaCapsule

/-- A fresh interpreter has the same objects in whatever memory. -/
theorem Vm.fresh_eq_ok {memory : Option Int} {vm : Vm} (done : Vm.fresh memory = .ok vm) : vm = ⟨Lua.Fixed.heap, memory⟩ := by
  cases memory with
  | none => exact (Except.ok.inj done).symm
  | some n =>
    rw [Vm.fresh] at done
    split at done
    · cases done
    · split at done
      · cases done
      · exact (Except.ok.inj done).symm

namespace Snapshot

open Lua Json

/-! ### What is written -/

theorem isIdle_of_plainLists {h : Heap} (plain : h.PlainLists) : Walk.isIdle h = true := by
  simp [Walk.isIdle, plain.newItem, plain.length]

theorem records_eq (l : Listing) :
    Envelope.records (some (.list (l.map Record.toDatum))) = .ok (l.map Record.toDatum) := by
  have mappings : (l.map Record.toDatum).countP (fun d => !Envelope.isMapping d) = 0 := by
    rw [List.countP_eq_zero]
    intro d mem
    obtain ⟨r, _, rfl⟩ := List.mem_map.mp mem
    cases r <;> exact Bool.false_ne_true
  simp [Envelope.records, mappings]

/-- The listing of a heap is its raw contents, and making it changes nothing. -/
theorem externalize_eq {vm : Vm} (idle : Walk.isIdle vm.heap = true) : externalize vm =
    match capture vm.heap with
    | .error e => .error (.snapshot e.message) vm
    | .ok l => if fitsAll (l.map Record.toDatum) then .ok (.list (l.map Record.toDatum)) vm else .error .outOfMemory vm := by
  change (if Walk.isIdle vm.heap then _ else _ : VmM Datum) vm = _
  rw [if_pos idle]
  cases capture vm.heap with
  | error e => rfl
  | ok l =>
    dsimp only
    split <;> rfl

/-- A snapshot holds the listing of the heap, which stays as it is. -/
theorem dumps_eq_ok {vm vm₁ : Vm} {blob : Bytes} (idle : Walk.isIdle vm.heap = true) :
    dumps vm = .ok blob vm₁ ↔ vm₁ = vm ∧ ∃ l, capture vm.heap = .ok l ∧ fitsAll (l.map Record.toDatum) = true ∧
      write? ⟨Vm.version, rootPlace, l.map Record.toDatum⟩ = some blob := by
  simp only [dumps, bind, EStateM.bind, externalize_eq idle]
  cases capture vm.heap with
  | error e => simp
  | ok l =>
    dsimp only
    by_cases fits : fitsAll (l.map Record.toDatum) = true
    · rw [if_pos fits]
      dsimp only
      rw [records_eq]
      dsimp only
      cases written : write? ⟨Vm.version, rootPlace, l.map Record.toDatum⟩ with
      | some b =>
        constructor
        · intro done
          cases done
          exact ⟨rfl, l, rfl, fits, written⟩
        · rintro ⟨rfl, _, ⟨⟩, _, written'⟩
          rw [Option.some.inj (written.symm.trans written')]
          rfl
      | none =>
        constructor
        · intro done
          cases done
        · rintro ⟨_, _, ⟨⟩, _, written'⟩
          cases written.symm.trans written'
    · rw [if_neg fits]
      simp [fits]

/-! ### What is read -/

variable {h : Heap} {objs : List Ref} {owner : Nat → Nat × Nat} {l : Listing}

/-- A reference that is read back stands for the same thing. -/
theorem Denotes.settled {x : Reference} {v : Value} (d : Denotes objs x v) : Denotes objs x.settled v := by
  cases d with
  | nil => exact .nil
  | bool b => exact .bool b
  | int i => exact .int i
  | text s => exact .text s
  | bytes b => exact .bytes b
  | object here => exact .object here
  | @float x y same =>
    refine .float ?_
    split
    next odd =>
      rcases same with rfl | ⟨_, odd'⟩
      · exact .inr ⟨rfl, odd⟩
      · exact .inr ⟨rfl, odd'⟩
    next => exact same

theorem DenotesMetatable.settled {m : Option Reference} {id : Option Nat} (d : DenotesMetatable objs m id) :
    DenotesMetatable objs (m.map Reference.settled) id := by
  cases d with
  | none => exact .none
  | some denotes => exact .some denotes.settled

theorem DenotesUpvalue.settled {n i cell : Nat} {u : Upvalue} (d : DenotesUpvalue h objs owner n i cell u) :
    DenotesUpvalue h objs owner n i cell u.settled where
  owned := by
    intro own
    obtain ⟨r, rfl, denotes⟩ := d.owned own
    exact ⟨r.settled, rfl, denotes.settled⟩
  joined := by
    intro other
    rw [d.joined other]
    rfl
  owns := d.owns

theorem Records.settled {n : Nat} {r : Ref} {rec : Record} (d : Records h objs owner n r rec) :
    Records h objs owner n r rec.settled := by
  cases d with
  | table named entries each metatable =>
    refine .table named entries ?_ ?_
    · exact List.forall₂_map_left_iff.mpr (each.imp fun e kv both => ⟨both.1.settled, both.2.settled⟩)
    · exact metatable.settled
  | native path leaf => exact .native path leaf
  | @function id code us dumped size each =>
    refine .function dumped (by rw [List.length_map, size]) ?_
    intro i u cell place captured
    rw [List.getElem?_map, Option.map_eq_some_iff] at place
    obtain ⟨u', place, rfl⟩ := place
    exact (each i u' cell place captured).settled

/-- A listing that is read back describes the same heap. -/
theorem Describes.settled (d : Describes h objs owner l) : Describes h objs owner (l.map Record.settled) where
  nodup := d.nodup
  root := d.root
  length := by rw [List.length_map, d.length]
  records := by
    intro n r rec here found
    rw [List.getElem?_map, Option.map_eq_some_iff] at found
    obtain ⟨rec', found, rfl⟩ := found
    exact (d.records n r rec' here found).settled

/-- The records of a listing make a heap in a fresh interpreter that they describe. -/
theorem internalize_listing {f : Datum → Datum} (rewrites : Rewrites f) (d : Describes h objs owner l)
    (quiet : (h.table Fixed.sequence).get (.text "__index") = .nil) (fits : fitsAll (l.map Record.toDatum) = true)
    (fits' : fitsAll ((l.map Record.toDatum).map f) = true) (memory : Option Int) :
    ∃ h' os owner', rebuild? Fixed.heap 1 (l.map Record.settled) = some h' ∧
      internalize rootPlace ((l.map Record.toDatum).map f) ⟨Fixed.heap, memory⟩ = .ok ⟨h', memory⟩ ∧
      Describes h' os owner' (l.map Record.settled) ∧
      ∀ t < Fixed.heap.tables.size, .table t ∉ os → ∀ k, (Fixed.heap.table t).get k = .nil →
        (h'.table t).get k = .nil := by
  obtain ⟨h', os, owner', rebuilt, d', absent⟩ := rebuild?_of_describes d.settled quiet
  refine ⟨h', os, owner', rebuilt, ?_, d', absent⟩
  have first : Snapshot.fits (.int rootPlace) = true := by decide
  rw [internalize, fits', first, ofDatum?_listing rewrites fits]
  simp only [Bool.and_self, Bool.not_true, Bool.false_eq_true, if_false, Option.bind_some]
  rw [show rootPlace.toNat = 1 from rfl, rebuilt]

/-- The records of a snapshot are read back, and make a heap that they describe, in whatever memory
there is for it. -/
theorem loads_write_within {blob : Bytes} (d : Describes h objs owner l)
    (quiet : (h.table Fixed.sequence).get (.text "__index") = .nil) (fits : fitsAll (l.map Record.toDatum) = true)
    (written : write? ⟨Vm.version, rootPlace, l.map Record.toDatum⟩ = some blob) :
    ∃ h' os owner', rebuild? Fixed.heap 1 (l.map Record.settled) = some h' ∧
      (∀ memory, loads (.bytes blob) memory = (Vm.fresh memory).map fun _ => ⟨h', memory⟩) ∧
      Describes h' os owner' (l.map Record.settled) ∧
      ∀ t < Fixed.heap.tables.size, .table t ∉ os → ∀ k, (Fixed.heap.table t).get k = .nil →
        (h'.table t).get k = .nil := by
  obtain ⟨s, written', read⟩ := readEnvelope_write fits
  obtain rfl := Option.some.inj (written.symm.trans written')
  rw [sortedAll_eq_map] at read
  have all : fitsAll ((l.map Record.toDatum).map sorted) = true := by rw [← sortedAll_eq_map, fitsAll_sorted, fits]
  have internalized := internalize_listing rewrites_sorted d quiet fits all
  obtain ⟨h', os, owner', rebuilt, _, d', absent⟩ := internalized none
  refine ⟨h', os, owner', rebuilt, fun memory => ?_, d', absent⟩
  rw [loads, bytesOf?]
  dsimp only
  rw [startsWith_mark, slice_mark, read]
  simp only [Bool.not_true, Bool.false_eq_true, if_false, bne_self_eq_false]
  cases fresh : Vm.fresh memory with
  | error f => rfl
  | ok vm =>
    obtain ⟨h₁, _, _, rebuilt₁, internalized, _⟩ := internalized memory
    obtain rfl := Option.some.inj (rebuilt.symm.trans rebuilt₁)
    obtain rfl := Vm.fresh_eq_ok fresh
    exact internalized

/-- The records of a snapshot are read back, and make a heap that they describe. -/
theorem loads_write {blob : Bytes} (d : Describes h objs owner l) (quiet : (h.table Fixed.sequence).get (.text "__index") = .nil)
    (fits : fitsAll (l.map Record.toDatum) = true)
    (written : write? ⟨Vm.version, rootPlace, l.map Record.toDatum⟩ = some blob) :
    ∃ h' os owner', rebuild? Fixed.heap 1 (l.map Record.settled) = some h' ∧
      loads (.bytes blob) none = .ok ⟨h', none⟩ ∧ Describes h' os owner' (l.map Record.settled) ∧
      ∀ t < Fixed.heap.tables.size, .table t ∉ os → ∀ k, (Fixed.heap.table t).get k = .nil →
        (h'.table t).get k = .nil := by
  obtain ⟨h', os, owner', rebuilt, loaded, d', absent⟩ := loads_write_within d quiet fits written
  exact ⟨h', os, owner', rebuilt, loaded none, d', absent⟩

/-- Is the metatable of lists plain, and can the heap be listed? -/
def isReady (h : Heap) : Bool :=
  ["__index", "__newindex", "__len"].all (fun s => (h.table Fixed.sequence).get (.text s) = .nil) &&
    match capture h with
    | .ok l => fitsAll (l.map Record.toDatum)
    | .error _ => false

theorem plainLists_of_isReady {h : Heap} (ready : isReady h = true) : h.PlainLists := by
  have plain := (Bool.and_eq_true_iff.mp ready).1
  simp only [List.all_cons, List.all_nil, Bool.and_true, Bool.and_eq_true, decide_eq_true_eq] at plain
  exact ⟨plain.1, plain.2.1, plain.2.2⟩

theorem exists_dumps {vm : Vm} (ready : isReady vm.heap = true) : ∃ blob, dumps vm = .ok blob vm := by
  have listed := (Bool.and_eq_true_iff.mp ready).2
  split at listed
  next l captured =>
    obtain ⟨s, written, _⟩ := readEnvelope_write listed
    have idle := isIdle_of_plainLists (plainLists_of_isReady ready)
    exact ⟨_, (dumps_eq_ok idle).mpr ⟨rfl, l, captured, listed, written⟩⟩
  next => cases listed

/-- An interpreter after a program that began with one library function: there is a table that is
its own key and metatable, and two functions that share the variable it is in. -/
def shared : Vm :=
  let libraries := Fixed.tableOf [("setmetatable", .native (.base .setmetatable))]
  let source := "local t = {}; t[t] = setmetatable(t, t) and 0/0; function f() return t end; function g() t = {t} end"
  match Vm.load source ⟨Fixed.heap.modifyTable Fixed.globals fun _ => libraries, none⟩ with
  | .ok _ vm => vm
  | .error _ vm => vm

set_option maxRecDepth 100000 in
theorem isReady_shared : isReady shared.heap = true := by decide +kernel

end Snapshot

end LuaCapsule
