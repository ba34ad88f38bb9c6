import LuaCapsule.Proofs.Isolation

/-! Which heaps cannot be listed. An object is refused at one of two moments: a coroutine or a foreign
handle as soon as something refers to it, a foreign native function when its own record is made. As
every object that can be reached is referred to and gets a record, a listing fails exactly when one of
them is refused, and it fails with what is wrong with one of them. -/

namespace LuaCapsule.Snapshot

open Lua

/-- Objects that no snapshot can hold, and why: coroutines, handles and native functions that are no
library values. What identifies a captured variable is such a handle. -/
inductive Unsupported : Ref → Unlisted → Prop
  | coroutine (id : Nat) : Unsupported (.thread id) .thread
  | handle {id : Nat} (foreign : Fixed.pathOf? (.handle id) = none) : Unsupported (.handle id) .handle
  | cell (id : Nat) : Unsupported (.cell id) .handle
  | native {f : Native} (foreign : Fixed.pathOf? (.native f) = none) : Unsupported (.native f) .native

theorem canList_eq_false {r : Ref} : canList r = false ↔ ∃ e, Unsupported r e := by
  constructor
  · intro refused
    cases r with
    | table id => cases refused
    | closure id => cases refused
    | thread id => exact ⟨_, .coroutine id⟩
    | cell id => exact ⟨_, .cell id⟩
    | handle id => exact ⟨_, .handle (Option.isSome_eq_false_iff.mp refused |> Option.isNone_iff_eq_none.mp)⟩
    | native f => exact ⟨_, .native (Option.isSome_eq_false_iff.mp refused |> Option.isNone_iff_eq_none.mp)⟩
  · rintro ⟨e, unsupported⟩
    cases unsupported with
    | coroutine id => rfl
    | cell id => rfl
    | handle foreign => exact congrArg Option.isSome foreign
    | native foreign => exact congrArg Option.isSome foreign

/-- What cannot be referred to is unsupported. -/
theorem Unsupported.of_unlisted? {r : Ref} {e : Unlisted} (refused : unlisted? r = some e) : Unsupported r e := by
  cases r with
  | thread id =>
    cases refused
    exact .coroutine id
  | cell id =>
    cases refused
    exact .cell id
  | handle id =>
    rw [unlisted?] at refused
    split at refused
    next foreign =>
      cases refused
      exact .handle (Option.isNone_iff_eq_none.mp foreign)
    next => cases refused
  | _ => cases refused

/-! ### Steps that go on -/

/-- A survey of objects that can be referred to. -/
def Survey.Referable (s : Survey) : Prop := ∀ r ∈ s.objects.toList, unlisted? r = none

/-- A step after which the survey still has no other objects. -/
def SurveyM.Keeps {α : Type} (act : SurveyM α) : Prop :=
  ∀ s a s', s.Referable → act s = .ok (a, s') → s'.Referable

namespace SurveyM.Keeps

variable {α β : Type}

theorem pure (a : α) : Keeps (Pure.pure a) := by
  rintro s _ _ fine ⟨⟩
  exact fine

theorem throw (e : Unlisted) : Keeps (MonadExcept.throw e : SurveyM α) := nofun

theorem bind {act : SurveyM α} {next : α → SurveyM β} (first : Keeps act) (others : ∀ a, Keeps (next a)) :
    Keeps (act >>= next) := by
  intro s b s' fine done
  obtain ⟨a, s₁, done₁, done₂⟩ := SurveyM.bind_eq_ok done
  exact others a s₁ b s' (first s a s₁ fine done₁) done₂

theorem mapM {f : α → SurveyM β} (each : ∀ a, Keeps (f a)) (as : List α) : Keeps (as.mapM f) := by
  induction as with
  | nil => exact pure []
  | cons a as ih =>
    rw [List.mapM_cons]
    exact (each a).bind fun _ => ih.bind fun _ => pure _

end SurveyM.Keeps

open SurveyM

theorem keeps_refer (v : Value) : Keeps (refer v) := by
  cases v with
  | ref r =>
    rw [refer]
    split
    next => exact .throw _
    next referable =>
      refine .bind ?_ fun _ => .pure _
      intro s n s' fine placed
      unfold place at placed
      obtain ⟨s₁, _, got, placed⟩ := SurveyM.bind_eq_ok placed
      cases got
      cases found : s.places.get? r with
      | some n' =>
        simp only [found] at placed
        cases placed
        exact fine
      | none =>
        simp only [found] at placed
        cases placed
        intro r' mem
        rcases Array.mem_push.mp (Array.mem_toList_iff.mp mem) with mem | rfl
        · exact fine r' (Array.mem_toList_iff.mpr mem)
        · exact referable
  | _ => exact .pure _

theorem keeps_referUpvalues (h : Heap) (o i : Nat) (cells : List Nat) : Keeps (referUpvalues h o i cells) := by
  induction cells generalizing i with
  | nil => exact .pure _
  | cons c cells ih =>
    refine .bind ?_ fun _ => (ih (i + 1)).bind fun _ => .pure _
    intro s u s' fine done
    obtain ⟨s₁, _, got, done⟩ := SurveyM.bind_eq_ok done
    cases got
    cases known : s.owners.get? c with
    | some p =>
      simp only [known] at done
      cases done
      exact fine
    | none =>
      simp only [known] at done
      obtain ⟨_, s₂, own, done⟩ := SurveyM.bind_eq_ok done
      cases own
      have fine : (s.own c (o, i)).Referable := fine
      obtain ⟨x, s₁, listed, done⟩ := SurveyM.bind_eq_ok done
      cases done
      exact keeps_refer _ _ _ _ fine listed

theorem keeps_record (h : Heap) (n : Nat) (r : Ref) : Keeps (record h n r) := by
  have leaf (other : 2 ≤ r.sort) : Keeps (record h n r) := by
    rw [record_eq_of_leaf other]
    split
    · exact .pure _
    · exact .throw _
  cases r with
  | table id =>
    refine .bind (.mapM (fun kv => (keeps_refer _).bind fun _ => (keeps_refer _).bind fun _ => .pure _) _) fun _ => ?_
    refine .bind ?_ fun _ => .pure _
    cases (h.table id).metatable with
    | none => exact .pure _
    | some m => exact (keeps_refer _).bind fun _ => .pure _
  | closure id => exact (keeps_referUpvalues h n 1 _).bind fun _ => .pure _
  | _ => exact leaf (by simp [Ref.sort, Ref.rank])

/-! ### Steps that fail -/

section Steps

variable {α β : Type} {s s' : Survey} {h : Heap} {e : Unlisted}

/-- A survey fails at its first step, or later on. -/
theorem SurveyM.bind_eq_error {act : SurveyM α} {next : α → SurveyM β} (failed : (act >>= next) s = .error e) :
    act s = .error e ∨ ∃ a s₁, act s = .ok (a, s₁) ∧ next a s₁ = .error e := by
  change (act s >>= fun r => next r.1 r.2) = _ at failed
  cases first : act s with
  | error e' =>
    rw [first] at failed
    cases failed
    exact .inl rfl
  | ok r =>
    rw [first] at failed
    exact .inr ⟨r.1, r.2, rfl, failed⟩

theorem place_ne_error (r : Ref) : place r s ≠ .error e := by
  obtain ⟨p, placed⟩ := place_total r s
  rw [placed]
  exact nofun

/-- A value is refused for its object. -/
theorem refer_error {v : Value} (failed : refer v s = .error e) : ∃ r, v = .ref r ∧ Unsupported r e := by
  cases v with
  | ref r =>
    rw [refer] at failed
    cases kind : unlisted? r with
    | some e' =>
      rw [kind] at failed
      cases failed
      exact ⟨r, rfl, .of_unlisted? kind⟩
    | none =>
      rw [kind] at failed
      rcases SurveyM.bind_eq_error failed with placed | ⟨_, _, _, returned⟩
      · exact absurd placed (place_ne_error r)
      · cases returned
  | _ => cases failed

/-- An entry is refused for its key or for its value. -/
theorem referEntries_error {kvs : List (Key × Value)} (failed : kvs.mapM referEntry s = .error e) :
    ∃ kv ∈ kvs, ∃ r, (kv.1.value = .ref r ∨ kv.2 = .ref r) ∧ Unsupported r e := by
  induction kvs generalizing s with
  | nil => cases failed
  | cons kv kvs ih =>
    rw [List.mapM_cons] at failed
    rcases SurveyM.bind_eq_error failed with here | ⟨_, s₁, _, failed⟩
    · refine ⟨kv, List.mem_cons_self .., ?_⟩
      rcases SurveyM.bind_eq_error here with key | ⟨_, _, _, here⟩
      · obtain ⟨r, is, unsupported⟩ := refer_error key
        exact ⟨r, .inl is, unsupported⟩
      · rcases SurveyM.bind_eq_error here with value | ⟨_, _, _, returned⟩
        · obtain ⟨r, is, unsupported⟩ := refer_error value
          exact ⟨r, .inr is, unsupported⟩
        · cases returned
    · rcases SurveyM.bind_eq_error failed with others | ⟨_, _, _, returned⟩
      · obtain ⟨kv', mem, found⟩ := ih others
        exact ⟨kv', List.mem_cons_of_mem _ mem, found⟩
      · cases returned

theorem referMetatable_ne_error (m : Option Nat) : m.mapM (fun m => refer (.table m)) s ≠ .error e := by
  intro failed
  cases m with
  | none => cases failed
  | some id =>
    change (refer (.table id) >>= fun y => pure (some y)) s = _ at failed
    rcases SurveyM.bind_eq_error failed with refused | ⟨_, _, _, returned⟩
    · obtain ⟨r, is, unsupported⟩ := refer_error refused
      cases is
      cases unsupported
    · cases returned

/-- A captured variable is refused for its value. -/
theorem referUpvalues_error {o i : Nat} {cells : List Nat} (failed : referUpvalues h o i cells s = .error e) :
    ∃ c ∈ cells, ∃ r, h.cell c = .ref r ∧ Unsupported r e := by
  induction cells generalizing s i with
  | nil => cases failed
  | cons c cells ih =>
    rw [referUpvalues] at failed
    rcases SurveyM.bind_eq_error failed with here | ⟨_, s₁, _, failed⟩
    · refine ⟨c, List.mem_cons_self .., ?_⟩
      unfold referUpvalue at here
      rcases SurveyM.bind_eq_error here with got | ⟨_, _, got, here⟩
      · cases got
      · cases got
        cases known : s.owners.get? c with
        | some p =>
          simp only [known] at here
          cases here
        | none =>
          simp only [known] at here
          rcases SurveyM.bind_eq_error here with modified | ⟨_, _, _, here⟩
          · cases modified
          · rcases SurveyM.bind_eq_error here with refused | ⟨_, _, _, returned⟩
            · exact refer_error refused
            · cases returned
    · rcases SurveyM.bind_eq_error failed with others | ⟨_, _, _, returned⟩
      · obtain ⟨c', mem, found⟩ := ih others
        exact ⟨c', List.mem_cons_of_mem _ mem, found⟩
      · cases returned

end Steps

/-! ### Listings that fail -/

section Listings

variable {h : Heap} {s : Survey} {e : Unlisted}

/-- The record of an object fails for what the object is or holds. -/
theorem record_error {n : Nat} {r : Ref} (reached : h.Reaches r) (referable : unlisted? r = none)
    (failed : record h n r s = .error e) : ∃ r', h.Reaches r' ∧ Unsupported r' e := by
  cases r with
  | table id =>
    rcases SurveyM.bind_eq_error failed with entries | ⟨_, _, _, failed⟩
    · obtain ⟨kv, mem, r, is, unsupported⟩ := referEntries_error entries
      obtain ⟨key, value⟩ := reaches_entry reached mem
      rcases is with is | is
      · exact ⟨r, key r is, unsupported⟩
      · exact ⟨r, value r is, unsupported⟩
    · rcases SurveyM.bind_eq_error failed with metatable | ⟨_, _, _, returned⟩
      · exact absurd metatable (referMetatable_ne_error _)
      · cases returned
  | closure id =>
    rcases SurveyM.bind_eq_error failed with upvalues | ⟨_, _, _, returned⟩
    · obtain ⟨c, mem, r, is, unsupported⟩ := referUpvalues_error upvalues
      obtain ⟨i, here⟩ := List.getElem?_of_mem mem
      have held := Heap.Holds.captured (h := h) (Array.getElem?_toList ▸ here)
      exact ⟨r, .step reached (is ▸ held), unsupported⟩
    · cases returned
  | native f =>
    rw [record_eq_of_leaf (by simp [Ref.sort, Ref.rank])] at failed
    split at failed
    next => cases failed
    next foreign =>
      cases failed
      exact ⟨_, reached, .native foreign⟩
  | handle id =>
    rw [record_eq_of_leaf (by simp [Ref.sort, Ref.rank])] at failed
    split at failed
    next => cases failed
    next foreign =>
      have refused : unlisted? (.handle id) = some .handle := if_pos (Option.isNone_iff_eq_none.mpr foreign)
      cases refused.symm.trans referable
  | cell id => cases referable
  | thread id => cases referable

/-- The records of the objects from a place on fail for one that can be reached. -/
theorem recordsFrom_error {fuel o : Nat} (valid : s.Valid h) (before : s.Before (o + 1) 1) (referable : s.Referable)
    (failed : recordsFrom h fuel (o + 1) s = .error e) : ∃ r, h.Reaches r ∧ Unsupported r e := by
  induction fuel generalizing s o with
  | zero => cases failed
  | succ fuel ih =>
    rw [recordsFrom] at failed
    rcases SurveyM.bind_eq_error failed with got | ⟨_, _, got, failed⟩
    · cases got
    cases got
    rw [Nat.add_sub_cancel] at failed
    cases here : s.objects[o]? with
    | none =>
      simp only [here] at failed
      cases failed
    | some r =>
      simp only [here] at failed
      rw [← Array.getElem?_toList] at here
      have mem := List.mem_of_getElem? here
      rcases SurveyM.bind_eq_error failed with first | ⟨rec, s₁, first, failed⟩
      · exact record_error (valid.reached r mem) (referable r mem) first
      · obtain ⟨valid₁, _, before₁, _⟩ := record_spec valid here before first
        rcases SurveyM.bind_eq_error failed with others | ⟨_, _, _, returned⟩
        · exact ih valid₁ before₁ (keeps_record h _ r _ _ _ referable first) others
        · cases returned

/-- A listing fails for an object that can be reached. -/
theorem capture_error (failed : capture h = .error e) : ∃ r, h.Reaches r ∧ Unsupported r e := by
  unfold capture at failed
  change Prod.fst <$> _ = _ at failed
  cases walked : (do
      let _ ← refer (.table Fixed.globals)
      recordsFrom h (mentioned h).length 1 : SurveyM Listing) {} with
  | ok r =>
    rw [walked] at failed
    cases failed
  | error e' =>
    rw [walked] at failed
    cases failed
    rcases SurveyM.bind_eq_error walked with root | ⟨x, s₁, first, others⟩
    · obtain ⟨r, is, unsupported⟩ := refer_error root
      cases is
      cases unsupported
    · obtain ⟨valid, _, owners, _⟩ := refer_spec (Survey.valid_empty h) (fun r is => Value.ref.inj is ▸ .root) first
      have start : ({} : Survey).Before 1 1 := fun c p here => by simp at here
      have referable := keeps_refer _ _ _ _ (fun r mem => by simp at mem) first
      exact recordsFrom_error (o := 0) valid (start.of_owners owners) referable others

end Listings

/-! ### Numbers that fit -/

/-- A heap in which all places of objects and all positions of captured variables are 64-bit integers. -/
structure Small (h : Heap) : Prop where
  objects : isInt64 (mentioned h).length = true
  captured : ∀ c, isInt64 (h.closure c).upvalues.size = true

section Fits

variable {h : Heap} {objs : List Ref} {owner : Nat → Nat × Nat}

theorem fitsAll_map {α : Type} {f : α → Datum} {as : List α} (each : ∀ a ∈ as, fits (f a) = true) :
    fitsAll (as.map f) = true := by
  induction as with
  | nil => rfl
  | cons a as ih =>
    rw [List.map_cons, fitsAll, each a (List.mem_cons_self ..), ih fun a mem => each a (List.mem_cons_of_mem _ mem)]
    rfl

theorem fits_reference {x : Reference} {v : Value} (d : Denotes objs x v) (few : isInt64 objs.length = true) :
    fits x.toDatum = true := by
  cases d with
  | int i => simpa [Reference.toDatum, tagged, fits, fitsEntries] using Binary64.isInt64_toInt i
  | object here =>
    have place := Codec.isInt64_of_le (List.getElem?_eq_some_iff.mp here).1 few
    simpa [Reference.toDatum, tagged, fits, fitsEntries] using place
  | _ => simp [Reference.toDatum, tagged, fits, fitsEntries]

theorem fits_entry {e : Reference × Reference} {kv : Key × Value} (d : DenotesEntry objs e kv)
    (few : isInt64 objs.length = true) : fits (entryDatum e) = true := by
  simp [entryDatum, fits, fitsAll, fits_reference d.1 few, fits_reference d.2 few]

theorem fits_upvalue {n i cell : Nat} {u : Upvalue} (d : DenotesUpvalue h objs owner n i cell u)
    (few : isInt64 objs.length = true) (narrow : ∀ c, isInt64 (h.closure c).upvalues.size = true) :
    fits u.toDatum = true := by
  by_cases own : owner cell = (n, i)
  · obtain ⟨r, rfl, denotes⟩ := d.owned own
    simp [Upvalue.toDatum, fits, fitsEntries, fits_reference denotes few]
  · obtain ⟨o, j, c, is, here, captured⟩ := d.owns
    have place := Codec.isInt64_of_le (List.getElem?_eq_some_iff.mp here).1 few
    have position := Codec.isInt64_of_le (Array.getElem?_eq_some_iff.mp captured).1 (narrow c)
    rw [d.joined own, is]
    simpa [Upvalue.toDatum, fits, fitsEntries, fitsAll] using ⟨place, position⟩

theorem fits_record {n : Nat} {r : Ref} {rec : Record} (d : Records h objs owner n r rec)
    (few : isInt64 objs.length = true) (narrow : ∀ c, isInt64 (h.closure c).upvalues.size = true) :
    fits rec.toDatum = true := by
  cases d with
  | @table id path es m kvs named entries each metatable =>
    have listed : fitsAll (es.map entryDatum) = true := by
      refine fitsAll_map fun e mem => ?_
      obtain ⟨i, place, rfl⟩ := List.getElem_of_mem mem
      obtain ⟨size, denotes⟩ := List.forall₂_iff_get.mp each
      exact fits_entry (denotes i place (size ▸ place)) few
    generalize (h.table id).metatable = m' at metatable
    cases metatable with
    | none => cases path <;> simp [Record.toDatum, fits, fitsEntries, listed]
    | some denotes => cases path <;> simp [Record.toDatum, fits, fitsEntries, listed, fits_reference denotes few]
  | native path leaf => simp [Record.toDatum, fits, fitsEntries]
  | @function id code us dumped size each =>
    have listed : fitsAll (us.map Upvalue.toDatum) = true := by
      refine fitsAll_map fun u mem => ?_
      obtain ⟨i, place⟩ := List.getElem?_of_mem mem
      have bound := (List.getElem?_eq_some_iff.mp place).1
      exact fits_upvalue (each i u _ place (Array.getElem?_eq_getElem (size ▸ bound))) few narrow
    simp [Record.toDatum, fits, fitsEntries, listed]

/-- All numbers in the listing of a small heap fit in 64 bits. -/
theorem fitsAll_of_small (small : Small h) {l : Listing} (d : Describes h objs owner l)
    (reached : ∀ r ∈ objs, h.Reaches r) : fitsAll (l.map Record.toDatum) = true := by
  have few : isInt64 objs.length = true :=
    Codec.isInt64_of_le (List.subperm_of_subset d.nodup fun r mem => mentioned_of_reaches (reached r mem)).length_le
      small.objects
  refine fitsAll_map fun rec mem => ?_
  obtain ⟨n, found⟩ := List.getElem?_of_mem mem
  have bound := (List.getElem?_eq_some_iff.mp found).1
  exact fits_record (d.records n _ rec (List.getElem?_eq_getElem (d.length ▸ bound)) found) few small.captured

end Fits

/-! ### Refusals -/

/-- What listing the heap of an interpreter comes to. The interpreter stays as it is; the listing is of the
objects that can be reached, and an error says what is wrong with one of them. All that can go wrong
besides is that there are too many of them for 64 bits. -/
def Answers (vm : Vm) : EStateM.Result Fault Vm Datum → Prop
  | .ok records vm' => vm' = vm ∧ ∃ l objs owner, records = .list (l.map Record.toDatum) ∧
      Describes vm.heap objs owner l ∧ ∀ r, r ∈ objs ↔ vm.heap.Reaches r
  | .error f vm' => vm' = vm ∧
      ((∃ r e, vm.heap.Reaches r ∧ Unsupported r e ∧ f = .snapshot e.message) ∨
        f = .outOfMemory ∧ ¬Small vm.heap ∧ ∀ r, vm.heap.Reaches r → canList r = true)

theorem answers_externalize {vm : Vm} (plain : vm.heap.PlainLists) : Answers vm (externalize vm) := by
  rw [externalize_eq (isIdle_of_plainLists plain)]
  cases captured : capture vm.heap with
  | error e =>
    obtain ⟨r, reached, unsupported⟩ := capture_error captured
    exact ⟨rfl, .inl ⟨r, e, reached, unsupported, rfl⟩⟩
  | ok l =>
    obtain ⟨objs, owner, d, reached⟩ := describes_capture captured
    dsimp only
    by_cases few : fitsAll (l.map Record.toDatum) = true
    · rw [if_pos few]
      exact ⟨rfl, l, objs, owner, rfl, d, fun r => ⟨reached r, d.mem_of_reaches⟩⟩
    · rw [if_neg few]
      refine ⟨rfl, .inr ⟨rfl, fun small => few (fitsAll_of_small small d reached), fun r here => ?_⟩⟩
      obtain ⟨n, place⟩ := List.getElem?_of_mem (d.mem_of_reaches here)
      obtain ⟨rec, _, record⟩ := d.record place
      exact canList_of_records record

/-- As long as lists answer for themselves, an interpreter's heap cannot be listed exactly when an object
that cannot be listed can be reached. -/
theorem externalize_refuses_iff {vm : Vm} (plain : vm.heap.PlainLists) :
    ((∃ detail vm', externalize vm = .error (.snapshot detail) vm') ↔ ∃ r e, vm.heap.Reaches r ∧ Unsupported r e) ∧
      Answers vm (externalize vm) := by
  have answers := answers_externalize plain
  refine ⟨⟨?_, ?_⟩, answers⟩
  · rintro ⟨detail, vm', failed⟩
    rw [failed] at answers
    obtain ⟨_, ⟨r, e, reached, unsupported, _⟩ | ⟨is, _⟩⟩ := answers
    · exact ⟨r, e, reached, unsupported⟩
    · cases is
  · rintro ⟨r, e, reached, unsupported⟩
    obtain ⟨e', failed⟩ := externalize_refuses plain reached (canList_eq_false.mpr ⟨e, unsupported⟩)
    exact ⟨_, vm, failed⟩

/-- A program that leaves a coroutine in a table that holds itself. -/
def suspending : String := "ring = {} ring.ring = ring ring.co = coroutine.create(function() end)"

def suspended : Vm :=
  match Vm.load suspending ⟨Fixed.heap, none⟩ with
  | .ok _ vm => vm
  | .error _ vm => vm

/-- Does a table under a global name hold itself and a coroutine, in a heap with plain lists? -/
def hasRing (h : Heap) : Bool :=
  ["__index", "__newindex", "__len"].all (fun name => (h.table Fixed.sequence).get (.text name) == .nil) &&
    match (h.table Fixed.globals).get (.text "ring") with
    | .table id => (h.table id).get (.text "ring") == .table id && (h.table id).get (.text "co") == .ref (.thread 1)
    | _ => false

set_option maxRecDepth 100000 in
theorem hasRing_suspended : hasRing suspended.heap = true := by decide +kernel

/-- The walk ends on a cycle, and finds the coroutine. -/
theorem externalize_suspended : suspended.heap.PlainLists ∧
    ∃ detail vm', externalize suspended = .error (.snapshot detail) vm' := by
  have ring := hasRing_suspended
  unfold hasRing at ring
  obtain ⟨silent, ring⟩ := Bool.and_eq_true_iff.mp ring
  simp only [List.all_cons, List.all_nil, Bool.and_true, Bool.and_eq_true, beq_iff_eq] at silent
  have plain : suspended.heap.PlainLists := ⟨silent.1, silent.2.1, silent.2.2⟩
  split at ring
  next id here =>
    simp only [Bool.and_eq_true, beq_iff_eq] at ring
    have table : suspended.heap.Reaches (.table id) := .step .root (here ▸ .value _)
    have thread : suspended.heap.Reaches (.thread 1) := .step table (ring.2 ▸ .value _)
    exact ⟨plain, (externalize_refuses_iff plain).1.mpr ⟨_, _, thread, .coroutine 1⟩⟩
  next => cases ring

end LuaCapsule.Snapshot
