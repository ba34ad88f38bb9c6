import LuaCapsule.Proofs.Acceptance
import LuaCapsule.Proofs.JsonValues
import LuaCapsule.Snapshot.Envelope

/-! What loading makes of a blob. An envelope is taken if its records can be rebuilt in a fresh interpreter:
in order, if they are well formed, and else by what the interpreter does with them, which succeeds for more
listings than the well-formed ones and fails with more than faults of the snapshot. -/

namespace LuaCapsule.Snapshot

open Lua
open Unchecked (Fresh Begun)

variable {vm vm' : Vm} {ds : List Datum} {root : Int}

/-! ### Known records -/

/-- A record of a known kind that names library values of that kind and has code that loads, if it names any. -/
inductive IsKnown (d : Datum) : Prop
  | table (kind : field? "kind" d = some (.text "table"))
    (named : ∀ p v, field? "builtin" d = some (.text p) → Fixed.valueOf? p = some v → ∃ t, v = .table t)
  | native {p : String} {v : Value} (kind : field? "kind" d = some (.text "native")) (named : field? "builtin" d = some (.text p))
    (known : Fixed.valueOf? p = some v)
  | function (kind : field? "kind" d = some (.text "function"))
    (loads : ∀ s b, field? "code" d = some (.text s) → unhex? s = some b → ∃ c, Code.undump b = .ok c)

theorem isKnown_of_begun {n : Nat} {h : Heap} {d : Datum} {o : Value} (begun : Begun n h d o) : IsKnown d := by
  cases begun with
  | @library p t kind named known =>
    refine .table kind fun p' v named' known' => ?_
    cases named.symm.trans named'
    cases known.symm.trans known'
    exact ⟨t, rfl⟩
  | table kind unknown _ => exact .table kind fun p v named known => by cases (unknown p named).symm.trans known
  | native kind named known => exact .native kind named known
  | function kind _ loads => exact .function kind fun s b spelt digits => ⟨_, loads s b spelt digits⟩

/-- There is no rebuilding of records that are not all known. -/
theorem works_rebuild_unknown {h₀ : Heap} {st : State} {heap root : Value} (fresh : Fresh h₀)
    (encoded : Codec.Encoded h₀ libraryTables (.list ds) heap) (json : Json.IsJson (.list ds)) (tree : Datum.IsTree (.list ds))
    (mappings : ∀ d ∈ ds, ∃ es, d = .mapping es) (unknown : ¬∀ d ∈ ds, IsKnown d) (start : st.heap = h₀) :
    Works st (fun _ _ => False) (Unchecked.rebuild root heap) := by
  refine Works.never_bind ((Unchecked.works_objects fresh encoded json tree mappings start).imp fun all h made => unknown fun d mem => ?_)
  obtain ⟨_, os, begun, _⟩ := made
  obtain ⟨i, bound, rfl⟩ := List.getElem_of_mem mem
  exact isKnown_of_begun (begun.get bound (begun.length_eq ▸ bound))

/-! ### Rebuilding in a fresh interpreter -/

/-- A heap that has grown from that of a fresh interpreter. -/
theorem fresh_of_grows {h : Heap} (grows : Fixed.heap.Grows [] h) : Fresh h where
  table := fun t inside => grows.table t inside nofun
  metatables := by rw [grows.others]

/-- The trace function is where it was. -/
theorem traceHandler_eq {st : State} (fresh : Fresh st.heap) : Vm.traceHandler st = .ok (some (.native (.debug .traceback))) st := by
  have field (t : Nat) (inside : t < libraryTables) (plain : (Fixed.heap.table t).metatable = none) (name : String) :
      st.heap.index (.table t) (.text name) = .value ((Fixed.heap.table t).get (.text name)) := by
    have bare : (st.heap.table t).metatable = none := by rw [fresh.table t inside, plain]
    rw [Heap.index_eq_raw (Heap.metamethod_of_bare bare _)]
    show Lua.Outcome.value ((st.heap.table t).get (.text name)) = _
    rw [fresh.table t inside]
  have library : st.heap.index (.table Fixed.globals) (.text "debug") = .value (.table 4) := by
    rw [field Fixed.globals (by decide) (by decide +kernel)]
    exact congrArg _ (by decide +kernel)
  have traceback : st.heap.index (.table 4) (.text "traceback") = .value (.native (.debug .traceback)) := by
    rw [field 4 (by decide) (by decide)]
    exact congrArg _ (by decide)
  show EStateM.bind (Vm.resolve (st.heap.index (.table Fixed.globals) (.text "debug"))) _ st = _
  rw [library]
  show EStateM.bind (Vm.resolve (st.heap.index (.table 4) (.text "traceback"))) _ st = _
  rw [traceback]
  rfl

/-- A failed rebuild is a fault of the snapshot, unless the message of the failure is no text. -/
theorem refuses_orFail {α : Type} (vm : Vm) (done : Except Failure α) :
    Codec.Refuses (fun f => (∃ s, f = .snapshot s) ∨ f = .undecodable) (fun a => done = .ok a) (orFail done vm) := by
  unfold orFail
  cases done with
  | ok a => exact rfl
  | error e =>
    dsimp only
    cases shown : Vm.failureText e with
    | ok s => exact .inl ⟨_, rfl⟩
    | error f =>
      refine .inr ?_
      cases e with
      | memory => cases shown
      | exhausted => cases shown
      | raised v seen =>
        have shown : Vm.errorText v = .error f := shown
        unfold Vm.errorText at shown
        dsimp only at shown
        split at shown
        · split at shown
          · cases shown
          · exact (Except.error.inj shown).symm
        · cases shown

section Unchecked

variable (fixed : vm.heap = Fixed.heap) (json : Json.IsJson (.list ds)) (fits : isInt64 root = true)
include fixed json

/-- Records enter a fresh interpreter, or some integer or length is too large. -/
theorem encode_records : match Codec.encode (.list ds) vm with
    | .ok heap vm₁ => Fresh vm₁.heap ∧ Codec.Encoded vm₁.heap libraryTables (.list ds) heap ∧ Datum.IsTree (.list ds)
    | .error f _ => f = .overflow ∧ Codec.isEncodable (.list ds) = false := by
  have plain : vm.heap.PlainLists := by
    rw [fixed]
    exact Codec.plainLists_fixed
  have leaves := Codec.encode_spec plain (.list ds)
  have refuses := Codec.encode_refuses plain json.faultsAre
  cases entered : Codec.encode (.list ds) vm with
  | ok heap vm₁ =>
    rw [entered] at leaves
    obtain ⟨grows, _, encodable, encoded⟩ := leaves
    rw [fixed] at grows encoded
    exact ⟨fresh_of_grows grows, encoded, json.isTree encodable⟩
  | error f vm₁ =>
    rw [entered] at leaves refuses
    exact ⟨refuses, leaves.2.2⟩

include fits

/-- A rebuild in a fresh interpreter ends well only if all goes well that it does. -/
theorem internalizeUnchecked_refuses :
    Codec.Refuses (fun f => (∃ s, f = .snapshot s) ∨ f = .undecodable ∨ f = .overflow ∧ Codec.isEncodable (.list ds) = false)
      (fun _ => ∀ good : Prop, (∀ (h₀ : Heap) (heap : Value) (st : State), Fresh h₀ → Codec.Encoded h₀ libraryTables (.list ds) heap →
        Datum.IsTree (.list ds) → st.heap = h₀ → Works st (fun _ _ => good) (Unchecked.rebuild (.int (Int64.ofInt root)) heap)) → good)
      (internalizeUnchecked root ds vm) := by
  have records := encode_records fixed json
  show Codec.Refuses _ _ (EStateM.bind (Codec.encode (.list ds)) _ vm)
  rw [EStateM.bind]
  cases entered : Codec.encode (.list ds) vm with
  | error f vm₁ =>
    rw [entered] at records
    exact .inr (.inr records)
  | ok heap vm₁ =>
    rw [entered] at records
    obtain ⟨fresh, encoded, tree⟩ := records
    have number : Codec.encode (.int root) vm₁ = .ok (.int (Int64.ofInt root)) vm₁ := by
      show VmM.ofExcept (Codec.scalar (.int root)) vm₁ = _
      rw [Codec.scalar, if_pos fits]
      rfl
    show Codec.Refuses _ _ (EStateM.bind (Codec.encode (.int root)) _ vm₁)
    rw [EStateM.bind, number]
    let act : M (List Value) := do
      let handler ← Vm.traceHandler
      Machine.asHost handler do
        Unchecked.rebuild (.int (Int64.ofInt root)) heap
        Machine.deliver [] (← get).frames
    show Codec.Refuses _ _ (EStateM.bind (Vm.run act) _ vm₁)
    have handled (st : State) (same : st.heap = vm₁.heap) : act st = Machine.asHost (some (.native (.debug .traceback))) (do
        Unchecked.rebuild (.int (Int64.ofInt root)) heap
        Machine.deliver [] (← get).frames) st := by
      show EStateM.bind Vm.traceHandler _ st = _
      rw [EStateM.bind, traceHandler_eq (same ▸ fresh)]
    rw [EStateM.bind, Vm.run]
    cases acted : act { heap := vm₁.heap, cap := vm₁.cap } with
    | ok vs st' =>
      rw [handled _ rfl] at acted
      intro good works
      exact Machine.good_of_asHost (.inr rfl) rfl (fun st same _ => works vm₁.heap heap st fresh encoded tree same) acted
    | error e st' =>
      have refuses := refuses_orFail { vm₁ with heap := st'.heap } (Except.error e : Except Failure (List Value))
      show Codec.Refuses _ _ (EStateM.bind (orFail (.error e)) _ _)
      rw [EStateM.bind]
      cases failed : (orFail (.error e) : VmM (List Value)) { vm₁ with heap := st'.heap } with
      | ok a vm₂ =>
        rw [failed] at refuses
        cases refuses
      | error f vm₂ =>
        rw [failed] at refuses
        exact refuses.imp_right .inl

end Unchecked

/-! ### Rebuilding listings -/

/-- A record that passes the checks is known. -/
theorem isKnown_of_checked {l : Listing} {d : Datum} {r : Record} (read : Record.ofDatum? d = some r) (checked : r.Checked l) :
    IsKnown d := by
  cases Unchecked.readsRecord read with
  | @table path _ _ _ kind named _ _ _ =>
    refine .table kind fun p v is known => ?_
    rw [named] at is
    cases path with
    | none => cases is
    | some p' =>
      cases is
      exact checked.1 p rfl v known
  | native kind named =>
    obtain ⟨v, known⟩ := checked
    exact .native kind named known
  | function kind spelt digits _ _ =>
    obtain ⟨c, loads, _⟩ := checked
    refine .function kind fun s b spelt' digits' => ⟨c, ?_⟩
    cases spelt.symm.trans spelt'
    cases digits.symm.trans digits'
    exact loads

mutual

/-- What can be encoded has no integers beyond 64 bits. -/
theorem fits_of_isEncodable : ∀ {d : Datum}, Codec.isEncodable d = true → fits d = true
  | .int i, encodable => by
    show isInt64 i = true
    by_contra large
    simp [Codec.isEncodable, Codec.scalar, large, Except.toBool] at encodable
  | .list ds, encodable => by
    rw [Codec.isEncodable, Bool.and_eq_true] at encodable
    exact fitsAll_of_areEncodable encodable.1
  | .mapping es, encodable => fitsEntries_of_areFields encodable
  | .null, _ => rfl
  | .bool _, _ => rfl
  | .float _, _ => rfl
  | .text _, _ => rfl
  | .bytes _, _ => rfl
  | .tuple _, _ => rfl
  | .host _, _ => rfl
  | .live _, _ => rfl

theorem fitsAll_of_areEncodable : ∀ {ds : List Datum}, Codec.areEncodable ds = true → fitsAll ds = true
  | [], _ => rfl
  | d :: ds, encodable => by
    rw [Codec.areEncodable, Bool.and_eq_true] at encodable
    rw [fitsAll, fits_of_isEncodable encodable.1, fitsAll_of_areEncodable encodable.2, Bool.and_self]

theorem fitsEntries_of_areFields : ∀ {es : List (Datum × Datum)}, Codec.areFields es = true → fitsEntries es = true
  | [], _ => rfl
  | (k, d) :: es, encodable => by
    rw [Codec.areFields, Bool.and_eq_true, Bool.and_eq_true] at encodable
    rw [fitsEntries, fits_of_isEncodable encodable.1.1, fitsEntries_of_areFields encodable.2, Bool.and_self]

end

theorem internalize_of_wellFormed {l : Listing} (fit : (fitsAll ds && isInt64 root) = true) (read : ds.mapM Record.ofDatum? = some l)
    (wellFormed : WellFormed l root) (calm : Calm l) : ∃ vm', internalize root ds vm = .ok vm' := by
  obtain ⟨h, rebuilt⟩ := rebuild?_of_wellFormed wellFormed calm vm.heap
  refine ⟨{ vm with heap := h }, ?_⟩
  have fit : (!(fitsAll ds && fits (.int root))) = false := by simpa [fits] using fit
  rw [internalize, fit, read]
  simp only [Bool.false_eq_true, if_false, Option.bind_some]
  rw [rebuilt]

section Listings

variable (fixed : vm.heap = Fixed.heap) (json : Json.IsJson (.list ds)) (mappings : ∀ d ∈ ds, ∃ es, d = .mapping es)
include fixed json mappings

/-- Records are taken only if all of them are known, and refused for one of three reasons. -/
theorem internalize_spec (root : Int) : match internalize root ds vm with
    | .ok _ => (fitsAll ds && isInt64 root) = true ∧ (∀ d ∈ ds, IsKnown d) ∧
        ∀ l, ds.mapM Record.ofDatum? = some l → Calm l → Direct l root → Checked l root
    | .error f => (∃ s, f = .snapshot s) ∨ f = .undecodable ∨ f = .overflow ∧ (Codec.isEncodable (.list ds) && isInt64 root) = false := by
  unfold internalize
  by_cases fit : (fitsAll ds && isInt64 root) = true
  · have fit' : (!(fitsAll ds && fits (.int root))) = false := by simpa [fits] using fit
    have small : isInt64 root = true := (Bool.and_eq_true _ _ ▸ fit).2
    rw [fit']
    simp only [Bool.false_eq_true, if_false]
    cases rebuilt : (ds.mapM Record.ofDatum?).bind (rebuild? vm.heap root.toNat) with
    | some h =>
      obtain ⟨l, read, rebuilt⟩ := Option.bind_eq_some_iff.mp rebuilt
      have checked := checked_of_rebuild? rebuilt
      refine ⟨fit, fun d mem => ?_, fun l' read' _ _ => ?_⟩
      · obtain ⟨i, bound, rfl⟩ := List.getElem_of_mem mem
        have items := Unchecked.forall₂_of_mapM read
        have bound' : i < l.length := items.length_eq ▸ bound
        exact isKnown_of_checked (items.get bound bound') (checked.records _ (List.getElem_mem bound'))
      · cases read.symm.trans read'
        exact checked
    | none =>
      dsimp only
      have refuses := internalizeUnchecked_refuses fixed json small
      cases done : internalizeUnchecked root ds vm with
      | ok a vm' =>
        rw [done] at refuses
        refine ⟨fit, ?_, fun l read calm direct => refuses _ fun h₀ heap st fresh encoded tree start =>
          Unchecked.works_rebuild fresh encoded json tree mappings read calm direct small start⟩
        -- A rebuild of records that are not known has no result, so there is none to speak of.
        by_contra unknown
        exact refuses False fun h₀ heap st fresh encoded tree start =>
          works_rebuild_unknown fresh encoded json tree mappings unknown start
      | error f vm' =>
        rw [done] at refuses
        refine Or.imp_right (Or.imp_right fun large => ⟨large.1, ?_⟩) refuses
        rw [large.2, Bool.false_and]
  · have fit' : (!(fitsAll ds && fits (.int root))) = true := by
      show (!(fitsAll ds && isInt64 root)) = true
      rw [Bool.not_eq_true', Bool.eq_false_iff]
      exact fit
    rw [fit']
    refine .inr (.inr ⟨rfl, ?_⟩)
    -- What can be encoded has no integer that is too large.
    by_contra encodable
    rw [Bool.not_eq_false, Bool.and_eq_true] at encodable
    have fitting : fitsAll ds = true := fits_of_isEncodable encodable.1
    exact fit (by rw [fitting, encodable.2, Bool.and_self])

end Listings

/-! ### Envelopes -/

/-- The fields of an envelope of this format and version, both of which need not be named. -/
structure Envelope.Has (fields : List (Datum × Datum)) (e : Envelope) : Prop where
  format : ∀ d ∈ Datum.lookup (.text "format") fields, Envelope.isFormat d = true
  version : ∀ d ∈ Datum.lookup (.text "version") fields, Envelope.isVersion d = true
  engine : Datum.lookup (.text "engine") fields = some (.text e.engine)
  root : Envelope.whole? (Datum.lookup (.text "root") fields) = some e.root
  heap : Datum.lookup (.text "heap") fields = some (.list e.heap)
  mappings : ∀ d ∈ e.heap, ∃ es, d = .mapping es

/-- A blob that starts with the mark and goes on with the JSON form of an envelope of the version of interpreters. -/
structure Holds (blob : Datum) (e : Envelope) : Prop where
  read : ∃ b s fields, bytesOf? blob = some b ∧ b.startsWith mark = true ∧ (b.slice mark.size b.size).toText? = some s ∧
    Json.read? limits s = some (.mapping fields) ∧ Envelope.Has fields e
  engine : e.engine = Vm.version

namespace Envelope

theorem checkOptional_eq_zero {fields : List (Datum × Datum)} {name : String} {ok : Datum → Bool} :
    checkOptional fields name ok = 0 ↔ ∀ d ∈ Datum.lookup (.text name) fields, ok d = true := by
  unfold checkOptional
  cases Datum.lookup (.text name) fields with
  | none => simp
  | some d => simp

theorem countP_eq_zero : (ds.countP fun d => !isMapping d) = 0 ↔ ∀ d ∈ ds, ∃ es, d = .mapping es := by
  rw [List.countP_eq_zero]
  refine forall₂_congr fun d _ => ?_
  cases d with
  | mapping es => simp [isMapping]
  | _ => simp [isMapping]

theorem records_eq_ok {d : Option Datum} : records d = .ok ds ↔ d = some (.list ds) ∧ ∀ d ∈ ds, ∃ es, d = .mapping es := by
  unfold records
  split
  next items =>
    split
    next none =>
      rw [Except.ok.injEq, Option.some.injEq, Datum.list.injEq]
      refine ⟨fun same => ⟨same, same ▸ countP_eq_zero.mp none⟩, fun same => same.1⟩
    next n count =>
      refine ⟨nofun, fun ⟨same, mappings⟩ => ?_⟩
      cases same
      exact absurd (countP_eq_zero.mpr mappings) count
  next other => exact ⟨nofun, fun ⟨same, _⟩ => absurd same (other ds)⟩

theorem text?_eq_some {d : Option Datum} {s : String} : text? d = some s ↔ d = some (.text s) := by
  cases d with
  | none => simp [text?]
  | some d =>
    cases d with
    | text s' => simp [text?, Datum.asText?]
    | _ => simp [text?, Datum.asText?]

theorem ofDatum_eq_ok {d : Datum} {e : Envelope} : ofDatum d = .ok e ↔ ∃ fields, d = .mapping fields ∧ Has fields e := by
  cases d with
  | mapping fields =>
    constructor
    · intro read
      unfold ofDatum at read
      dsimp only at read
      split at read
      next heap engine root listed named placed fine =>
        cases read
        obtain ⟨given, mappings⟩ := records_eq_ok.mp listed
        exact ⟨fields, rfl, checkOptional_eq_zero.mp (by omega), checkOptional_eq_zero.mp (by omega), text?_eq_some.mp named,
          placed, given, mappings⟩
      next => cases read
      next => cases read
    · rintro ⟨_, same, has⟩
      cases same
      unfold ofDatum
      dsimp only
      rw [records_eq_ok.mpr ⟨has.heap, has.mappings⟩, text?_eq_some.mpr has.engine, has.root, checkOptional_eq_zero.mpr has.format,
        checkOptional_eq_zero.mpr has.version]
      rfl
  | _ => exact ⟨nofun, fun ⟨_, same, _⟩ => by cases same⟩

end Envelope

theorem readEnvelope_eq_ok {b : Bytes} {e : Envelope} : readEnvelope b = .ok e ↔
    ∃ s fields, b.toText? = some s ∧ Json.read? limits s = some (.mapping fields) ∧ Envelope.Has fields e := by
  unfold readEnvelope
  cases text : b.toText? with
  | none => exact ⟨nofun, fun ⟨_, _, is, _⟩ => by cases is⟩
  | some s =>
    dsimp only
    cases read : Json.read? limits s with
    | none => exact ⟨nofun, fun ⟨_, _, is, read', _⟩ => by cases is; cases read.symm.trans read'⟩
    | some d =>
      rw [Envelope.ofDatum_eq_ok]
      constructor
      · rintro ⟨fields, rfl, has⟩
        exact ⟨s, fields, rfl, read, has⟩
      · rintro ⟨s', fields, is, read', has⟩
        cases is
        cases read.symm.trans read'
        exact ⟨fields, rfl, has⟩

/-! ### Blobs -/

theorem holds_of_readEnvelope {blob : Datum} {b : Bytes} {e : Envelope} (is : bytesOf? blob = some b) (marked : b.startsWith mark = true)
    (envelope : readEnvelope (b.slice mark.size b.size) = .ok e) (engine : e.engine = Vm.version) : Holds blob e := by
  obtain ⟨s, fields, text, read, has⟩ := readEnvelope_eq_ok.mp envelope
  exact ⟨⟨b, s, fields, is, marked, text, read, has⟩, engine⟩

namespace Holds

variable {blob : Datum} {e : Envelope} (holds : Holds blob e)
include holds

theorem mappings : ∀ d ∈ e.heap, ∃ es, d = .mapping es := by
  obtain ⟨⟨_, _, _, _, _, _, _, has⟩, _⟩ := holds
  exact has.mappings

theorem json : Json.IsJson (.list e.heap) := by
  obtain ⟨⟨_, _, _, _, _, _, read, has⟩, _⟩ := holds
  exact (Json.isJson_read? read).value has.heap

end Holds

theorem heap_of_fresh {memory : Option Int} (started : Vm.fresh memory = .ok vm) : vm.heap = Fixed.heap := by
  unfold Vm.fresh at started
  split at started
  · cases started
    rfl
  · split at started
    · cases started
    · split at started
      · cases started
      · cases started
        rfl

section Loads

variable {memory : Option Int} {blob : Datum} (started : Vm.fresh memory = .ok vm)
include started

theorem loads_of_holds {e : Envelope} (holds : Holds blob e) : loads blob memory = internalize e.root e.heap vm := by
  obtain ⟨⟨b, s, fields, is, marked, text, read, has⟩, engine⟩ := holds
  have envelope : readEnvelope (b.slice mark.size b.size) = .ok e := readEnvelope_eq_ok.mpr ⟨s, fields, text, read, has⟩
  unfold loads
  rw [is]
  dsimp only
  rw [marked, envelope]
  simp only [Bool.not_true, Bool.false_eq_true, if_false, started, engine, bne_self_eq_false]
  rfl

/-- A blob without an envelope is refused. -/
theorem loads_of_not_holds (none : ∀ e, ¬Holds blob e) : ∃ s, loads blob memory = .error (.snapshot s) := by
  unfold loads
  cases is : bytesOf? blob with
  | none => exact ⟨_, rfl⟩
  | some b =>
    dsimp only
    cases marked : b.startsWith mark with
    | false => exact ⟨_, rfl⟩
    | true =>
      cases envelope : readEnvelope (b.slice mark.size b.size) with
      | error n => exact ⟨_, rfl⟩
      | ok e =>
        have other : e.engine ≠ Vm.version := fun engine => none e (holds_of_readEnvelope is marked envelope engine)
        simp only [Bool.not_true, Bool.false_eq_true, if_false, started, bne_iff_ne.mpr other, if_true]
        exact ⟨_, rfl⟩

theorem loads_of_large {e : Envelope} (holds : Holds blob e) (large : (fitsAll e.heap && isInt64 e.root) = false) :
    loads blob memory = .error .overflow := by
  rw [loads_of_holds started holds, internalize, fits, large]
  rfl

end Loads

/-! ### Some blobs -/

/-- Does a blob hold a listing, with a root and with no integers beyond 64 bits but for the root? -/
def lists (b : Bytes) (root : Int) (l : Listing) : Bool :=
  b.startsWith mark && match readEnvelope (b.slice mark.size b.size) with
    | .ok e => e.engine == Vm.version && e.root == root && fitsAll e.heap && e.heap.mapM Record.ofDatum? == some l
    | .error _ => false

theorem holds_of_lists {b : Bytes} {root : Int} {l : Listing} (seen : lists b root l = true) :
    ∃ e, Holds (.bytes b) e ∧ e.root = root ∧ fitsAll e.heap = true ∧ e.heap.mapM Record.ofDatum? = some l := by
  rw [lists, Bool.and_eq_true] at seen
  obtain ⟨marked, seen⟩ := seen
  split at seen
  next e envelope =>
    simp only [Bool.and_eq_true, beq_iff_eq] at seen
    obtain ⟨⟨⟨engine, root⟩, fit⟩, read⟩ := seen
    exact ⟨e, holds_of_readEnvelope rfl marked envelope engine, root, fit, read⟩
  next => cases seen

/-- A snapshot of a global table, from the JSON forms of its entries and of the root. -/
def globalsBlob (entries root : String) : Bytes :=
  mark ++ Bytes.ofString ("\x7b\"engine\":\"Lua 5.4\",\"heap\":[\x7b\"builtin\":\"\",\"entries\":[" ++ entries
    ++ "],\"kind\":\"table\"\x7d],\"root\":" ++ root ++ "\x7d")

/-- The JSON form of an entry whose value leads nowhere. -/
def strayEntry : String := "[\x7b\"t\":\"s\",\"v\":\"x\"\x7d,\x7b\"t\":\"r\",\"v\":9\x7d]"

end LuaCapsule.Snapshot
