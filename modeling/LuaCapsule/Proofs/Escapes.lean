import LuaCapsule.Proofs.Passage
import LuaCapsule.Proofs.Removal

/-! Failures that are no faults of the device. A caller that catches the device's own faults does not
catch these. They come from few places: a program that is no text, a store that holds something
else than artifacts, a main chunk that ends with bytes that are no text, a policy that meets such
bytes or runs functions of the program, a slot that holds no interpreter, and integers beyond 64
bits among the arguments. Everything else that can go wrong is a fault of the device. -/

namespace LuaCapsule

open Lua

/-! ### Faults -/

/-- Is a fault one of the device's own? -/
def Fault.isDevice : Fault → Bool
  | .device _ => true
  | _ => false

/-- A computation that fails with a fault that is none of the device's own. -/
def Fails {α : Type} (e : Except Fault α) : Prop := ∃ f, e = .error f ∧ f.isDevice = false

theorem isDevice_of_isDecode {f : Fault} (own : f.isDecode = true) : f.isDevice = true := by
  cases f with
  | device => rfl
  | _ => cases own

/-- An operation that fails with a fault that is none of the device's own. -/
def Escapes {α σ : Type} (r : EStateM.Result Fault σ α) : Prop := ∃ f s, r = .error f s ∧ f.isDevice = false

section Rules

variable {α β σ : Type} {s s' : σ}

@[simp] theorem fails_ok {a : α} : ¬Fails (.ok a : Except Fault α) := nofun

@[simp] theorem fails_error {f : Fault} : Fails (.error f : Except Fault α) ↔ f.isDevice = false := by simp [Fails]

theorem fails_bind {e : Except Fault α} {next : α → Except Fault β} :
    Fails (e >>= next) ↔ Fails e ∨ ∃ a, e = .ok a ∧ Fails (next a) := by
  cases e with
  | ok a => simp [Bind.bind, Except.bind]
  | error f => simp [Bind.bind, Except.bind]

theorem fails_map {e : Except Fault α} {g : α → β} : Fails (e.map g) ↔ Fails e := by
  cases e <;> simp [Except.map]

@[simp] theorem escapes_ok {a : α} : ¬Escapes (.ok a s : EStateM.Result Fault σ α) := nofun

@[simp] theorem escapes_error {f : Fault} : Escapes (.error f s : EStateM.Result Fault σ α) ↔ f.isDevice = false := by
  simp [Escapes]

instance (r : EStateM.Result Fault σ α) : Decidable (Escapes r) :=
  match r with
  | .ok _ _ => .isFalse escapes_ok
  | .error f _ => decidable_of_iff (f.isDevice = false) escapes_error.symm

theorem escapes_bind {act : EStateM Fault σ α} {next : α → EStateM Fault σ β} :
    Escapes ((act >>= next) s) ↔ Escapes (act s) ∨ ∃ a s₁, act s = .ok a s₁ ∧ Escapes (next a s₁) := by
  change Escapes (EStateM.bind act next s) ↔ _
  rw [EStateM.bind]
  cases act s with
  | ok a s₁ => simp
  | error f s₁ => simp

/-- What comes after an operation that always has a result. -/
theorem escapes_bind_of_ok {act : EStateM Fault σ α} {next : α → EStateM Fault σ β} {a : α}
    (done : act s = .ok a s') : Escapes ((act >>= next) s) ↔ Escapes (next a s') := by
  rw [escapes_bind, done]
  simp

/-- An operation on each of several items escapes at one of them, after all before it went well. -/
theorem escapes_forM {f : α → EStateM Fault σ PUnit} {as : List α} : Escapes (as.forM f s) ↔
    ∃ before a after s₁, as = before ++ a :: after ∧ before.forM f s = .ok ⟨⟩ s₁ ∧ Escapes (f a s₁) := by
  induction as generalizing s with
  | nil =>
    refine ⟨nofun, ?_⟩
    rintro ⟨before, a, after, _, is, _⟩
    simp at is
  | cons a as ih =>
    change Escapes ((f a >>= fun _ => as.forM f) s) ↔ _
    rw [escapes_bind]
    constructor
    · rintro (first | ⟨⟨⟩, s₁, done, others⟩)
      · exact ⟨[], a, as, s, rfl, rfl, first⟩
      · obtain ⟨before, b, after, s₂, rfl, went, escapes⟩ := ih.mp others
        exact ⟨a :: before, b, after, s₂, rfl, bind_eq_ok.mpr ⟨⟨⟩, s₁, done, went⟩, escapes⟩
    · rintro ⟨before, b, after, s₁, is, went, escapes⟩
      cases before with
      | nil =>
        cases is
        cases went
        exact .inl escapes
      | cons c before =>
        cases is
        obtain ⟨⟨⟩, s₂, done, went⟩ := bind_eq_ok.mp went
        exact .inr ⟨⟨⟩, s₂, done, ih.mpr ⟨before, b, after, s₁, rfl, went, escapes⟩⟩

end Rules

@[simp] theorem VmM.escapes_ofExcept {α : Type} {e : Except Fault α} {vm : Vm} :
    Escapes (VmM.ofExcept e vm) ↔ Fails e := by
  cases e with
  | ok a => exact iff_of_false escapes_ok fails_ok
  | error f => exact escapes_error.trans fails_error.symm

@[simp] theorem DeviceM.escapes_ofExcept {α : Type} {e : Except Fault α} {fleet : Fleet} :
    Escapes (DeviceM.ofExcept e fleet) ↔ Fails e := by
  cases e with
  | ok a => exact iff_of_false escapes_ok fails_ok
  | error f => exact escapes_error.trans fails_error.symm

theorem DeviceM.escapes_ofExcept_bind {α β : Type} {e : Except Fault α} {next : α → DeviceM β} {fleet : Fleet} :
    Escapes ((DeviceM.ofExcept e >>= next) fleet) ↔ Fails e ∨ ∃ a, e = .ok a ∧ Escapes (next a fleet) := by
  cases e with
  | ok a => exact (escapes_bind_of_ok rfl).trans (by simp)
  | error f => exact escapes_bind.trans (by simp [DeviceM.ofExcept_eq_ok])

/-! ### Programs -/

namespace Script

/-- Why a program cannot be taken from a context although the context names or carries one: the store
holds something else, or an artifact whose data is a number or a truth value, or the program is
bytes that are no text. -/
inductive Unusable (shared : Datum) (store : Option Artifact.Store) : Prop
  | raw {id v : Datum} {es : List (Datum × Datum)} (named : present? "script-id" shared = some id)
    (keyed : store = some (.keyed es)) (there : Datum.lookup (.text (Artifact.storeKey id.display)) es = some v)
    (null : v.isNull = false) (texts : ∀ s, v ≠ .text s) (bytes : ∀ b, v ≠ .bytes b)
  | data {id artifact data : Datum} {s : Artifact.Store} (named : present? "script-id" shared = some id)
    (given : store = some s) (found : s.read? id.display = .ok (some artifact)) (here : present? "data" artifact = some data)
    (bare : hasLength data = false)
  | stored {id artifact : Datum} {s : Artifact.Store} {b : Bytes} (named : present? "script-id" shared = some id)
    (given : store = some s) (found : s.read? id.display = .ok (some artifact)) (here : present? "data" artifact = some (.bytes b))
    (garbled : b.toText? = none)
  | carried {b : Bytes} (unnamed : present? "script-id" shared = none) (here : present? "script" shared = some (.bytes b))
    (garbled : b.toText? = none)

theorem fails_asText {d : Datum} : Fails (asText d) ↔ ∃ b, d = .bytes b ∧ b.toText? = none := by
  cases d with
  | bytes b =>
    rw [asText]
    cases text : b.toText? with
    | none => simp [Fault.isDevice, text]
    | some s => simp [text]
  | _ => simp [asText]

theorem fails_read? {s : Artifact.Store} {id : String} : Fails (s.read? id) ↔ ∃ es v, s = .keyed es ∧
    Datum.lookup (.text (Artifact.storeKey id)) es = some v ∧ v.isNull = false ∧ (∀ t, v ≠ .text t) ∧ ∀ b, v ≠ .bytes b := by
  cases s with
  | memory es =>
    rw [Artifact.Store.read?]
    split <;> simp
  | keyed es =>
    rw [Artifact.Store.read?]
    cases found : Datum.lookup (.text (Artifact.storeKey id)) es with
    | none => simp [found]
    | some v => cases v <;> simp [found, Datum.isNull, Fault.isDevice]

/-- What is missing is a fault of the device, what is there and cannot be used is not. -/
theorem fails_read {id : String} {store : Option Artifact.Store} : Fails (read id store) ↔ ∃ s, store = some s ∧
    (Fails (s.read? id) ∨ ∃ artifact data, s.read? id = .ok (some artifact) ∧ present? "data" artifact = some data ∧
      (hasLength data = false ∨ ∃ b, data = .bytes b ∧ b.toText? = none)) := by
  cases store with
  | none =>
    refine iff_of_false ?_ (by simp)
    exact fun fails => by cases (fails_error.mp fails)
  | some s =>
    have missing (e : String) : ¬Fails (throw (.scriptNotFound id e) : Except Fault String) := fun fails => by
      cases fails_error.mp fails
    simp only [Option.some.injEq, exists_eq_left']
    change Fails (s.read? id >>= _) ↔ _
    rw [fails_bind]
    refine or_congr_right ⟨?_, ?_⟩
    · rintro ⟨found, is, fails⟩
      cases found with
      | none => exact absurd fails (missing _)
      | some artifact =>
        refine ⟨artifact, ?_⟩
        dsimp only at fails
        split at fails
        · exact absurd fails (missing _)
        · exact absurd fails (missing _)
        next data null here =>
          have some : data.isNull = false := by cases data <;> first | rfl | exact absurd rfl null
          refine ⟨data, is, by simp [present?, here, some], ?_⟩
          split at fails
          next => exact .inr (fails_asText.mp fails)
          next bare => exact .inl (by simpa using bare)
    · rintro ⟨artifact, data, is, here, unusable⟩
      refine ⟨_, is, ?_⟩
      obtain ⟨here, some⟩ := Option.filter_eq_some_iff.mp here
      dsimp only
      rw [here]
      split
      next none => cases none
      next null =>
        cases null
        cases some
      next data' _ same =>
        cases same
        split
        next has =>
          rcases unusable with bare | bytes
          · cases bare.symm.trans has
          · exact fails_asText.mpr bytes
        next => exact fails_error.mpr rfl

theorem find_mapping (es : List (Datum × Datum)) (store : Option Artifact.Store) : find (.mapping es) store =
    match present? "script-id" (.mapping (Datum.erase Private.key es)) with
    | some id => read id.display store
    | none =>
      match present? "script" (.mapping (Datum.erase Private.key es)) with
      | some script => asText script
      | none => throw .missingScript := rfl

/-- Besides the faults of the device there are those of an unusable program. -/
theorem fails_find {es : List (Datum × Datum)} {store : Option Artifact.Store} :
    Fails (find (.mapping es) store) ↔ Unusable (.mapping (Datum.erase Private.key es)) store := by
  rw [find_mapping]
  generalize Datum.mapping (Datum.erase Private.key es) = shared
  cases named : present? "script-id" shared with
  | some id =>
    dsimp only
    rw [fails_read]
    constructor
    · rintro ⟨s, given, stored | ⟨artifact, data, found, here, bare | ⟨b, rfl, garbled⟩⟩⟩
      · obtain ⟨es, v, rfl, there, null, texts, bytes⟩ := fails_read?.mp stored
        exact .raw named given there null texts bytes
      · exact .data named given found here bare
      · exact .stored named given found here garbled
    · intro unusable
      cases unusable with
      | raw named' keyed there null texts bytes =>
        cases named.symm.trans named'
        exact ⟨_, keyed, .inl (fails_read?.mpr ⟨_, _, rfl, there, null, texts, bytes⟩)⟩
      | data named' given found here bare =>
        cases named.symm.trans named'
        exact ⟨_, given, .inr ⟨_, _, found, here, .inl bare⟩⟩
      | stored named' given found here garbled =>
        cases named.symm.trans named'
        exact ⟨_, given, .inr ⟨_, _, found, here, .inr ⟨_, rfl, garbled⟩⟩⟩
      | carried unnamed => cases named.symm.trans unnamed
  | none =>
    dsimp only
    constructor
    · intro fails
      split at fails
      next script here =>
        obtain ⟨b, rfl, garbled⟩ := fails_asText.mp fails
        exact .carried named here garbled
      next => cases fails_error.mp fails
    · intro unusable
      cases unusable with
      | carried _ here garbled =>
        rw [here]
        exact fails_asText.mpr ⟨_, rfl, garbled⟩
      | raw named' => cases named.symm.trans named'
      | data named' => cases named.symm.trans named'
      | stored named' => cases named.symm.trans named'

end Script

/-! ### Main chunks -/

namespace Vm

variable {vm vm' : Vm}

theorem run_eq_ok {α : Type} (act : M α) (vm : Vm) : ∃ r vm', run act vm = .ok r vm' := by
  unfold run
  cases act { heap := vm.heap, cap := vm.cap } <;> exact ⟨_, _, rfl⟩

/-- The function of a program, made in an interpreter. -/
def made (source : String) : VmM (Except Bytes Nat) :=
  runOrFail (Base.loadFunction (Bytes.ofString source) programName (Bytes.ofString "bt") (.table Fixed.globals))

theorem placed_eq_ok (code : Code) (environment : Value) (st : State) : ∃ made st', (do
    let id ← Lua.make (·.newFunction code)
    match ((← Lua.getHeap).closure? id).bind (·.upvalues[0]?) with
    | some cell => Lua.modifyHeap (·.setCell cell environment)
    | none => pure ()
    return .ok id : M (Except Bytes Nat)) st = .ok made st' := by
  change ∃ made st', (match ((st.heap.newFunction code).2.closure? (st.heap.newFunction code).1).bind (·.upvalues[0]?) with
    | some cell => do
      Lua.modifyHeap (·.setCell cell environment)
      return .ok (st.heap.newFunction code).1
    | none => do
      pure ()
      return .ok (st.heap.newFunction code).1 : M (Except Bytes Nat)) { st with heap := (st.heap.newFunction code).2 } = _
  cases ((st.heap.newFunction code).2.closure? (st.heap.newFunction code).1).bind (·.upvalues[0]?) <;>
    exact ⟨_, _, rfl⟩

/-- A program is translated, or it is said why not. -/
theorem loadFunction_eq_ok (text name mode : Bytes) (environment : Value) (st : State) :
    ∃ made st', Base.loadFunction text name mode environment st = .ok made st' := by
  unfold Base.loadFunction
  dsimp only
  generalize (if (text.at0 0 == 27 && decide (ByteArray.size text > 0)) = true then _ else _ : Except Bytes Code) = code
  generalize (Bytes.find? _ mode 0).isNone = refused
  cases refused with
  | true => exact ⟨_, _, rfl⟩
  | false =>
    cases code with
    | error m => exact ⟨_, _, rfl⟩
    | ok code => exact placed_eq_ok code environment st

theorem made_eq_ok (source : String) (vm : Vm) : ∃ r vm', made source vm = .ok r vm' := by
  obtain ⟨r, st', done⟩ := loadFunction_eq_ok (Bytes.ofString source) programName (Bytes.ofString "bt")
    (.table Fixed.globals) { heap := vm.heap, cap := vm.cap }
  refine ⟨r, { vm with heap := st'.heap }, ?_⟩
  change EStateM.bind (run _) _ vm = _
  rw [EStateM.bind, run, done]
  rfl

/-- The run of a function as a main chunk. -/
def mainRun (id : Nat) : VmM (Except Failure (List Value)) :=
  run do
    let handler ← traceHandler
    Machine.asHost handler (Machine.begin' Machine.callFunction none false true (.closure id) [])

/-- The end of the main chunk of a program. -/
def Ends (source : String) (vm : Vm) (end' : Except Failure (List Value)) : Prop :=
  ∃ id vm₁ vm₂, made source vm = .ok (.ok id) vm₁ ∧ mainRun id vm₁ = .ok end' vm₂

/-- Bytes that are no text among the results of a main chunk, or in its error. -/
inductive Garbled : Except Failure (List Value) → Prop
  | result {vs : List Value} {v : Value} (mem : v ∈ vs) (bytes : Codec.isText v = false) : Garbled (.ok vs)
  | error {v : Value} {b : Bytes} {seen : Bool} (text : stringOf? v = some b) (bytes : b.toText? = none) :
    Garbled (.error (.raised v seen))

theorem see_eq (v : Value) (vm : Vm) : see v vm =
    if Codec.isText v then .ok () { vm with heap := afterSeeing vm.heap v } else .error .undecodable vm := by
  cases v with
  | str b =>
    change (do
      if b.toText?.isNone then throw .undecodable
      modifyHeap (afterSeeing · (.str b)) : VmM Unit) vm = if b.toText?.isSome then _ else _
    cases b.toText? <;> rfl
  | _ => rfl

/-- Values are shown to the host unless one of them is bytes. -/
theorem escapes_forM_see {vs : List Value} : Escapes (vs.forM see vm) ↔ ∃ v ∈ vs, Codec.isText v = false := by
  induction vs generalizing vm with
  | nil => exact iff_of_false escapes_ok (by simp)
  | cons v vs ih =>
    have first := see_eq v vm
    cases text : Codec.isText v with
    | true =>
      rw [text, if_pos rfl] at first
      exact (escapes_bind_of_ok first).trans (ih.trans (by simp [text]))
    | false =>
      rw [text, if_neg Bool.false_ne_true] at first
      refine iff_of_true (escapes_bind.mpr (.inl ?_)) ⟨v, List.mem_cons_self .., text⟩
      rw [first]
      exact escapes_error.mpr rfl

/-- A failure of a main chunk is a fault of the device unless its text is bytes. -/
theorem isDevice_programFault {f : Failure} : (programFault f).isDevice = false ↔ Garbled (.error f) := by
  constructor
  · intro foreign
    cases f with
    | memory => cases foreign
    | exhausted => cases foreign
    | raised v seen =>
      rw [programFault, failureText, errorText] at foreign
      cases text : stringOf? v with
      | none =>
        rw [text] at foreign
        cases foreign
      | some b =>
        rw [text] at foreign
        cases bytes : b.toText? with
        | some s =>
          simp only [bytes] at foreign
          cases foreign
        | none => exact .error text bytes
  · intro garbled
    cases garbled with
    | error text bytes =>
      rw [programFault, failureText, errorText, text]
      simp only [bytes]
      rfl

theorem load_eq (source : String) : load source = (made source >>= fun r =>
    match r with
    | .error m => throw (.init ("error loading code: " ++ m.toText))
    | .ok id => mainRun id >>= fun end' =>
      match end' with
      | .ok vs => vs.forM see
      | .error f => throw (programFault f)) := rfl

/-- A program that cannot be translated or run is a fault of the device, unless it ends with bytes. -/
theorem escapes_load {source : String} : Escapes (load source vm) ↔ ∃ end', Ends source vm end' ∧ Garbled end' := by
  obtain ⟨r, vm₁, translated⟩ := made_eq_ok source vm
  rw [load_eq, escapes_bind_of_ok translated]
  cases r with
  | error m =>
    refine iff_of_false (fun escapes => by cases escapes_error.mp escapes) ?_
    rintro ⟨_, ⟨id, _, _, translated', _⟩, _⟩
    cases translated.symm.trans translated'
  | ok id =>
    obtain ⟨end', vm₂, ran⟩ := run_eq_ok (do
      let handler ← traceHandler
      Machine.asHost handler (Machine.begin' Machine.callFunction none false true (.closure id) [])) vm₁
    have ends (end'' : Except Failure (List Value)) : Ends source vm end'' ↔ end'' = end' := by
      constructor
      · rintro ⟨_, _, _, translated', ran'⟩
        cases translated.symm.trans translated'
        cases ran.symm.trans ran'
        rfl
      · rintro rfl
        exact ⟨id, vm₁, vm₂, translated, ran⟩
    have only : (∃ end'', Ends source vm end'' ∧ Garbled end'') ↔ Garbled end' := by simp [ends]
    rw [only]
    refine (escapes_bind_of_ok ran).trans ?_
    cases end' with
    | error f => exact escapes_error.trans isDevice_programFault
    | ok vs =>
      dsimp only
      rw [escapes_forM_see]
      constructor
      · rintro ⟨v, mem, bytes⟩
        exact .result mem bytes
      · intro garbled
        cases garbled with
        | result mem bytes => exact ⟨_, mem, bytes⟩

end Vm

/-! ### Paths in direct tables -/

namespace Vm

variable {vm : Vm} {t : Nat} {name : String} {names path : List String}

/-- Names lead to bytes that are no text before they lead to the table that is set. -/
def Meets (h : Heap) (t : Nat) : List String → Prop
  | [] => False
  | name :: rest => Codec.isText ((h.table t).get (.text name)) = false ∨
    ∃ id, (h.table t).get (.text name) = .table id ∧ Meets h id rest

/-- Tables from a number on are empty or lead to each other. -/
structure Fresh (n : Nat) (h : Heap) : Prop where
  below : n ≤ h.tables.size
  bare : ∀ t, n ≤ t → (h.table t).metatable = none
  inner : ∀ t, n ≤ t → ∀ k, (h.table t).get k = .nil ∨ ∃ id, n ≤ id ∧ (h.table t).get k = .table id

theorem fresh_size (h : Heap) : Fresh h.tables.size h where
  below := Nat.le_refl _
  bare := fun t beyond => by rw [Heap.table_of_size_le beyond]
  inner := fun t beyond k => .inl (Heap.get_of_size_le beyond k)

theorem Fresh.newTable {n : Nat} {h : Heap} (fresh : Fresh n h) : Fresh n (h.newTable {}).2 where
  below := Nat.le_trans fresh.below (by simp [Heap.newTable])
  bare := fun t beyond => by rw [Heap.table_newTable_empty, fresh.bare t beyond]
  inner := fun t beyond k => by rw [Heap.table_newTable_empty]; exact fresh.inner t beyond k

theorem Fresh.rawSet {n id : Nat} {h : Heap} (fresh : Fresh n h) (new : n ≤ id) (t : Nat) (k : Key) :
    Fresh n (h.rawSet t k (.table id)) where
  below := by simpa [Heap.rawSet, Heap.modifyTable] using fresh.below
  bare := by
    intro t' beyond
    rw [Heap.rawSet, Heap.table_modifyTable]
    split
    · rw [Table.metatable_set, fresh.bare t' beyond]
    · exact fresh.bare t' beyond
  inner := by
    intro t' beyond k'
    rw [Heap.rawSet, Heap.table_modifyTable]
    split
    · rw [Table.get_set]
      split
      · exact .inr ⟨id, new, rfl⟩
      · exact fresh.inner t' beyond k'
    · exact fresh.inner t' beyond k'

theorem Fresh.direct {n : Nat} {h : Heap} (fresh : Fresh n h) (beyond : n ≤ t) : h.Direct t :=
  Heap.direct_of_bare (fresh.bare t beyond)

/-- What comes after the entry under a name was read and shown. -/
def descend (path : List String) (depth t : Nat) (name : String) (rest : List String) (child : Value) : VmM Nat :=
  match child with
  | .nil => do
    let new ← make (·.newTable {})
    store (.table t) (.text name) (.table new)
    parent path (depth + 1) new rest
  | .ref (.table id) => parent path (depth + 1) id rest
  | _ => throw (pathFault path (depth + 1))

/-- A name is followed in a direct table. -/
theorem parent_cons_eq (direct : vm.heap.Direct t) (path : List String) (depth : Nat) (rest : List String) :
    parent path depth t (name :: rest) vm =
      (see ((vm.heap.table t).get (.text name)) >>= fun _ =>
        descend path depth t name rest ((vm.heap.table t).get (.text name))) vm := by
  change EStateM.bind (index (.table t) (.text name)) _ vm = _
  rw [EStateM.bind, index_eq direct name]
  rfl

/-- Where there is nothing, the rest of the names is followed in a new table. -/
theorem descend_nil_eq (direct : vm.heap.Direct t) (path : List String) (depth : Nat) (rest : List String) :
    descend path depth t name rest .nil vm = parent path (depth + 1) vm.heap.tables.size rest
      { vm with heap := (vm.heap.newTable {}).2.rawSet t (.text name) (.table vm.heap.tables.size) } := by
  have direct' : ({ vm with heap := (vm.heap.newTable {}).2 } : Vm).heap.Direct t :=
    (Heap.Overwritten.refl [] vm.heap).newTable.direct List.not_mem_nil List.not_mem_nil direct
  change EStateM.bind (store (.table t) (.text name) (.table vm.heap.tables.size)) _ { vm with heap := (vm.heap.newTable {}).2 } = _
  rw [EStateM.bind, store_eq direct' name]

/-- Names are followed without fail in new tables. -/
theorem not_escapes_parent_fresh {n depth : Nat} (fresh : Fresh n vm.heap) (beyond : n ≤ t) :
    ¬Escapes (parent path depth t names vm) := by
  induction names generalizing depth t vm with
  | nil => exact escapes_ok
  | cons name names ih =>
    have direct := fresh.direct beyond
    rw [parent_cons_eq direct]
    have shown := see_eq ((vm.heap.table t).get (.text name)) vm
    rcases fresh.inner t beyond (.text name) with missing | ⟨id, new, there⟩
    · rw [missing] at shown ⊢
      rw [escapes_bind_of_ok (shown.trans (if_pos rfl))]
      change ¬Escapes (descend path depth t name names .nil vm)
      rw [descend_nil_eq direct]
      exact ih (fresh.newTable.rawSet fresh.below t _) fresh.below
    · rw [there] at shown ⊢
      rw [escapes_bind_of_ok (shown.trans (if_pos rfl))]
      exact ih fresh new

/-- In direct tables names are followed unless bytes are met. -/
theorem escapes_parent {depth : Nat} (direct : vm.heap.DirectAlong t names) :
    Escapes (parent path depth t names vm) ↔ Meets vm.heap t names := by
  induction names generalizing depth t vm with
  | nil => exact iff_of_false escapes_ok id
  | cons name names ih =>
    rw [parent_cons_eq direct.1, Meets]
    have shown := see_eq ((vm.heap.table t).get (.text name)) vm
    have along := direct.2
    generalize child : (vm.heap.table t).get (.text name) = v at shown along ⊢
    cases text : Codec.isText v with
    | false =>
      rw [text, if_neg Bool.false_ne_true] at shown
      refine iff_of_true (escapes_bind.mpr (.inl ?_)) (.inl rfl)
      rw [shown]
      exact escapes_error.mpr rfl
    | true =>
      rw [text, if_pos rfl] at shown
      rw [escapes_bind_of_ok shown]
      simp only [Bool.true_eq_false, false_or]
      unfold descend
      split
      next =>
        refine iff_of_false ?_ (by simp)
        change ¬Escapes (descend path depth t name names .nil vm)
        rw [descend_nil_eq direct.1]
        exact not_escapes_parent_fresh ((fresh_size _).newTable.rawSet (Nat.le_refl _) t _) (Nat.le_refl _)
      next id =>
        refine (ih (along id rfl)).trans ?_
        simp
      next none table =>
        refine iff_of_false (fun escapes => by cases escapes_error.mp escapes) ?_
        rintro ⟨id, rfl, _⟩
        exact table id rfl

/-- A path through direct tables is set unless bytes are met or the value does not fit. -/
theorem escapes_setPath {it : Codec.Item} (named : path ≠ []) (index : "__index" ∉ path) (newItem : "__newindex" ∉ path)
    (direct : vm.heap.DirectAlong Fixed.globals path.dropLast) : Escapes (setPath path it vm) ↔
      Meets vm.heap Fixed.globals path.dropLast ∨
      (∃ t vm', parent path 0 Fixed.globals path.dropLast vm = .ok t vm') ∧ Fails it.value := by
  unfold setPath
  rw [escapes_bind, escapes_parent direct]
  refine or_congr_right ⟨?_, ?_⟩
  · rintro ⟨t, vm', followed, escapes⟩
    refine ⟨⟨t, vm', followed⟩, ?_⟩
    have ends : ∀ s ∈ ([] : List (Nat × Key)), ∃ name ∈ ([] : List String), s.2 = .text name := nofun
    obtain ⟨overwritten, direct', _⟩ := parent_spec index newItem ends
      (fun name mem => List.dropLast_subset path mem) (fun _ _ => List.not_mem_nil) direct (.refl _ vm.heap) followed
    rw [List.getLast?_eq_some_getLast named] at escapes
    rcases escapes_bind.mp escapes with fails | ⟨v, _, entered, escapes⟩
    · exact VmM.escapes_ofExcept.mp fails
    · cases value : it.value with
      | error f =>
        rw [value] at entered
        cases entered
      | ok v' =>
        rw [value] at entered
        cases entered
        rw [store_eq (overwritten.direct index newItem direct')] at escapes
        exact absurd escapes escapes_ok
  · rintro ⟨⟨t, vm', followed⟩, fails⟩
    refine ⟨t, vm', followed, ?_⟩
    rw [List.getLast?_eq_some_getLast named]
    exact escapes_bind.mpr (.inl (VmM.escapes_ofExcept.mpr fails))

end Vm

/-! ### Policies -/

namespace Sandbox

theorem fails_mapM {α β : Type} {f : α → Except Fault β} {as : List α} (fails : Fails (as.mapM f)) : ∃ a ∈ as, Fails (f a) := by
  induction as with
  | nil => exact absurd fails fails_ok
  | cons a as ih =>
    rw [List.mapM_cons] at fails
    rcases fails_bind.mp fails with first | ⟨b, _, fails⟩
    · exact ⟨a, List.mem_cons_self .., first⟩
    · rcases fails_bind.mp fails with others | ⟨bs, _, fails⟩
      · obtain ⟨a', mem, fails⟩ := ih others
        exact ⟨a', List.mem_cons_of_mem _ mem, fails⟩
      · exact absurd fails fails_ok

theorem not_fails_parsePath (d : Datum) : ¬Fails (parsePath d) := by
  rw [parsePath]
  split
  · exact fun fails => by cases fails_error.mp fails
  · split
    · exact fun fails => by cases fails_error.mp fails
    · exact fails_ok

/-- A policy that is none is a fault of the device. -/
theorem not_fails_normalize (policy : Datum) (defaults : List Entry) : ¬Fails (normalize policy defaults) := by
  have items (d : Datum) (ds : List Datum) : ¬Fails (ofItems d ds) := by
    rw [ofItems]
    split
    · exact fun fails => not_fails_parsePath _ (fails_map.mp fails)
    · intro fails
      obtain ⟨d, _, fails⟩ := fails_mapM fails
      exact not_fails_parsePath d (fails_map.mp fails)
  cases policy with
  | null => exact fails_ok
  | bool b => cases b <;> exact fails_ok
  | mapping es =>
    intro fails
    obtain ⟨e, _, fails⟩ := fails_mapM fails
    exact not_fails_parsePath e.1 (fails_map.mp fails)
  | list ds => exact items _ ds
  | tuple ds => exact items _ ds
  | _ => exact fun fails => by cases fails_error.mp fails

/-- A policy gets stuck at one of its entries, after those before it were overwritten. -/
def Stuck (defaults : List Entry) (policy : Datum) (vm : Vm) : Prop :=
  ∃ before e after vm₁, normalize policy defaults = .ok (before ++ e :: after) ∧
    before.forM overwrite vm = .ok ⟨⟩ vm₁ ∧ Escapes (overwrite e vm₁)

theorem escapes_enforce {defaults : List Entry} {policy : Datum} {vm : Vm} :
    Escapes (enforce defaults policy vm) ↔ Stuck defaults policy vm := by
  unfold enforce Stuck
  cases normal : normalize policy defaults with
  | error f =>
    refine iff_of_false ?_ (by simp)
    intro escapes
    rcases escapes_bind.mp escapes with escapes | ⟨entries, vm₁, done, _⟩
    · exact not_fails_normalize policy defaults (normal ▸ VmM.escapes_ofExcept.mp escapes)
    · cases done
  | ok entries =>
    rw [escapes_bind_of_ok (show VmM.ofExcept (.ok entries) vm = .ok entries vm from rfl), escapes_bind, escapes_forM]
    constructor
    · rintro (⟨before, e, after, vm₁, rfl, done, escapes⟩ | ⟨_, _, _, escapes⟩)
      · exact ⟨before, e, after, vm₁, rfl, done, escapes⟩
      · exact absurd escapes escapes_ok
    · rintro ⟨before, e, after, vm₁, is, done, escapes⟩
      exact .inl ⟨before, e, after, vm₁, Except.ok.inj is, done, escapes⟩

end Sandbox

end LuaCapsule
