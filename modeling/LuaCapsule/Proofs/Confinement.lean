import LuaCapsule.Proofs.Canonical
import LuaCapsule.Proofs.NestedEntries
import LuaCapsule.Proofs.Runs

/-! What a sandbox takes away stays away. The values that a policy takes out of an interpreter cannot
be reached from its global table any more, and nothing that a device itself does brings them back:
a snapshot names library values by their paths, and one of an interpreter without some of them
makes another one without them, although what is rebuilt is rebuilt in a fresh interpreter that
has them all. Calls of the program's own functions are another matter, since the values are there
for whoever finds a way to them. -/

namespace LuaCapsule

open Lua

/-! ### What is taken away -/

namespace Sandbox

/-- The value at a path in an interpreter that has not run anything. -/
def valueAt (path : CapabilityPath) : Value := path.foldl field (.table Fixed.globals)
where
  field (v : Value) (name : String) : Value :=
    match v with
    | .ref (.table t) => (Fixed.heap.table t).get (.text name)
    | _ => .nil

/-- The library values that entries of a policy take away: those at their paths and, of tables, all
that is in them. -/
def taken (entries : List Entry) : List Ref :=
  entries.flatMap fun e =>
    match valueAt e.path with
    | .ref (.table t) => .table t :: Snapshot.held (Fixed.heap.table t)
    | .ref r => [r]
    | _ => []

theorem path_of_valueAt {path : CapabilityPath} {r : Ref} (is : valueAt path = .ref r) : Fixed.pathOf? (.ref r) ≠ none := by
  have step {v : Value} (known : ∀ r, v = .ref r → Fixed.pathOf? (.ref r) ≠ none) (name : String) :
      ∀ r, valueAt.field v name = .ref r → Fixed.pathOf? (.ref r) ≠ none := by
    intro r is
    unfold valueAt.field at is
    split at is
    next t => exact Fixed.path_of_holds (known _ rfl) (is ▸ .value _)
    next => cases is
  have walk (v : Value) (known : ∀ r, v = .ref r → Fixed.pathOf? (.ref r) ≠ none) :
      ∀ r, path.foldl valueAt.field v = .ref r → Fixed.pathOf? (.ref r) ≠ none := by
    clear is
    induction path generalizing v with
    | nil => exact known
    | cons name path ih => exact ih _ (step known name)
  exact walk _ (fun r is => by cases is; decide) r is

/-- Everything that can be taken away has a path. -/
theorem path_of_taken {entries : List Entry} {r : Ref} (mem : r ∈ taken entries) : Fixed.pathOf? (.ref r) ≠ none := by
  obtain ⟨e, _, mem⟩ := List.mem_flatMap.mp mem
  split at mem
  next t is =>
    have path := path_of_valueAt is
    rcases List.mem_cons.mp mem with rfl | mem
    · exact path
    · exact Fixed.path_of_holds path (Snapshot.mem_held_iff.mp mem)
  next r' _ is => exact List.mem_singleton.mp mem ▸ path_of_valueAt is
  next => cases mem

end Sandbox

/-- None of some objects can be reached from the global table. -/
def Lua.Heap.Confined (h : Heap) (taken : List Ref) : Prop := ∀ r ∈ taken, ¬h.Reaches r

/-- Library values that cannot be reached in a heap cannot be reached in one that differs from it in the
names of objects only. -/
theorem Lua.Heap.Confined.of_isomorphism {h h' : Heap} {f : Ref → Ref} {taken : List Ref} (confined : h.Confined taken)
    (paths : ∀ r ∈ taken, Fixed.pathOf? (.ref r) ≠ none) (iso : h.Isomorphism h' f) : h'.Confined taken := by
  intro r mem reached
  obtain ⟨s, here, rfl⟩ := iso.objects.surjOn reached
  obtain ⟨p, known⟩ := Option.ne_none_iff_exists'.mp (paths _ mem)
  have same : f s = s := Value.ref.inj (Fixed.path_inj known ((iso.path s here).symm.trans known))
  rw [same] at mem
  exact confined s mem here

/-! ### Snapshots -/

namespace Snapshot

/-- What is read back from a snapshot, in whatever memory, has the same objects but for their names, and
lists that are as plain. -/
theorem restored_of_dumps {vm vm₁ vm' : Vm} {blob : Bytes} {memory : Option Int} (plain : vm.heap.PlainLists)
    (done : dumps vm = .ok blob vm₁) (loaded : loads (.bytes blob) memory = .ok vm') :
    vm'.heap.PlainLists ∧ ∃ f, vm.heap.Isomorphism vm'.heap f := by
  obtain ⟨_, l, captured, fits, written⟩ := (dumps_eq_ok (isIdle_of_plainLists plain)).mp done
  obtain ⟨objs, owner, d, reached⟩ := describes_capture captured
  obtain ⟨h', os, owner', _, loads, d', absent⟩ := loads_write_within d plain.index fits written
  rw [loads] at loaded
  cases fresh : Vm.fresh memory with
  | error f =>
    rw [fresh] at loaded
    cases loaded
  | ok vm₀ =>
    rw [fresh] at loaded
    cases loaded
    exact ⟨plainLists_of_describes d.settled d' plain (absent _ (by decide)), _,
      isomorphism_of_describes d.settled d' reached⟩

/-- Taking a snapshot changes nothing, whether it succeeds or not. -/
theorem stateAfter_dumps {vm : Vm} (plain : vm.heap.PlainLists) : stateAfter (dumps vm) = vm := by
  simp only [dumps, bind, EStateM.bind, externalize_eq (isIdle_of_plainLists plain)]
  cases capture vm.heap with
  | error e => rfl
  | ok l =>
    dsimp only
    by_cases fits : fitsAll (l.map Record.toDatum) = true
    · rw [if_pos fits]
      dsimp only
      rw [records_eq]
      dsimp only
      cases write? ⟨Vm.version, rootPlace, l.map Record.toDatum⟩ <;> rfl
    · rw [if_neg fits]
      rfl

end Snapshot

/-! ### Guarded interpreters -/

/-- An interpreter that cannot reach what the policy of a device takes away when it is only asked for, and
whose lists are up to themselves. -/
structure Device.Safe (device : Device) (vm : Vm) : Prop where
  plain : vm.heap.PlainLists
  confined : vm.heap.Confined (Sandbox.taken device.defaults)

/-- Interpreters of which those from a number on are safe. -/
structure Guarded (device : Device) (base : Nat) (fleet : Fleet) : Prop where
  size : base ≤ fleet.size
  safe : ∀ n vm, base ≤ n → fleet[n]? = some vm → device.Safe vm

/-- How an operation comes out that leaves the interpreters guarded. -/
def Minds {α : Type} (device : Device) (base : Nat) (good : α → Prop) : EStateM.Result Fault Fleet α → Prop
  | .ok a fleet => Guarded device base fleet ∧ good a
  | .error _ fleet => Guarded device base fleet

/-- A snapshot that was taken of a safe interpreter. -/
def Device.SafeSnapshot (device : Device) (blob : Bytes) : Prop :=
  ∃ vm vm₁, device.Safe vm ∧ Snapshot.dumps vm = .ok blob vm₁

variable {device : Device} {base : Nat} {fleet fleet' : Fleet} {context : Datum}

/-- What a safe interpreter is read back as is safe. -/
theorem Device.SafeSnapshot.loads {blob : Bytes} {memory : Option Int} {vm : Vm} (taken : device.SafeSnapshot blob)
    (loaded : Snapshot.loads (.bytes blob) memory = .ok vm) : device.Safe vm := by
  obtain ⟨vm₀, _, safe, done⟩ := taken
  obtain ⟨plain, f, iso⟩ := Snapshot.restored_of_dumps safe.plain done loaded
  exact ⟨plain, safe.confined.of_isomorphism (fun r => Sandbox.path_of_taken) iso⟩

section Minds

variable {α β : Type} {good : α → Prop} {good₂ : β → Prop}

theorem Minds.pure {a : α} (guarded : Guarded device base fleet) (fine : good a) : Minds device base good (.ok a fleet) :=
  ⟨guarded, fine⟩

theorem Minds.ofExcept {e : Except Fault α} (guarded : Guarded device base fleet) (fine : ∀ a, e = .ok a → good a) :
    Minds device base good (DeviceM.ofExcept e fleet) := by
  cases e with
  | ok a => exact ⟨guarded, fine a rfl⟩
  | error f => exact guarded

theorem Minds.bind {act : DeviceM α} {next : α → DeviceM β} (good : α → Prop) (one : Minds device base good (act fleet))
    (others : ∀ a fleet', act fleet = .ok a fleet' → Guarded device base fleet' → good a →
      Minds device base good₂ (next a fleet')) : Minds device base good₂ ((act >>= next) fleet) := by
  change Minds device base good₂ (EStateM.bind act next fleet)
  rw [EStateM.bind]
  cases done : act fleet with
  | ok a fleet' =>
    rw [done] at one
    exact others a fleet' done one.1 one.2
  | error f fleet' =>
    rw [done] at one
    exact one

/-- A result that depends on no interpreter, and what is done with it. -/
theorem Minds.ofExcept_bind {e : Except Fault α} {next : α → DeviceM β} (guarded : Guarded device base fleet)
    (others : ∀ a, e = .ok a → Minds device base good₂ (next a fleet)) :
    Minds device base good₂ ((DeviceM.ofExcept e >>= next) fleet) := by
  cases e with
  | ok a => exact others a rfl
  | error f => exact guarded

/-- A safe interpreter is added. -/
theorem Minds.add {vm : Vm} (guarded : Guarded device base fleet) (safe : device.Safe vm) :
    Minds device base (fun d => ∃ n, d = .live n ∧ base ≤ n) (DeviceM.add vm fleet) := by
  refine ⟨⟨guarded.size.trans (by simp), fun n vm' le here => ?_⟩, fleet.size, rfl, guarded.size⟩
  rw [Array.getElem?_push] at here
  split at here
  · exact Option.some.inj here ▸ safe
  · exact guarded.safe n vm' le here

/-- An interpreter acts and stays safe. -/
theorem Minds.within {d : Datum} {act : VmM α} (guarded : Guarded device base fleet) (own : ∀ n, d = .live n → base ≤ n)
    (kept : ∀ n vm, d = .live n → fleet[n]? = some vm → device.Safe vm → device.Safe (stateAfter (act vm)))
    (fine : ∀ n vm a vm', d = .live n → fleet[n]? = some vm → act vm = .ok a vm' → good a) :
    Minds device base good (DeviceM.within d act fleet) := by
  cases d with
  | live n =>
    rw [DeviceM.within_live]
    cases here : fleet[n]? with
    | none => exact guarded
    | some vm =>
      have safe := kept n vm rfl here (guarded.safe n vm (own n rfl) here)
      have replaced : Guarded device base (fleet.setIfInBounds n (stateAfter (act vm))) := by
        refine ⟨by simpa using guarded.size, fun m vm' le there => ?_⟩
        rw [Array.getElem?_setIfInBounds] at there
        split at there
        next same =>
          split at there
          · exact Option.some.inj there ▸ safe
          · cases there
        next => exact guarded.safe m vm' le there
      dsimp only
      cases done : act vm with
      | ok a vm' =>
        rw [done] at replaced
        exact ⟨replaced, fine n vm a vm' rfl here done⟩
      | error f vm' =>
        rw [done] at replaced
        exact replaced
  | _ => exact guarded

end Minds

/-! ### Contexts that name guarded interpreters only -/

/-- A context whose private slot has each key once, and which names no interpreter before a number. -/
structure Device.Owns (device : Device) (base : Nat) (context : Datum) : Prop where
  distinct : ∀ slot, Private.slot context = .ok slot → Datum.Distinct slot
  state : ∀ n, device.state? context = .ok (some (.live n)) → base ≤ n

namespace Device

theorem owns_of_slot {slot : List (Datum × Datum)} (known : Private.slot context = .ok slot) (distinct : Datum.Distinct slot)
    (state : ∀ n, Datum.lookup (.text device.settings.stateKey) slot = some (.live n) → base ≤ n) :
    device.Owns base context := by
  constructor
  · intro slot' known'
    exact Except.ok.inj (known.symm.trans known') ▸ distinct
  · intro n named
    rw [state?_of_slot known] at named
    exact state n (Option.filter_eq_some_iff.mp (Except.ok.inj named)).1

theorem Owns.lookup {slot : List (Datum × Datum)} (owns : device.Owns base context) (known : Private.slot context = .ok slot)
    {n : Nat} (here : Datum.lookup (.text device.settings.stateKey) slot = some (.live n)) : base ≤ n := by
  refine owns.state n ?_
  rw [state?_of_slot known, here]
  rfl

theorem Owns.withState {n : Nat} {context' : Datum} (owns : device.Owns base context) (le : base ≤ n)
    (done : device.withState context (.live n) = .ok context') : device.Owns base context' := by
  cases context with
  | mapping es =>
    cases done
    refine owns_of_slot (congrArg Except.ok (Private.slotOf_insert _ es)) (Datum.distinct_insert (owns.distinct _ rfl) _ _) ?_
    intro m here
    rw [Private.lookup_insert_text] at here
    cases here
    exact le
  | _ => cases done

/-- A result takes the interpreter along that was there, whatever it says itself. -/
theorem Owns.successor {value : Datum} {before next : Successor} {n : Nat} (owns : device.Owns base before.context)
    (live : device.state? before.context = .ok (some (.live n)))
    (fresh : ∀ es, value = .mapping es → Datum.Distinct (Private.slotOf es))
    (done : Device.successor value before = .ok next) : device.Owns base next.context := by
  have carries : device.Carries (some (.live n)) before.context := carries_of_state? live owns.distinct
  obtain ⟨slot, known, distinct, here⟩ := carries.successor fresh done
  refine owns_of_slot known distinct fun m found => ?_
  rw [found] at here
  cases here
  exact owns.state n live

/-- A stored snapshot takes the place of an interpreter at most. -/
theorem Owns.attachSnapshot {blob : Bytes} {next : Successor} (owns : device.Owns base context)
    (done : device.attachSnapshot context (.bytes blob) = .ok next) : device.Owns base next.context := by
  cases context with
  | mapping es =>
    rw [Device.attachSnapshot] at done
    cases found : device.snapshotPath (.mapping es) with
    | error f =>
      rw [found] at done
      cases done
    | ok path =>
      obtain ⟨second, rest, rfl⟩ := snapshotPath_eq found
      rw [found] at done
      cases done
      have distinct := owns.distinct _ rfl
      by_cases private' : device.settings.snapshotKey = "priv"
      · rw [private']
        obtain ⟨w, stored, kind⟩ := storeAt_cons (.bytes blob) second rest (Private.slotOf es)
        refine owns_of_slot (congrArg Except.ok (Private.slotOf_insert _ es)) ?_ ?_
        · change Datum.Distinct (storeAt (.bytes blob) (second :: rest) (Private.slotOf es))
          rw [stored]
          exact Datum.distinct_insert distinct _ _
        · change ∀ n, Datum.lookup _ (storeAt (.bytes blob) (second :: rest) (Private.slotOf es)) = _ → _
          intro n here
          rw [stored, Datum.lookup_insert] at here
          split at here
          · obtain rfl := Option.some.inj here
            rcases kind with is | ⟨_, is⟩ <;> cases is
          · exact owns.lookup rfl here
      · have other : Datum.sameKey (.text device.settings.snapshotKey) Private.key = false := beq_false_of_ne private'
        have same : Private.slotOf (storeAt (.bytes blob) (device.settings.snapshotKey :: second :: rest) es) =
            Private.slotOf es := by
          rw [storeAt, Private.slotOf, Datum.lookup_insert, other]
          · rfl
          · rintro ⟨⟩
        exact owns_of_slot (congrArg Except.ok same) distinct fun n => owns.lookup rfl
  | _ => cases done

theorem owns_publicView {shared : Datum} (done : Private.publicView context = .ok shared) : device.Owns base shared := by
  cases context with
  | mapping es =>
    cases done
    have none : Private.slotOf (Datum.erase Private.key es) = [] := by
      rw [Private.slotOf, Private.lookup_erase_self]
    exact owns_of_slot (congrArg Except.ok none) .nil fun n here => by cases here
  | _ => cases done

/-! ### Operations -/

/-- An interpreter that a context without one is started with. -/
def Starts (device : Device) (context : Datum) (vm : Vm) : Prop :=
  device.isInitialized context = .ok false ∧ ∃ program shared, Script.find context device.store = .ok program ∧
    Private.publicView context = .ok shared ∧
    device.start program ((Path.field? "sandbox" shared).getD (.bool false)) = .ok vm

/-- A call of a function for a key and a request, in the interpreter of a context. -/
def Calls (device : Device) (key request context : Datum) (fleet : Fleet) (vm : Vm) (function : String)
    (args : List Datum) : Prop :=
  ∃ before fleet' n params, device.ensureLive context fleet = .ok before fleet' ∧
    device.state? before.context = .ok (some (.live n)) ∧ fleet'[n]? = some vm ∧
    Request.functionName key before.context (Request.normalize request) = .ok function ∧
    Request.parameters before.context (Request.normalize request) = .ok params ∧ args = Request.arguments params

/-- What a context without an interpreter is restored from. -/
def Reads (device : Device) (context blob : Datum) : Prop :=
  device.isInitialized context = .ok false ∧ ∃ path shared, device.snapshotPath context = .ok path ∧
    Private.publicView context = .ok shared ∧ Path.follow path shared = some blob

/-- A context is started with the interpreter that it has after that. -/
theorem getElem?_of_starts {before : Successor} {vm : Vm} (starts : device.Starts context vm)
    (done : device.ensureLive context fleet = .ok before fleet') : fleet'[fleet.size]? = some vm := by
  obtain ⟨cold, program, shared, found, view, started⟩ := starts
  rw [ensureLive, cold] at done
  obtain ⟨_, ⟨⟩, done⟩ := DeviceM.ofExcept_bind_eq_ok.mp done
  obtain ⟨_, found', done⟩ := DeviceM.ofExcept_bind_eq_ok.mp done
  cases found.symm.trans found'
  obtain ⟨_, view', done⟩ := DeviceM.ofExcept_bind_eq_ok.mp done
  cases view.symm.trans view'
  obtain ⟨_, started', done⟩ := DeviceM.ofExcept_bind_eq_ok.mp done
  cases started.symm.trans started'
  obtain ⟨_, _, ⟨⟩, done⟩ := bind_eq_ok.mp done
  obtain ⟨_, _, done⟩ := DeviceM.ofExcept_bind_eq_ok.mp done
  cases done
  exact Array.getElem?_push_size

/-- What a call makes of an interpreter is what is there after the computation. -/
theorem getElem?_of_calls {key request : Datum} {r : Computed} {n : Nat} {vm : Vm} {function : String} {args : List Datum}
    (live : device.state? context = .ok (some (.live n))) (calls : device.Calls key request context fleet vm function args)
    (done : device.compute key context request fleet = .ok r fleet') :
    fleet[n]? = some vm ∧ fleet'[n]? = some (stateAfter (device.call function args vm)) := by
  have initialized : device.isInitialized context = .ok true := by
    rw [isInitialized, live]
    rfl
  obtain ⟨_, _, m, params, ensured, state, here, named, given, rfl⟩ := calls
  rw [ensureLive_eq initialized] at ensured
  cases ensured
  cases live.symm.trans state
  refine ⟨here, ?_⟩
  rw [compute_eq] at done
  obtain ⟨_, _, ensured, done⟩ := bind_eq_ok.mp done
  rw [ensureLive_eq initialized] at ensured
  cases ensured
  obtain ⟨_, state', done⟩ := DeviceM.ofExcept_bind_eq_ok.mp done
  cases state.symm.trans state'
  obtain ⟨_, named', done⟩ := DeviceM.ofExcept_bind_eq_ok.mp done
  cases named.symm.trans named'
  obtain ⟨_, given', done⟩ := DeviceM.ofExcept_bind_eq_ok.mp done
  cases given.symm.trans given'
  obtain ⟨value, fleet₁, called, done⟩ := bind_eq_ok.mp done
  obtain ⟨_, _, done⟩ := DeviceM.ofExcept_bind_eq_ok.mp done
  cases done
  rw [show (Option.some (Datum.live n)).getD .null = .live n from rfl, DeviceM.within_live, here] at called
  dsimp only at called
  split at called
  next ended =>
    cases called
    rw [Array.getElem?_setIfInBounds, if_pos rfl, if_pos (Array.getElem?_eq_some_iff.mp here).1, ended]
    rfl
  next => cases called

theorem minds_withState {vm : Vm} (guarded : Guarded device base fleet) (owns : device.Owns base context)
    (safe : device.Safe vm) : Minds device base (fun s : Successor => device.Owns base s.context)
      ((do return ⟨← DeviceM.ofExcept (device.withState context (← DeviceM.add vm)), false⟩ : DeviceM Successor) fleet) := by
  refine .bind (fun d => ∃ n, d = .live n ∧ base ≤ n) (.add guarded safe) ?_
  rintro _ fleet' _ guarded' ⟨n, rfl, le⟩
  exact .ofExcept_bind guarded' fun context' done => .pure guarded' (owns.withState le done)

theorem minds_ensureLive (guarded : Guarded device base fleet) (owns : device.Owns base context)
    (starts : ∀ vm, device.Starts context vm → device.Safe vm) :
    Minds device base (fun s => device.Owns base s.context) (device.ensureLive context fleet) := by
  refine .ofExcept_bind guarded fun live known => ?_
  cases live with
  | true => exact .pure guarded owns
  | false =>
    refine .ofExcept_bind guarded fun program found => ?_
    refine .ofExcept_bind guarded fun shared view => ?_
    refine .ofExcept_bind guarded fun vm started => ?_
    exact minds_withState guarded owns (starts vm ⟨known, program, shared, found, view, started⟩)

/-- A computation keeps what its call keeps. -/
theorem minds_compute {key request : Datum} (guarded : Guarded device base fleet) (owns : device.Owns base context)
    (starts : ∀ vm, device.Starts context vm → device.Safe vm)
    (calls : ∀ vm function args, device.Calls key request context fleet vm function args → device.Safe vm →
      device.Safe (stateAfter (device.call function args vm))) :
    Minds device base (fun r : Computed => device.Owns base r.next.context) (device.compute key context request fleet) := by
  rw [compute_eq]
  refine .bind _ (minds_ensureLive guarded owns starts) fun before fleet₁ ensured guarded₁ owns₁ => ?_
  refine .ofExcept_bind guarded₁ fun found state => ?_
  refine .ofExcept_bind guarded₁ fun function called => ?_
  refine .ofExcept_bind guarded₁ fun params given => ?_
  have named (n : Nat) (is : found.getD .null = .live n) : device.state? before.context = .ok (some (.live n)) := by
    cases found with
    | none => cases is
    | some d => exact state.trans (is ▸ rfl)
  refine .bind (fun value => (∃ n, device.state? before.context = .ok (some (.live n))) ∧
    ∀ es, value = .mapping es → Datum.Distinct (Private.slotOf es)) ?_ ?_
  · refine .within guarded₁ (fun n is => owns₁.state n (named n is)) ?_ ?_
    · intro n vm is here safe
      exact calls vm function _ ⟨before, fleet₁, n, params, ensured, named n is, here, called, given, rfl⟩ safe
    · exact fun n vm value vm' is _ done => ⟨⟨n, named n is⟩, distinct_of_call done⟩
  · rintro value fleet₂ _ guarded₂ ⟨⟨n, live⟩, fresh⟩
    exact .ofExcept_bind guarded₂ fun next done => .pure guarded₂ (owns₁.successor live fresh done)

theorem minds_restore (guarded : Guarded device base fleet) (owns : device.Owns base context)
    (reads : ∀ blob, device.Reads context blob → ∃ b, blob = .bytes b ∧ device.SafeSnapshot b) :
    Minds device base (fun s => device.Owns base s.context) (device.restore context fleet) := by
  refine .ofExcept_bind guarded fun live known => ?_
  cases live with
  | true => exact .pure guarded owns
  | false =>
    refine .ofExcept_bind guarded fun path found => ?_
    refine .ofExcept_bind guarded fun shared view => ?_
    cases stored : (Path.follow path shared).filter fun d => !d.isNull with
    | none => exact guarded
    | some blob =>
      obtain ⟨b, rfl, taken⟩ := reads blob ⟨known, path, shared, found, view, (Option.filter_eq_some_iff.mp stored).1⟩
      refine .ofExcept_bind guarded fun vm loaded => ?_
      exact minds_withState guarded owns (taken.loads loaded)

theorem minds_snapshot (guarded : Guarded device base fleet) (owns : device.Owns base context) :
    Minds device base device.SafeSnapshot (device.snapshot context fleet) := by
  refine .ofExcept_bind guarded fun found state => ?_
  cases found with
  | none => exact guarded
  | some d =>
    refine .within guarded (fun n is => owns.state n (is ▸ state)) ?_ ?_
    · exact fun n vm _ _ safe => (Snapshot.stateAfter_dumps safe.plain).symm ▸ safe
    · exact fun n vm blob vm' is here done =>
        ⟨vm, vm', guarded.safe n vm (owns.state n (is ▸ state)) here, done⟩

theorem minds_checkpoint (guarded : Guarded device base fleet) (owns : device.Owns base context) :
    Minds device base (fun s => device.Owns base s.context) (device.checkpoint context fleet) :=
  .bind _ (minds_snapshot guarded owns) fun _ _ _ guarded' _ => .ofExcept guarded' fun _ => owns.attachSnapshot

/-- A copy is safe if what it was copied from is. -/
theorem minds_fork (guarded : Guarded device base fleet) (owns : device.Owns base context) :
    Minds device base (fun s => device.Owns base s.context) (device.fork context fleet) := by
  refine .bind _ (minds_snapshot guarded owns) fun blob fleet₁ _ guarded₁ taken => ?_
  exact .ofExcept_bind guarded₁ fun vm loaded => minds_withState guarded₁ owns (taken.loads loaded)

end Device

/-! ### Steps -/

namespace Step

/-- The key and the request for which a step calls a function of the program of a context. -/
def request? (context : Datum) : Step → Option (Datum × Datum)
  | compute key request => some (key, request)
  | resolve key request =>
    match Private.publicEntries context with
    | .ok shared => if (Datum.lookup key shared).isNone || Device.isReserved key then some (key, request) else none
    | .error _ => none
  | _ => none

/-- Does a step start the program of a context that has no interpreter? -/
def isStart (context : Datum) : Step → Bool
  | init => true
  | step => (step.request? context).isSome

/-- The snapshots that a step stores. -/
def stored (device : Device) (context : Datum) (fleet : Fleet) : Step → List Bytes
  | checkpoint =>
    match device.snapshot context fleet with
    | .ok blob _ => [blob]
    | .error _ _ => []
  | _ => []

/-- What is asked of a step on a context among some snapshots: that the functions it calls leave a
safe interpreter safe, that the programs it starts are safe when they have been started, that it restores one of
the snapshots, and that it stores no foreign one. -/
structure Permitted (device : Device) (snapshots : List Bytes) (fleet : Fleet) (context : Datum) (step : Step) : Prop where
  calls : ∀ key request vm function args, step.request? context = some (key, request) →
    device.Calls key request context fleet vm function args → device.Safe vm →
    device.Safe (stateAfter (device.call function args vm))
  starts : ∀ vm, step.isStart context = true → device.Starts context vm → device.Safe vm
  reads : step = .restore → ∀ blob, device.Reads context blob → ∃ b ∈ snapshots, blob = .bytes b
  own : ∀ blob, step ≠ .attach blob

variable {step : Step} {snapshots : List Bytes}

/-- A step that is permitted leaves the interpreters guarded, and makes a context that names one of them
or none. -/
theorem minds_act (guarded : Guarded device base fleet) (owns : device.Owns base context)
    (taken : ∀ b ∈ snapshots, device.SafeSnapshot b) (permitted : step.Permitted device snapshots fleet context) :
    Minds device base (device.Owns base) (step.act device context fleet) := by
  have computes {key request : Datum} (is : step.request? context = some (key, request))
      (start : step.isStart context = true) :
      Minds device base (fun r : Computed => device.Owns base r.next.context) (device.compute key context request fleet) :=
    Device.minds_compute guarded owns (fun vm => permitted.starts vm start) fun vm function args =>
      permitted.calls key request vm function args is
  cases step with
  | init =>
    exact .bind _ (Device.minds_ensureLive guarded owns fun vm => permitted.starts vm rfl) fun s _ _ guarded' owns' =>
      .pure guarded' owns'
  | compute key request =>
    exact .bind _ (computes rfl rfl) fun r _ _ guarded' owns' => .pure guarded' owns'
  | resolve key request =>
    refine .bind (fun r : Computed => device.Owns base r.next.context) ?_ fun r _ _ guarded' owns' => .pure guarded' owns'
    refine .ofExcept_bind guarded fun shared view => ?_
    refine .ofExcept_bind guarded fun _ _ => ?_
    have asks (or : (Datum.lookup key shared).isNone = true ∨ Device.isReserved key = true) :
        (Step.resolve key request).request? context = some (key, request) := by
      rw [request?, view]
      exact if_pos (Bool.or_eq_true_iff.mpr or)
    have starts (or : (Datum.lookup key shared).isNone = true ∨ Device.isReserved key = true) :
        (Step.resolve key request).isStart context = true := by
      rw [isStart, asks or]
      · rfl
      · exact nofun
    cases found : Datum.lookup key shared with
    | none =>
      have or := Or.inl (b := Device.isReserved key = true) (congrArg Option.isNone found)
      exact computes (asks or) (starts or)
    | some v =>
      dsimp only
      split
      next reserved => exact computes (asks (.inr reserved)) (starts (.inr reserved))
      next => exact .pure guarded owns
  | restore =>
    refine .bind _ (Device.minds_restore guarded owns fun blob reads => ?_) fun s _ _ guarded' owns' =>
      .pure guarded' owns'
    obtain ⟨b, mem, is⟩ := permitted.reads rfl blob reads
    exact ⟨b, is, taken b mem⟩
  | checkpoint =>
    exact .bind _ (Device.minds_checkpoint guarded owns) fun s _ _ guarded' owns' => .pure guarded' owns'
  | attach blob => exact absurd rfl (permitted.own blob)
  | fork => exact .bind _ (Device.minds_fork guarded owns) fun s _ _ guarded' owns' => .pure guarded' owns'
  | reset => exact .ofExcept guarded fun _ => Device.owns_publicView

end Step

/-! ### Histories -/

/-- Contexts that were made one of another, the interpreters beside them, and the snapshots that were
stored on the way. -/
structure History where
  contexts : List Datum
  fleet : Fleet
  snapshots : List Bytes

namespace History

/-- A step on one of the contexts. A step that fails makes no new one. -/
def next (device : Device) (s : History) (move : Nat × Step) : History :=
  match s.contexts[move.1]? with
  | none => s
  | some context =>
    match move.2.act device context s.fleet with
    | .ok context' fleet => ⟨s.contexts ++ [context'], fleet, s.snapshots ++ move.2.stored device context s.fleet⟩
    | .error _ fleet => { s with fleet := fleet }

def run (device : Device) (moves : List (Nat × Step)) (s : History) : History := moves.foldl (next device) s

/-- Is what is asked of a step true of it? -/
def Permits (device : Device) (s : History) (move : Nat × Step) : Prop :=
  ∀ context, s.contexts[move.1]? = some context → move.2.Permitted device s.snapshots s.fleet context

/-- All interpreters that the contexts name are safe, and all snapshots were taken of safe ones. -/
structure Sound (device : Device) (base : Nat) (s : History) : Prop where
  guarded : Guarded device base s.fleet
  owns : ∀ c ∈ s.contexts, device.Owns base c
  taken : ∀ b ∈ s.snapshots, device.SafeSnapshot b

variable {s : History} {move : Nat × Step} {moves : List (Nat × Step)}

theorem Sound.next (sound : s.Sound device base) (permitted : s.Permits device move) : (s.next device move).Sound device base := by
  rw [History.next]
  cases here : s.contexts[move.1]? with
  | none => exact sound
  | some context =>
    have owns := sound.owns context (List.mem_of_getElem? here)
    have minds := Step.minds_act sound.guarded owns sound.taken (permitted context here)
    dsimp only
    cases done : move.2.act device context s.fleet with
    | error f fleet =>
      rw [done] at minds
      exact ⟨minds, sound.owns, sound.taken⟩
    | ok context' fleet =>
      rw [done] at minds
      refine ⟨minds.1, fun c mem => ?_, fun b mem => ?_⟩
      · rcases List.mem_append.mp mem with mem | mem
        · exact sound.owns c mem
        · exact List.mem_singleton.mp mem ▸ minds.2
      · rcases List.mem_append.mp mem with mem | mem
        · exact sound.taken b mem
        · unfold Step.stored at mem
          split at mem
          · have snapshot := Device.minds_snapshot sound.guarded owns
            split at mem
            next blob fleet' taken =>
              rw [taken] at snapshot
              exact List.mem_singleton.mp mem ▸ snapshot.2
            next => cases mem
          · cases mem

theorem Sound.run (sound : s.Sound device base)
    (permitted : ∀ earlier move later, moves = earlier ++ move :: later → (run device earlier s).Permits device move) :
    (run device moves s).Sound device base := by
  induction moves generalizing s with
  | nil => exact sound
  | cons move moves ih =>
    refine ih (sound.next (permitted [] move moves rfl)) fun earlier move' later is => ?_
    exact permitted (move :: earlier) move' later (congrArg (move :: ·) is)

end History

/-- Do all objects outside of some hold objects outside of them only? -/
def isShut (shut : List Ref) (h : Heap) : Bool :=
  !shut.contains (.table Fixed.globals) &&
    ((List.range h.tables.size).all fun t =>
      shut.contains (.table t) || (Snapshot.held (h.table t)).all fun r => !shut.contains r) &&
    h.cells.toList.all fun v => v.ref?.all fun r => !shut.contains r

/-- Objects that no others hold cannot be reached. -/
theorem confined_of_isShut {shut taken : List Ref} {h : Heap} (check : isShut shut h = true) (within : ∀ r ∈ taken, r ∈ shut) :
    h.Confined taken := by
  simp only [isShut, Bool.and_eq_true, Bool.not_eq_true', List.all_eq_true, List.mem_range, Bool.or_eq_true,
    List.contains_iff_mem] at check
  obtain ⟨⟨root, tables⟩, cells⟩ := check
  have outside (r : Ref) (reached : h.Reaches r) : r ∉ shut := by
    induction reached with
    | root => simpa using root
    | @step s r _ holds ih =>
      cases s with
      | table t =>
        have mem := Snapshot.mem_held_iff.mpr holds
        by_cases inside : t < h.tables.size
        · simpa using (tables t inside).resolve_left ih r mem
        · rw [Heap.table, Array.getD_eq_getD_getElem?, Array.getElem?_eq_none (Nat.le_of_not_lt inside)] at mem
          simp [Snapshot.mem_held, Table.toList] at mem
      | closure c =>
        generalize is : Value.ref r = v at holds
        cases holds with
        | @captured _ i x _ =>
          rw [Heap.cell, Array.getD_eq_getD_getElem?] at is
          cases found : h.cells[x]? with
          | none =>
            rw [found] at is
            cases is
          | some v =>
            rw [found] at is
            obtain rfl : Value.ref r = v := is
            have all := cells _ (List.mem_of_getElem? (Array.getElem?_toList ▸ found))
            simpa [Value.ref?] using all
      | _ => cases holds
  exact fun r mem reached => outside r reached (within r mem)

namespace Device

/-- A program with a function that takes back what the sandbox took away, and another one that counts. -/
def grabbing : String :=
  "function grab() held = debug.getregistry()._LOADED.io end function count() n = (n or 0) + 1 return n end"

def grabbingDevice : Device := ⟨.standard, none, Sandbox.defaults⟩

def grabbingContext : Datum := .mapping [(.text "script", .text grabbing), (.text "sandbox", .bool true)]

/-- The start of the program and a call of one of its functions, with the interpreter after each of them. -/
def trial (function : String) : EStateM.Result Fault Fleet (Successor × Vm × Computed × Vm) :=
  (do
    let before ← grabbingDevice.ensureLive grabbingContext
    let started ← DeviceM.vmOf (.live 0)
    let r ← grabbingDevice.compute (.text function) before.context .null
    return (before, started, r, ← DeviceM.vmOf (.live 0))) #[]

/-- What is taken away, and what leads there otherwise but cannot be reached itself. -/
def grabbingShut : List Ref :=
  Sandbox.taken grabbingDevice.defaults ++ [.table Fixed.handle, .table Fixed.handleMethods, .table Fixed.registry]

def isSafe (h : Heap) : Bool :=
  ["__index", "__newindex", "__len"].all (fun s => (h.table Fixed.sequence).get (.text s) = .nil) && isShut grabbingShut h

theorem safe_of_isSafe {vm : Vm} (check : isSafe vm.heap = true) : grabbingDevice.Safe vm := by
  obtain ⟨plain, shut⟩ := Bool.and_eq_true_iff.mp check
  simp only [List.all_cons, List.all_nil, Bool.and_true, Bool.and_eq_true, decide_eq_true_eq] at plain
  exact ⟨⟨plain.1, plain.2.1, plain.2.2⟩, confined_of_isShut shut fun r => List.mem_append_left _⟩

set_option maxRecDepth 100000 in
theorem trial_grab : (match trial "grab" with
    | .ok (_, started, r, called) _ => isSafe started.heap && names 0 (grabbingDevice.state? r.next.context) &&
      decide ((called.heap.table Fixed.globals).get (.text "held") = .table 5)
    | .error _ _ => false) = true ∧ (Sandbox.taken grabbingDevice.defaults).contains (.table 5) = true := by
  decide +kernel

set_option maxRecDepth 100000 in
theorem trial_count : (match trial "count" with
    | .ok (before, started, _, called) _ => isSafe started.heap && names 0 (grabbingDevice.state? before.context) &&
      isSafe called.heap
    | .error _ _ => false) = true := by
  decide +kernel

/-- Steps that count, store a snapshot and copy the context. -/
def countingMoves : List (Nat × Step) := [(0, .compute (.text "count") .null), (1, .checkpoint), (2, .fork)]

theorem vmOf_eq_ok {n : Nat} {vm : Vm} (done : DeviceM.vmOf (.live n) fleet = .ok vm fleet') :
    fleet[n]? = some vm ∧ fleet' = fleet := by
  rw [DeviceM.vmOf_live] at done
  cases here : fleet[n]? with
  | none =>
    rw [here] at done
    cases done
  | some vm' =>
    rw [here] at done
    cases done
    exact ⟨rfl, rfl⟩

theorem trial_eq_ok {function : String} {before : Successor} {started called : Vm} {r : Computed}
    (done : trial function = .ok (before, started, r, called) fleet') : ∃ fleet,
      grabbingDevice.ensureLive grabbingContext #[] = .ok before fleet ∧ fleet[0]? = some started ∧
      grabbingDevice.compute (.text function) before.context .null fleet = .ok r fleet' ∧ fleet'[0]? = some called := by
  obtain ⟨_, fleet, ensured, second⟩ := bind_eq_ok.mp done
  obtain ⟨_, _, first, third⟩ := bind_eq_ok.mp second
  obtain ⟨here, rfl⟩ := vmOf_eq_ok first
  obtain ⟨_, _, computed, fourth⟩ := bind_eq_ok.mp third
  obtain ⟨_, _, last, ended⟩ := bind_eq_ok.mp fourth
  obtain ⟨there, rfl⟩ := vmOf_eq_ok last
  cases ended
  exact ⟨_, ensured, here, computed, there⟩

/-- Neither storing a snapshot nor copying a context asks for anything. -/
theorem permitted_of_quiet {snapshots : List Bytes} {step : Step} (quiet : step = .checkpoint ∨ step = .fork) :
    step.Permitted device snapshots fleet context := by
  rcases quiet with rfl | rfl <;> exact ⟨nofun, nofun, nofun, nofun⟩

end Device

end LuaCapsule
