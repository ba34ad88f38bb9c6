import LuaCapsule.Device.Checkpoint
import LuaCapsule.Proofs.Decoding
import LuaCapsule.Proofs.PrivateSlot
import Mathlib.Data.List.Induction

/-! Runs of a device on one context. A context without an interpreter gets one by a start or by a
restore, and from then on every context of the run names that very interpreter. All that is done to
it are calls of its functions and listings of its heap, so that its program was loaded once and its
sandbox enforced once, before the first call. -/

namespace LuaCapsule

namespace DeviceM

theorem vmOf_live (n : Nat) (fleet : Fleet) : vmOf (.live n) fleet =
    match fleet[n]? with
    | some vm => .ok vm fleet
    | none => .error .noAttribute fleet := by
  change (match fleet[n]? with | some vm => return vm | none => throw .noAttribute : DeviceM Vm) fleet = _
  cases fleet[n]? <;> rfl

/-- An interpreter acts if there is one, and what it did before a failure stays done. -/
theorem within_live {α : Type} (n : Nat) (act : VmM α) (fleet : Fleet) : within (.live n) act fleet =
    match fleet[n]? with
    | some vm =>
      match act vm with
      | .ok a vm' => .ok a (fleet.setIfInBounds n vm')
      | .error f vm' => .error f (fleet.setIfInBounds n vm')
    | none => .error .noAttribute fleet := by
  change EStateM.bind (vmOf (.live n)) _ fleet = _
  rw [EStateM.bind, vmOf_live]
  cases fleet[n]? with
  | none => rfl
  | some vm =>
    dsimp only
    cases act vm <;> rfl

end DeviceM

/-! ### Uses of an interpreter -/

/-- The interpreters after an operation, however it came out. -/
def stateAfter {α σ : Type} : EStateM.Result Fault σ α → σ
  | .ok _ s => s
  | .error _ s => s

/-- What a device does to an interpreter that is there. -/
inductive Use where
  | call (function : String) (args : List Datum)
  | list

namespace Use

/-- An interpreter after a use. -/
def after (device : Device) (vm : Vm) : Use → Vm
  | call function args => stateAfter (device.call function args vm)
  | list => stateAfter (Snapshot.dumps vm)

def afterAll (device : Device) (uses : List Use) (vm : Vm) : Vm := uses.foldl (after device) vm

end Use

/-- Interpreters of which one was used. -/
def Used (device : Device) (n : Nat) (fleet fleet' : Fleet) : Prop :=
  ∃ uses, fleet' = fleet.modify n (Use.afterAll device uses)

variable {device : Device} {n : Nat} {fleet fleet' fleet'' : Fleet}

theorem Used.refl (device : Device) (n : Nat) (fleet : Fleet) : Used device n fleet fleet := by
  refine ⟨[], Array.ext (by simp) fun i bound bound' => ?_⟩
  simp [Array.getElem_modify, Use.afterAll]

theorem Used.trans (first : Used device n fleet fleet') (second : Used device n fleet' fleet'') :
    Used device n fleet fleet'' := by
  obtain ⟨uses, rfl⟩ := first
  obtain ⟨uses', rfl⟩ := second
  refine ⟨uses ++ uses', Array.ext (by simp) fun i bound bound' => ?_⟩
  simp only [Array.getElem_modify, Use.afterAll, List.foldl_append]
  split <;> rfl

/-- How an operation comes out that does no more to interpreters than to use one of them. -/
def Uses {α : Type} (device : Device) (n : Nat) (fleet : Fleet) (good : α → Prop) : EStateM.Result Fault Fleet α → Prop
  | .ok a fleet' => Used device n fleet fleet' ∧ good a
  | .error _ fleet' => Used device n fleet fleet'

section Uses

variable {α β : Type} {good good' : α → Prop} {good₂ : β → Prop}

theorem Uses.pure {a : α} (fine : good a) : Uses device n fleet good (.ok a fleet) := ⟨.refl device n fleet, fine⟩

theorem Uses.ofExcept {e : Except Fault α} (fine : ∀ a, e = .ok a → good a) :
    Uses device n fleet good (DeviceM.ofExcept e fleet) := by
  cases e with
  | ok a => exact ⟨.refl device n fleet, fine a rfl⟩
  | error f => exact .refl device n fleet

theorem Uses.bind {act : DeviceM α} {next : α → DeviceM β} (good : α → Prop) (one : Uses device n fleet good (act fleet))
    (others : ∀ a fleet', good a → Uses device n fleet' good₂ (next a fleet')) :
    Uses device n fleet good₂ ((act >>= next) fleet) := by
  change Uses device n fleet good₂ (EStateM.bind act next fleet)
  rw [EStateM.bind]
  cases done : act fleet with
  | ok a fleet' =>
    rw [done] at one
    have rest := others a fleet' one.2
    dsimp only
    cases done' : next a fleet' with
    | ok b fleet'' =>
      rw [done'] at rest
      exact ⟨one.1.trans rest.1, rest.2⟩
    | error f fleet'' =>
      rw [done'] at rest
      exact one.1.trans rest
  | error f fleet' =>
    rw [done] at one
    exact one

/-- An interpreter acts as one use of it says. -/
theorem Uses.within {act : VmM α} (use : Use) (is : ∀ vm, use.after device vm = stateAfter (act vm))
    (fine : ∀ vm a vm', act vm = .ok a vm' → good a) : Uses device n fleet good (DeviceM.within (.live n) act fleet) := by
  have used (vm : Vm) (here : fleet[n]? = some vm) :
      Used device n fleet (fleet.setIfInBounds n (stateAfter (act vm))) := by
    refine ⟨[use], Array.ext_getElem? fun i => ?_⟩
    rw [Array.getElem?_setIfInBounds, Array.getElem?_modify]
    split
    next same =>
      subst same
      rw [here, if_pos (Array.getElem?_eq_some_iff.mp here).1, ← is]
      rfl
    next => rfl
  rw [DeviceM.within_live]
  cases here : fleet[n]? with
  | none => exact .refl device n fleet
  | some vm =>
    have used := used vm here
    dsimp only
    cases done : act vm with
    | ok a vm' =>
      rw [done] at used
      exact ⟨used, fine vm a vm' done⟩
    | error f vm' =>
      rw [done] at used
      exact used

end Uses

/-! ### Contexts and their interpreters -/

namespace Device

/-- A context whose private slot has each key once and holds a state, or none, in the place of an
interpreter. -/
def Carries (device : Device) (state : Option Datum) (context : Datum) : Prop :=
  ∃ slot, Private.slot context = .ok slot ∧ Datum.Distinct slot ∧
    (Datum.lookup (.text device.settings.stateKey) slot).filter (fun d => !d.isNull) = state

variable {context : Datum} {state : Option Datum}

theorem state?_of_slot {slot : List (Datum × Datum)} (known : Private.slot context = .ok slot) : device.state? context =
    .ok ((Datum.lookup (.text device.settings.stateKey) slot).filter fun d => !d.isNull) := by
  rw [state?, Private.get?, known]
  rfl

theorem Carries.state?_eq (carries : device.Carries state context) : device.state? context = .ok state := by
  obtain ⟨slot, known, _, rfl⟩ := carries
  exact state?_of_slot known

theorem Carries.isInitialized_eq (carries : device.Carries state context) :
    device.isInitialized context = .ok state.isSome := by
  rw [isInitialized, carries.state?_eq]
  rfl

theorem carries_of_state? (known : device.state? context = .ok state)
    (distinct : ∀ slot, Private.slot context = .ok slot → Datum.Distinct slot) : device.Carries state context := by
  cases found : Private.slot context with
  | error f =>
    rw [state?, Private.get?, found] at known
    cases known
  | ok slot =>
    rw [state?_of_slot found] at known
    exact ⟨slot, found, distinct slot found, Except.ok.inj known⟩

/-- A context that is given an interpreter carries it. -/
theorem Carries.withState {context' : Datum} (carries : device.Carries state context)
    (done : device.withState context (.live n) = .ok context') : device.Carries (some (.live n)) context' := by
  obtain ⟨slot, known, distinct, _⟩ := carries
  cases context with
  | mapping es =>
    cases done
    obtain rfl : Private.slotOf es = slot := Except.ok.inj known
    refine ⟨_, congrArg Except.ok (Private.slotOf_insert _ es), Datum.distinct_insert distinct _ _, ?_⟩
    rw [Private.lookup_insert_text]
    rfl
  | _ => cases known

/-- A result that takes the slot along carries what was carried before. -/
theorem Carries.successor {value d : Datum} {before next : Successor} (carries : device.Carries (some d) before.context)
    (fresh : ∀ es, value = .mapping es → Datum.Distinct (Private.slotOf es))
    (done : Device.successor value before = .ok next) : device.Carries (some d) next.context := by
  cases value with
  | mapping es =>
    obtain ⟨slot, known, distinct, here⟩ := carries
    rw [Device.successor, known] at done
    cases done
    refine ⟨_, congrArg Except.ok (Private.slotOf_insert _ es), Datum.distinct_insertAll (fresh es rfl) slot, ?_⟩
    cases found : Datum.lookup (.text device.settings.stateKey) slot with
    | none =>
      rw [found] at here
      cases here
    | some v =>
      rw [Datum.lookup_insertAll distinct, found]
      rw [found] at here
      exact here
  | _ =>
    cases done
    exact carries

/-- The path of a stored snapshot begins with the key of the settings, and goes on. -/
theorem snapshotPath_eq {path : List String} (done : device.snapshotPath context = .ok path) :
    ∃ next rest, path = device.settings.snapshotKey :: next :: rest := by
  rw [snapshotPath] at done
  cases shared : Private.publicView context with
  | error f =>
    rw [shared] at done
    cases done
  | ok d =>
    rw [shared] at done
    cases done
    split
    · exact ⟨_, _, rfl⟩
    · exact ⟨_, _, rfl⟩

/-- A stored snapshot leaves the slot alone. -/
theorem Carries.attachSnapshot {blob : Datum} {next : Successor} (carries : device.Carries state context)
    (separate : device.settings.snapshotKey ≠ "priv") (done : device.attachSnapshot context blob = .ok next) :
    device.Carries state next.context := by
  obtain ⟨slot, known, distinct, here⟩ := carries
  cases context with
  | mapping es =>
    rw [Device.attachSnapshot] at done
    cases found : device.snapshotPath (.mapping es) with
    | error f =>
      rw [found] at done
      cases done
    | ok path =>
      obtain ⟨_, _, rfl⟩ := snapshotPath_eq found
      rw [found] at done
      cases done
      have other : Datum.sameKey (.text device.settings.snapshotKey) Private.key = false := beq_false_of_ne separate
      refine ⟨slot, ?_, distinct, here⟩
      rw [← known]
      refine congrArg Except.ok ?_
      rw [storeAt, Private.slotOf, Datum.lookup_insert, other]
      · rfl
      · rintro ⟨⟩
  | _ => cases known

/-! ### Operations on a context with an interpreter -/

/-- The part of a computation that comes after the start of an interpreter. -/
def serve (device : Device) (key request : Datum) (before : Successor) : DeviceM Computed := do
  let request := Request.normalize request
  let found ← DeviceM.ofExcept (device.state? before.context)
  let function ← DeviceM.ofExcept (Request.functionName key before.context request)
  let params ← DeviceM.ofExcept (Request.parameters before.context request)
  let value ← DeviceM.within (found.getD .null) (device.call function (Request.arguments params))
  return ⟨value, ← DeviceM.ofExcept (Device.successor value before)⟩

theorem compute_eq (key context request : Datum) :
    device.compute key context request = device.ensureLive context >>= device.serve key request := rfl

theorem distinct_of_call {function : String} {args : List Datum} {vm vm' : Vm} {value : Datum}
    (done : device.call function args vm = .ok value vm') (es : List (Datum × Datum)) (is : value = .mapping es) :
    Datum.Distinct (Private.slotOf es) := by
  subst is
  obtain ⟨table, vm₁, _, done⟩ := bind_eq_ok.mp done
  obtain ⟨result, vm₂, _, done⟩ := bind_eq_ok.mp done
  exact Codec.distinct_slotOf done

/-- A computation on a context that has an interpreter uses it, and the next context has it too. -/
theorem uses_serve {before : Successor} (carries : device.Carries (some (.live n)) before.context) (key request : Datum)
    (fleet : Fleet) : Uses device n fleet (fun r : Computed => device.Carries (some (.live n)) r.next.context)
      (device.serve key request before fleet) := by
  refine .bind (· = some (.live n)) (.ofExcept fun found is => ?_) ?_
  · exact Except.ok.inj (is.symm.trans carries.state?_eq)
  rintro _ fleet₁ rfl
  refine .bind (fun _ => True) (.ofExcept fun _ _ => trivial) fun function fleet₂ _ => ?_
  refine .bind (fun _ => True) (.ofExcept fun _ _ => trivial) fun params fleet₃ _ => ?_
  refine .bind (fun value => ∀ es, value = .mapping es → Datum.Distinct (Private.slotOf es))
    (.within (.call function (Request.arguments params)) (fun _ => rfl) fun _ _ _ => distinct_of_call) fun value fleet₄ fresh => ?_
  refine .bind (fun next => device.Carries (some (.live n)) next.context) (.ofExcept fun next done => ?_)
    fun next fleet₅ carries' => .pure carries'
  exact carries.successor fresh done

theorem restore_eq (live : device.isInitialized context = .ok true) (fleet : Fleet) :
    device.restore context fleet = .ok ⟨context, true⟩ fleet := by
  rw [restore, live]
  rfl

end Device

/-! ### Steps -/

/-- What a node can do with a context. -/
inductive Step where
  | init
  | compute (key request : Datum)
  | resolve (key request : Datum)
  | restore
  | checkpoint
  | attach (blob : Datum)
  | fork
  | reset

namespace Step

/-- The next context. -/
def act (device : Device) (context : Datum) : Step → DeviceM Datum
  | init => do return (← device.ensureLive context).context
  | compute key request => do return (← device.compute key context request).next.context
  | resolve key request => do return (← device.resolve key context request).next.context
  | restore => do return (← device.restore context).context
  | checkpoint => do return (← device.checkpoint context).context
  | attach blob => do return (← DeviceM.ofExcept (device.attachSnapshot context blob)).context
  | fork => do return (← device.fork context).context
  | reset => DeviceM.ofExcept (Private.publicView context)

/-- Does a step leave a context the interpreter that it has? -/
def keeps : Step → Bool
  | fork => false
  | reset => false
  | _ => true

variable {context : Datum}

/-- A step on a context that has an interpreter uses it, and the next context has it too. -/
theorem uses_act (separate : device.settings.snapshotKey ≠ "priv") (carries : device.Carries (some (.live n)) context)
    {step : Step} (keeps : step.keeps = true) (fleet : Fleet) :
    Uses device n fleet (device.Carries (some (.live n))) (step.act device context fleet) := by
  have live := carries.isInitialized_eq
  have compute (key request : Datum) (fleet : Fleet) :
      Uses device n fleet (fun r : Computed => device.Carries (some (.live n)) r.next.context)
        (device.compute key context request fleet) := by
    rw [Device.compute_eq]
    refine .bind (fun before => device.Carries (some (.live n)) before.context) ?_ fun before fleet' carries' =>
      Device.uses_serve carries' key request fleet'
    rw [Device.ensureLive_eq live]
    exact .pure carries
  cases step with
  | init =>
    refine .bind (fun s => device.Carries (some (.live n)) s.context) ?_ fun s fleet' here => .pure here
    rw [Device.ensureLive_eq live]
    exact .pure carries
  | compute key request => exact .bind _ (compute key request fleet) fun r fleet' here => .pure here
  | resolve key request =>
    refine .bind (fun r : Computed => device.Carries (some (.live n)) r.next.context) ?_ fun r fleet' here => .pure here
    refine .bind (fun _ => True) (.ofExcept fun _ _ => trivial) fun shared fleet₁ _ => ?_
    refine .bind (fun _ => True) (.ofExcept fun _ _ => trivial) fun _ fleet₂ _ => ?_
    cases Datum.lookup key shared with
    | none => split <;> exact compute key request fleet₂
    | some v =>
      split
      · exact compute key request fleet₂
      · exact .pure carries
  | restore =>
    refine .bind (fun s => device.Carries (some (.live n)) s.context) ?_ fun s fleet' here => .pure here
    rw [Device.restore_eq live]
    exact .pure carries
  | checkpoint =>
    refine .bind (fun s => device.Carries (some (.live n)) s.context) ?_ fun s fleet' here => .pure here
    refine .bind (fun _ => True) ?_ fun blob fleet' _ => .ofExcept fun next done => carries.attachSnapshot separate done
    refine .bind (· = some (.live n)) (.ofExcept fun found is => ?_) ?_
    · exact Except.ok.inj (is.symm.trans carries.state?_eq)
    rintro _ fleet₁ rfl
    exact .within .list (fun _ => rfl) fun _ _ _ _ => trivial
  | attach blob =>
    refine .bind (fun s => device.Carries (some (.live n)) s.context) (.ofExcept fun next done => ?_)
      fun s fleet' here => .pure here
    exact carries.attachSnapshot separate done
  | fork => cases keeps
  | reset => cases keeps

end Step

/-! ### How a context gets its interpreter -/

/-- An interpreter in which the program of a context was loaded and its sandbox enforced, in this
order, and which was only used after that. -/
def Launched (device : Device) (context : Datum) (vm : Vm) : Prop :=
  ∃ program shared first loaded entries confined uses, Script.find context device.store = .ok program ∧
    Private.publicView context = .ok shared ∧ Vm.fresh device.settings.maxMemory = .ok first ∧
    Vm.load program first = .ok () loaded ∧
    Sandbox.enforce device.defaults ((Path.field? "sandbox" shared).getD (.bool false)) loaded = .ok entries confined ∧
    vm = Use.afterAll device uses confined

/-- An interpreter that was made of the stored snapshot of a context, and was only used after that. -/
def Restored (device : Device) (context : Datum) (vm : Vm) : Prop :=
  ∃ path shared blob first uses, device.snapshotPath context = .ok path ∧ Private.publicView context = .ok shared ∧
    Path.follow path shared = some blob ∧ Snapshot.loads blob device.settings.maxMemory = .ok first ∧
    vm = Use.afterAll device uses first

/-- An interpreter that a context was given by a step. -/
def Step.Gives (device : Device) (context : Datum) (vm : Vm) : Step → Prop
  | init => Launched device context vm
  | compute _ _ => Launched device context vm
  | resolve _ _ => Launched device context vm
  | restore => Restored device context vm
  | _ => False

variable {context : Datum}

theorem Use.afterAll_append (device : Device) (uses uses' : List Use) (vm : Vm) :
    afterAll device uses' (afterAll device uses vm) = afterAll device (uses ++ uses') vm := by
  rw [afterAll, afterAll, afterAll, List.foldl_append]

/-- Uses do not change where an interpreter comes from. -/
theorem Step.Gives.used {step : Step} {vm : Vm} (gives : step.Gives device context vm) (uses : List Use) :
    step.Gives device context (Use.afterAll device uses vm) := by
  have launched (made : Launched device context vm) : Launched device context (Use.afterAll device uses vm) := by
    obtain ⟨program, shared, first, loaded, entries, confined, uses', found, view, fresh, load, enforce, rfl⟩ := made
    exact ⟨program, shared, first, loaded, entries, confined, _, found, view, fresh, load, enforce,
      Use.afterAll_append device uses' uses confined⟩
  cases step with
  | init => exact launched gives
  | compute => exact launched gives
  | resolve => exact launched gives
  | restore =>
    obtain ⟨path, shared, blob, first, uses', found, view, stored, loads, rfl⟩ := gives
    exact ⟨path, shared, blob, first, _, found, view, stored, loads, Use.afterAll_append device uses' uses first⟩
  | _ => exact gives.elim

theorem Used.getElem?_eq {vm : Vm} (used : Used device n fleet fleet') (here : fleet[n]? = some vm) :
    ∃ uses, fleet'[n]? = some (Use.afterAll device uses vm) := by
  obtain ⟨uses, rfl⟩ := used
  exact ⟨uses, by rw [Array.getElem?_modify, if_pos rfl, here]; rfl⟩

namespace Device

theorem start_of_fresh {program : String} {policy : Datum} {first : Vm}
    (fresh : Vm.fresh device.settings.maxMemory = .ok first) : device.start program policy =
    match (do Vm.load program; let _ ← Sandbox.enforce device.defaults policy : VmM Unit) first with
    | .ok _ vm => .ok vm
    | .error f _ => .error f := by
  rw [start, fresh]
  rfl

theorem start_eq_ok {program : String} {policy : Datum} {vm : Vm} (done : device.start program policy = .ok vm) :
    ∃ first loaded entries, Vm.fresh device.settings.maxMemory = .ok first ∧ Vm.load program first = .ok () loaded ∧
      Sandbox.enforce device.defaults policy loaded = .ok entries vm := by
  cases fresh : Vm.fresh device.settings.maxMemory with
  | error f =>
    rw [start, fresh] at done
    cases done
  | ok first =>
    rw [start_of_fresh fresh] at done
    split at done
    next ended =>
      cases done
      obtain ⟨_, loaded, load, ended⟩ := bind_eq_ok.mp ended
      obtain ⟨entries, confined, enforce, ended⟩ := bind_eq_ok.mp ended
      cases ended
      exact ⟨first, loaded, entries, rfl, load, enforce⟩
    next => cases done

/-- A context without an interpreter is given a new one by a start. -/
theorem ensureLive_spec {before : Successor} (carries : device.Carries none context)
    (done : device.ensureLive context fleet = .ok before fleet') :
    device.Carries (some (.live fleet.size)) before.context ∧ ∃ vm, fleet'[fleet.size]? = some vm ∧
      Launched device context vm := by
  rw [ensureLive] at done
  obtain ⟨_, live, done⟩ := DeviceM.ofExcept_bind_eq_ok.mp done
  cases live.symm.trans carries.isInitialized_eq
  obtain ⟨program, found, done⟩ := DeviceM.ofExcept_bind_eq_ok.mp done
  obtain ⟨shared, view, done⟩ := DeviceM.ofExcept_bind_eq_ok.mp done
  obtain ⟨vm, started, done⟩ := DeviceM.ofExcept_bind_eq_ok.mp done
  obtain ⟨_, _, added, done⟩ := bind_eq_ok.mp done
  cases added
  obtain ⟨context', attached, done⟩ := DeviceM.ofExcept_bind_eq_ok.mp done
  cases done
  obtain ⟨first, loaded, entries, fresh, load, enforce⟩ := start_eq_ok started
  exact ⟨carries.withState attached, vm, Array.getElem?_push_size,
    program, shared, first, loaded, entries, vm, [], found, view, fresh, load, enforce, rfl⟩

theorem restore_spec {after : Successor} (carries : device.Carries none context)
    (done : device.restore context fleet = .ok after fleet') :
    device.Carries (some (.live fleet.size)) after.context ∧ ∃ vm, fleet'[fleet.size]? = some vm ∧
      Restored device context vm := by
  rw [restore] at done
  obtain ⟨_, live, done⟩ := DeviceM.ofExcept_bind_eq_ok.mp done
  cases live.symm.trans carries.isInitialized_eq
  obtain ⟨path, found, done⟩ := DeviceM.ofExcept_bind_eq_ok.mp done
  obtain ⟨shared, view, done⟩ := DeviceM.ofExcept_bind_eq_ok.mp done
  cases stored : (Path.follow path shared).filter fun d => !d.isNull with
  | none =>
    rw [stored] at done
    cases done
  | some blob =>
    rw [stored] at done
    obtain ⟨vm, loads, done⟩ := DeviceM.ofExcept_bind_eq_ok.mp done
    obtain ⟨_, _, added, done⟩ := bind_eq_ok.mp done
    cases added
    obtain ⟨context', attached, done⟩ := DeviceM.ofExcept_bind_eq_ok.mp done
    cases done
    exact ⟨carries.withState attached, vm, Array.getElem?_push_size,
      path, shared, blob, vm, [], found, view, (Option.filter_eq_some_iff.mp stored).1, loads, rfl⟩

/-- A computation on a context without an interpreter starts one and uses it. -/
theorem compute_spec {key request : Datum} {r : Computed} (carries : device.Carries none context)
    (done : device.compute key context request fleet = .ok r fleet') :
    device.Carries (some (.live fleet.size)) r.next.context ∧ ∃ vm, fleet'[fleet.size]? = some vm ∧
      Launched device context vm := by
  rw [compute_eq] at done
  obtain ⟨before, fleet₁, started, done⟩ := bind_eq_ok.mp done
  obtain ⟨carries', vm, here, launched⟩ := ensureLive_spec carries started
  have uses := uses_serve carries' key request fleet₁
  rw [done] at uses
  obtain ⟨used, carries''⟩ := uses
  obtain ⟨uses, here'⟩ := used.getElem?_eq here
  have given : Step.init.Gives device context vm := launched
  exact ⟨carries'', _, here', given.used uses⟩

end Device

/-- A step on a context without an interpreter gives it a new one, or none. -/
theorem Step.gives_act (separate : device.settings.snapshotKey ≠ "priv") (carries : device.Carries none context)
    {step : Step} (keeps : step.keeps = true) {context' : Datum} (done : step.act device context fleet = .ok context' fleet') :
    device.Carries none context' ∨ device.Carries (some (.live fleet.size)) context' ∧
      ∃ vm, fleet'[fleet.size]? = some vm ∧ step.Gives device context vm := by
  cases step with
  | init =>
    obtain ⟨before, _, started, done⟩ := bind_eq_ok.mp done
    cases done
    exact .inr (Device.ensureLive_spec carries started)
  | compute key request =>
    obtain ⟨r, _, computed, done⟩ := bind_eq_ok.mp done
    cases done
    exact .inr (Device.compute_spec carries computed)
  | resolve key request =>
    obtain ⟨r, _, resolved, done⟩ := bind_eq_ok.mp done
    cases done
    rw [Device.resolve] at resolved
    obtain ⟨shared, _, resolved⟩ := DeviceM.ofExcept_bind_eq_ok.mp resolved
    obtain ⟨_, _, resolved⟩ := DeviceM.ofExcept_bind_eq_ok.mp resolved
    cases found : Datum.lookup key shared with
    | none =>
      rw [found] at resolved
      dsimp only at resolved
      exact .inr (Device.compute_spec carries resolved)
    | some v =>
      rw [found] at resolved
      dsimp only at resolved
      split at resolved
      · exact .inr (Device.compute_spec carries resolved)
      · cases resolved
        exact .inl carries
  | restore =>
    obtain ⟨after, _, restored, done⟩ := bind_eq_ok.mp done
    cases done
    exact .inr (Device.restore_spec carries restored)
  | checkpoint =>
    obtain ⟨after, _, stored, done⟩ := bind_eq_ok.mp done
    obtain ⟨blob, _, snapshot, _⟩ := bind_eq_ok.mp stored
    rw [Device.snapshot] at snapshot
    obtain ⟨_, found, snapshot⟩ := DeviceM.ofExcept_bind_eq_ok.mp snapshot
    cases found.symm.trans carries.state?_eq
    cases snapshot
  | attach blob =>
    obtain ⟨after, _, stored, done⟩ := bind_eq_ok.mp done
    cases done
    exact .inl (carries.attachSnapshot separate (DeviceM.ofExcept_eq_ok.mp stored).1)
  | fork => cases keeps
  | reset => cases keeps

/-! ### Runs -/

/-- A context and the interpreters beside it. -/
structure Scene where
  context : Datum
  fleet : Fleet

/-- A step that fails leaves the context as it was. -/
def Step.run (device : Device) (s : Scene) (step : Step) : Scene :=
  match step.act device s.context s.fleet with
  | .ok context fleet => ⟨context, fleet⟩
  | .error _ fleet => ⟨s.context, fleet⟩

/-- One step after the other. -/
def run (device : Device) (steps : List Step) (s : Scene) : Scene := steps.foldl (Step.run device) s

variable {s : Scene} {step : Step} {steps : List Step}

theorem run_append (device : Device) (steps later : List Step) (s : Scene) :
    run device (steps ++ later) s = run device later (run device steps s) := List.foldl_append ..

/-- A step keeps the interpreter of a context. -/
theorem Step.run_keeps (separate : device.settings.snapshotKey ≠ "priv")
    (carries : device.Carries (some (.live n)) s.context) (keeps : step.keeps = true) :
    device.Carries (some (.live n)) (step.run device s).context ∧ Used device n s.fleet (step.run device s).fleet := by
  have uses := Step.uses_act separate carries keeps s.fleet
  rw [Step.run]
  cases done : step.act device s.context s.fleet with
  | ok context fleet =>
    rw [done] at uses
    exact ⟨uses.2, uses.1⟩
  | error f fleet =>
    rw [done] at uses
    exact ⟨carries, uses⟩

/-- So does a run. -/
theorem run_keeps (separate : device.settings.snapshotKey ≠ "priv") (carries : device.Carries (some (.live n)) s.context)
    (keeps : ∀ step ∈ steps, step.keeps = true) :
    device.Carries (some (.live n)) (run device steps s).context ∧ Used device n s.fleet (run device steps s).fleet := by
  induction steps generalizing s with
  | nil => exact ⟨carries, .refl device n s.fleet⟩
  | cons step steps ih =>
    obtain ⟨first, rest⟩ := List.forall_mem_cons.mp keeps
    obtain ⟨carries', used⟩ := Step.run_keeps separate carries first
    obtain ⟨carries'', used'⟩ := ih carries' rest
    exact ⟨carries'', used.trans used'⟩

/-- A run from a context without an interpreter ends without one, or it has a step that gave the
context the interpreter that it has at the end. -/
theorem run_gives (separate : device.settings.snapshotKey ≠ "priv") (carries : device.Carries none s.context)
    (keeps : ∀ step ∈ steps, step.keeps = true) : device.Carries none (run device steps s).context ∨
      ∃ before step later vm, steps = before ++ step :: later ∧ device.Carries none (run device before s).context ∧
        device.Carries (some (.live (run device before s).fleet.size)) (run device steps s).context ∧
        (run device steps s).fleet[(run device before s).fleet.size]? = some vm ∧
        step.Gives device (run device before s).context vm := by
  induction steps using List.reverseRecOn with
  | nil => exact .inl carries
  | append_singleton steps step ih =>
    have first := ih fun step mem => keeps step (List.mem_append_left _ mem)
    have last := keeps step (List.mem_append_right _ (List.mem_singleton_self _))
    rw [run_append]
    change device.Carries none (step.run device (run device steps s)).context ∨ _
    rcases first with cold | ⟨before, giver, later, vm, rfl, cold, live, here, gives⟩
    · cases done : step.act device (run device steps s).context (run device steps s).fleet with
      | error f fleet =>
        refine .inl ?_
        rw [Step.run, done]
        exact cold
      | ok context fleet =>
        have ended : step.run device (run device steps s) = ⟨context, fleet⟩ := by rw [Step.run, done]
        rcases Step.gives_act separate cold last done with none | ⟨live, vm, here, gives⟩
        · exact .inl (ended ▸ none)
        · refine .inr ⟨steps, step, [], vm, rfl, cold, ?_, ?_, gives⟩
          · change device.Carries _ (step.run device _).context
            exact ended ▸ live
          · change (step.run device _).fleet[_]? = _
            exact ended ▸ here
    · obtain ⟨live', used⟩ := Step.run_keeps separate live last
      obtain ⟨uses, here'⟩ := used.getElem?_eq here
      exact .inr ⟨before, giver, later ++ [step], _, by simp, cold, live', here', gives.used uses⟩

/-- A run from a context without an interpreter gives it one at most, by a step that starts it with
the program and the sandbox of the context at that time or that makes it of the stored snapshot. As
soon as a context of the run names an interpreter, all later ones name that one, all that is done to
interpreters is to use it, and neither a start nor a restore does anything. -/
theorem one_interpreter (separate : device.settings.snapshotKey ≠ "priv") {context : Datum}
    (cold : device.state? context = .ok none) (distinct : ∀ slot, Private.slot context = .ok slot → Datum.Distinct slot)
    (keeps : ∀ step ∈ steps, step.keeps = true) (fleet : Fleet) :
    (device.state? (run device steps ⟨context, fleet⟩).context = .ok none ∨
      ∃ before step later vm, steps = before ++ step :: later ∧
        device.state? (run device before ⟨context, fleet⟩).context = .ok none ∧
        device.state? (run device steps ⟨context, fleet⟩).context =
          .ok (some (.live (run device before ⟨context, fleet⟩).fleet.size)) ∧
        (run device steps ⟨context, fleet⟩).fleet[(run device before ⟨context, fleet⟩).fleet.size]? = some vm ∧
        step.Gives device (run device before ⟨context, fleet⟩).context vm) ∧
    ∀ before later, steps = before ++ later → ∀ d,
      device.state? (run device before ⟨context, fleet⟩).context = .ok (some d) →
      device.state? (run device steps ⟨context, fleet⟩).context = .ok (some d) ∧
      (∃ n, d = .live n ∧ Used device n (run device before ⟨context, fleet⟩).fleet (run device steps ⟨context, fleet⟩).fleet) ∧
      ∀ fleet', device.ensureLive (run device steps ⟨context, fleet⟩).context fleet' =
          .ok ⟨(run device steps ⟨context, fleet⟩).context, true⟩ fleet' ∧
        device.restore (run device steps ⟨context, fleet⟩).context fleet' =
          .ok ⟨(run device steps ⟨context, fleet⟩).context, true⟩ fleet' := by
  have carries := Device.carries_of_state? cold distinct
  constructor
  · rcases run_gives separate (s := ⟨context, fleet⟩) carries keeps with
      none | ⟨before, step, later, vm, split, none, live, here, gives⟩
    · exact .inl none.state?_eq
    · exact .inr ⟨before, step, later, vm, split, none.state?_eq, live.state?_eq, here, gives⟩
  · rintro before later rfl d live
    have earlier : ∀ step ∈ before, step.keeps = true := fun step mem => keeps step (List.mem_append_left _ mem)
    rcases run_gives separate (s := ⟨context, fleet⟩) carries earlier with none | ⟨_, _, _, _, _, _, named, _⟩
    · cases none.state?_eq.symm.trans live
    · cases named.state?_eq.symm.trans live
      have rest : ∀ step ∈ later, step.keeps = true := fun step mem => keeps step (List.mem_append_right _ mem)
      obtain ⟨named', used⟩ := run_keeps separate named rest
      rw [run_append]
      exact ⟨named'.state?_eq, ⟨_, rfl, used⟩, fun fleet' =>
        ⟨Device.ensureLive_eq named'.isInitialized_eq fleet', Device.restore_eq named'.isInitialized_eq fleet'⟩⟩

/-! ### A run -/

namespace Device

/-- The program of the two functions before it is started. -/
def tamperingCold : Scene := ⟨.mapping [(.text "script", .text tampering)], #[]⟩

def names (n : Nat) : Except Fault (Option Datum) → Bool
  | .ok (some (.live m)) => m == n
  | _ => false

theorem eq_of_names {n : Nat} {state : Except Fault (Option Datum)} (is : names n state = true) :
    state = .ok (some (.live n)) := by
  unfold names at is
  split at is
  next m => rw [beq_iff_eq.mp is]
  next => cases is

set_option maxRecDepth 100000 in
theorem state?_tampering :
    tamperingDevice.state? (run tamperingDevice [.init] tamperingCold).context = .ok (some (.live 0)) :=
  eq_of_names (by decide +kernel)

/-- A context keeps its interpreter through a result that has something else in its place. -/
theorem one_interpreter_tampering : tamperingDevice.settings.snapshotKey ≠ "priv" ∧
    tamperingDevice.state? tamperingCold.context = .ok none ∧
    tamperingDevice.state? (run tamperingDevice [.init] tamperingCold).context = .ok (some (.live 0)) ∧
    tamperingDevice.state? (run tamperingDevice [.init, .compute (.text "override") .null, .checkpoint, .restore]
      tamperingCold).context = .ok (some (.live 0)) := by
  have separate : tamperingDevice.settings.snapshotKey ≠ "priv" := by decide
  have cold : tamperingDevice.state? tamperingCold.context = .ok none := rfl
  have distinct : ∀ slot, Private.slot tamperingCold.context = .ok slot → Datum.Distinct slot := by
    intro slot known
    cases known
    exact .nil
  have keeps : ∀ step ∈ ([.init, .compute (.text "override") .null, .checkpoint, .restore] : List Step), step.keeps = true := by
    simp [Step.keeps]
  have later := (one_interpreter separate cold distinct keeps #[]).2 [.init] _ rfl (.live 0) state?_tampering
  exact ⟨separate, cold, state?_tampering, later.1⟩

end Device

end LuaCapsule
