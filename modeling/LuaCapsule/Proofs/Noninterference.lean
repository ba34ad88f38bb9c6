import LuaCapsule.Proofs.Runs

/-! What can be seen of a context from outside: answers, failures, its public entries and what goes
on in its interpreter. Two contexts that differ in their private slots alone, but for the place of
the interpreter, cannot be told apart by any queries one after the other, whichever interpreters of
whichever collections they name, as long as those are in the same state. -/

namespace LuaCapsule

/-! ### Queries -/

/-- What a context can be asked from outside. -/
inductive Query where
  | init
  | compute (key request : Datum)
  | resolve (key request : Datum)
  | info
  | snapshotPath

/-- The value that answers a query, and the next context. -/
def Query.ask (device : Device) (context : Datum) : Query → DeviceM Computed
  | init => do return ⟨.null, ← device.ensureLive context⟩
  | compute key request => device.compute key context request
  | resolve key request => device.resolve key context request
  | info => do return ⟨← DeviceM.ofExcept (Device.info context), context, true⟩
  | snapshotPath => do
    return ⟨.list ((← DeviceM.ofExcept (device.snapshotPath context)).map .text), context, true⟩

/-- The interpreter that a context names. -/
def Device.vm? (device : Device) (s : Scene) : Option Vm :=
  match device.state? s.context with
  | .ok (some (.live n)) => s.fleet[n]?
  | _ => none

/-- What can be seen of a query: its value and whether the context is the very one that was given,
or its failure; and what is public in the context after it, and the interpreter there. -/
structure Sight where
  answer : Except Fault (Datum × Bool)
  shared : Except Fault Datum
  vm : Option Vm

/-- The answer to a query and the scene after it. A context is left as it was by a failure. -/
def Query.run (device : Device) (s : Scene) (q : Query) : Except Fault (Datum × Bool) × Scene :=
  match q.ask device s.context s.fleet with
  | .ok r fleet => (.ok (r.value, r.next.isSame), ⟨r.next.context, fleet⟩)
  | .error f fleet => (.error f, ⟨s.context, fleet⟩)

/-- What is seen of queries one after the other. -/
def sights (device : Device) : List Query → Scene → List Sight
  | [], _ => []
  | q :: qs, s =>
    let (answer, s) := q.run device s
    ⟨answer, Private.publicView s.context, device.vm? s⟩ :: sights device qs s

/-! ### Scenes that look alike -/

/-- What two contexts hold in the place of an interpreter goes together: there is nothing in both,
or interpreters in the same state, or one value that is no interpreter. -/
inductive SameState (fleet fleet' : Fleet) : Option Datum → Option Datum → Prop
  | none : SameState fleet fleet' none none
  | live {n m : Nat} (same : fleet[n]? = fleet'[m]?) : SameState fleet fleet' (some (.live n)) (some (.live m))
  | dead {d : Datum} (dead : ∀ n, d ≠ .live n) : SameState fleet fleet' (some d) (some d)

/-- Contexts with the same public entries and with the same state in the place of an interpreter.
While they have none, programs come from the same store. -/
structure Alike (device : Device) (store : Option Artifact.Store) (s s' : Scene) : Prop where
  shared : Private.publicView s.context = Private.publicView s'.context
  state : ∃ d d', device.Carries d s.context ∧ device.Carries d' s'.context ∧ SameState s.fleet s'.fleet d d' ∧
    (d = none → device.store = store)

/-- How two operations come out alike: with results that go together, or with one and the same
fault. -/
def Alongside {α β : Type} (good : α → Fleet → β → Fleet → Prop) (bad : Fleet → Fleet → Prop) :
    EStateM.Result Fault Fleet α → EStateM.Result Fault Fleet β → Prop
  | .ok a fleet, .ok b fleet' => good a fleet b fleet'
  | .error f fleet, .error f' fleet' => f = f' ∧ bad fleet fleet'
  | _, _ => False

section Alongside

variable {α β γ δ : Type} {fleet fleet' : Fleet} {good : α → Fleet → β → Fleet → Prop} {good' : γ → Fleet → δ → Fleet → Prop}
  {bad : Fleet → Fleet → Prop}

theorem Alongside.bind {act : DeviceM α} {act' : DeviceM β} {next : α → DeviceM γ} {next' : β → DeviceM δ}
    (one : Alongside good bad (act fleet) (act' fleet'))
    (others : ∀ a f b f', good a f b f' → Alongside good' bad (next a f) (next' b f')) :
    Alongside good' bad ((act >>= next) fleet) ((act' >>= next') fleet') := by
  show Alongside good' bad (EStateM.bind act next fleet) (EStateM.bind act' next' fleet')
  rw [EStateM.bind, EStateM.bind]
  cases done : act fleet with
  | ok a f =>
    cases done' : act' fleet' with
    | ok b f' =>
      rw [done, done'] at one
      exact others a f b f' one
    | error e' f' =>
      rw [done, done'] at one
      exact one.elim
  | error e f =>
    cases done' : act' fleet' with
    | ok b f' =>
      rw [done, done'] at one
      exact one.elim
    | error e' f' =>
      rw [done, done'] at one
      exact one

theorem Alongside.imp {good₂ : α → Fleet → β → Fleet → Prop} {bad₂ : Fleet → Fleet → Prop} {r : EStateM.Result Fault Fleet α}
    {r' : EStateM.Result Fault Fleet β} (both : Alongside good bad r r') (better : ∀ a f b f', good a f b f' → good₂ a f b f')
    (worse : ∀ f f', bad f f' → bad₂ f f') : Alongside good₂ bad₂ r r' := by
  cases r <;> cases r' <;> first | exact both.elim | skip
  · exact better _ _ _ _ both
  · exact ⟨both.1, worse _ _ both.2⟩

/-- What depends on no interpreter goes on with one value, or fails twice in one way. -/
theorem Alongside.ofExcept_bind {e e' : Except Fault α} {next : α → DeviceM γ} {next' : α → DeviceM δ} (same : e = e')
    (failed : bad fleet fleet') (others : ∀ a, e = .ok a → e' = .ok a → Alongside good' bad (next a fleet) (next' a fleet')) :
    Alongside good' bad ((DeviceM.ofExcept e >>= next) fleet) ((DeviceM.ofExcept e' >>= next') fleet') := by
  subst same
  cases e with
  | ok a => exact others a rfl rfl
  | error f => exact ⟨rfl, failed⟩

/-- One operation of two interpreters that are in the same state. -/
theorem Alongside.within {d d' : Option Datum} (act : VmM α) (same : SameState fleet fleet' d d') :
    Alongside (fun a f b f' => a = b ∧ SameState f f' d d' ∧ ∃ vm vm', act vm = .ok a vm') (fun f f' => SameState f f' d d')
      (DeviceM.within (d.getD .null) act fleet) (DeviceM.within (d'.getD .null) act fleet') := by
  cases same with
  | none => exact ⟨rfl, .none⟩
  | @dead d dead =>
    cases d with
    | live n => exact absurd rfl (dead n)
    | _ => exact ⟨rfl, .dead dead⟩
  | @live n m same =>
    show Alongside _ _ (DeviceM.within (.live n) act fleet) (DeviceM.within (.live m) act fleet')
    rw [DeviceM.within_live, DeviceM.within_live]
    cases here : fleet[n]? with
    | none =>
      rw [← same, here]
      exact ⟨rfl, .live same⟩
    | some vm =>
      have there : fleet'[m]? = some vm := same ▸ here
      have after (vm' : Vm) : (fleet.setIfInBounds n vm')[n]? = (fleet'.setIfInBounds m vm')[m]? := by
        simp [(Array.getElem?_eq_some_iff.mp here).1, (Array.getElem?_eq_some_iff.mp there).1]
      rw [there]
      dsimp only
      cases done : act vm with
      | ok a vm' => exact ⟨rfl, .live (after vm'), vm, vm', done⟩
      | error f vm' => exact ⟨rfl, .live (after vm')⟩

end Alongside

/-! ### What reads the public entries only -/

section Public

variable {context context' : Datum} (same : Private.publicView context = Private.publicView context')
include same

theorem Private.publicEntries_congr : Private.publicEntries context = Private.publicEntries context' := by
  unfold Private.publicView at same
  cases entries : Private.publicEntries context <;> cases entries' : Private.publicEntries context' <;>
    rw [entries, entries'] at same <;> cases same <;> rfl

theorem Script.find_congr (store : Option Artifact.Store) : Script.find context store = Script.find context' store := by
  rw [Script.find, Script.find, same]

theorem Request.find?_congr (field : String) (request : Datum) :
    Request.find? field context request = Request.find? field context' request := by
  rw [Request.find?, Request.find?, same]

theorem Request.functionName_congr (key request : Datum) :
    Request.functionName key context request = Request.functionName key context' request := by
  rw [Request.functionName, Request.functionName, Request.find?_congr same]

theorem Request.parameters_congr (request : Datum) :
    Request.parameters context request = Request.parameters context' request := by
  rw [Request.parameters, Request.parameters, Request.find?_congr same, same]

theorem Device.snapshotPath_congr (device : Device) : device.snapshotPath context = device.snapshotPath context' := by
  rw [Device.snapshotPath, Device.snapshotPath, same]

theorem Device.info_congr : Device.info context = Device.info context' := by
  rw [Device.info, Device.info, Private.publicEntries_congr same]

end Public

/-- The private slot is no part of what is public. -/
theorem Private.publicView_insert (slot : Datum) (es : List (Datum × Datum)) :
    Private.publicView (.mapping (Datum.insert Private.key slot es)) = Private.publicView (.mapping es) := by
  show Except.ok (Datum.mapping _) = Except.ok (Datum.mapping _)
  rw [Datum.erase_insert rfl]

namespace Device

variable {device : Device} {store : Option Artifact.Store} {context vm : Datum}

theorem publicView_withState {context' : Datum} (done : device.withState context vm = .ok context') :
    Private.publicView context' = Private.publicView context := by
  cases context with
  | mapping es =>
    cases done
    exact Private.publicView_insert _ es
  | _ => cases done

theorem Carries.exists_withState {state : Option Datum} (carries : device.Carries state context) (vm : Datum) :
    ∃ context', device.withState context vm = .ok context' := by
  obtain ⟨slot, known, _⟩ := carries
  cases context with
  | mapping es => exact ⟨_, rfl⟩
  | _ => cases known

/-! ### Steps that look alike -/

variable {s s' : Scene}

/-- Starting a context leaves what is public alone. A failure after that would leave both contexts
as they were, and they would look alike still. -/
theorem ensureLive_alongside (alike : Alike device store s s') :
    Alongside (fun b f b' f' => b.isSame = b'.isSame ∧ Private.publicView b.context = Private.publicView b'.context ∧
        ∃ d d', device.Carries (some d) b.context ∧ device.Carries d' b'.context ∧ SameState f f' (some d) d' ∧
          ∀ g g', SameState g g' (some d) d' → Alike device store ⟨s.context, g⟩ ⟨s'.context, g'⟩)
      (fun f f' => Alike device store ⟨s.context, f⟩ ⟨s'.context, f'⟩)
      (device.ensureLive s.context s.fleet) ({ device with store := store }.ensureLive s'.context s'.fleet) := by
  obtain ⟨context, fleet⟩ := s
  obtain ⟨context', fleet'⟩ := s'
  obtain ⟨shared, d, d', carries, carries', same, stores⟩ := alike
  have live := carries.isInitialized_eq
  have live' : Device.isInitialized { device with store := store } context' = .ok d'.isSome := carries'.isInitialized_eq
  have later (g g' : Fleet) (same : SameState g g' d d') : Alike device store ⟨context, g⟩ ⟨context', g'⟩ :=
    ⟨shared, d, d', carries, carries', same, stores⟩
  cases same with
  | @live n m same =>
    rw [ensureLive_eq live, ensureLive_eq live']
    exact ⟨rfl, shared, _, _, carries, carries', .live same, later⟩
  | @dead d dead =>
    rw [ensureLive_eq live, ensureLive_eq live']
    exact ⟨rfl, shared, _, _, carries, carries', .dead dead, later⟩
  | none =>
    -- Both start a program, which is the same one in the same sandbox.
    have stores := stores rfl
    subst stores
    have cold := later fleet fleet' .none
    refine Alongside.ofExcept_bind (live.trans live'.symm) cold fun initialized known _ => ?_
    obtain rfl : initialized = false := Except.ok.inj (known.symm.trans live)
    refine Alongside.ofExcept_bind (Script.find_congr shared _) cold fun program _ _ => ?_
    refine Alongside.ofExcept_bind shared cold fun view _ _ => ?_
    refine Alongside.ofExcept_bind rfl cold fun vm _ _ => ?_
    obtain ⟨next, attached⟩ := carries.exists_withState (.live fleet.size)
    obtain ⟨next', attached'⟩ := carries'.exists_withState (.live fleet'.size)
    show Alongside _ _ ((DeviceM.ofExcept (device.withState context (.live fleet.size)) >>= _) (fleet.push vm))
      ((DeviceM.ofExcept (device.withState context' (.live fleet'.size)) >>= _) (fleet'.push vm))
    rw [attached, attached']
    refine ⟨rfl, ?_, _, _, carries.withState attached, carries'.withState attached', .live (by simp), fun g g' _ => later g g' .none⟩
    show Private.publicView next = Private.publicView next'
    rw [publicView_withState attached, publicView_withState attached', shared]

/-- Results that are the same make contexts that look alike. -/
theorem Carries.exists_successor {state : Option Datum} {before : Successor} (carries : device.Carries state before.context)
    (value : Datum) : ∃ next, Device.successor value before = .ok next := by
  obtain ⟨slot, known, _⟩ := carries
  cases value with
  | mapping es =>
    rw [Device.successor, known]
    exact ⟨_, rfl⟩
  | _ => exact ⟨_, rfl⟩

theorem publicView_successor {value : Datum} {before before' next next' : Successor}
    (shared : Private.publicView before.context = Private.publicView before'.context)
    (same : before.isSame = before'.isSame) (done : successor value before = .ok next)
    (done' : successor value before' = .ok next') :
    Private.publicView next.context = Private.publicView next'.context ∧ next.isSame = next'.isSame := by
  cases value with
  | mapping es =>
    rw [successor] at done done'
    cases known : Private.slot before.context with
    | error f =>
      rw [known] at done
      cases done
    | ok slot =>
      cases known' : Private.slot before'.context with
      | error f =>
        rw [known'] at done'
        cases done'
      | ok slot' =>
        rw [known] at done
        rw [known'] at done'
        cases done
        cases done'
        exact ⟨(Private.publicView_insert _ es).trans (Private.publicView_insert _ es).symm, rfl⟩
  | _ =>
    cases done
    cases done'
    exact ⟨shared, same⟩

/-- How answers to a query look alike. -/
def Answers (device : Device) (store : Option Artifact.Store) (r : Computed) (fleet : Fleet) (r' : Computed) (fleet' : Fleet) :
    Prop :=
  r.value = r'.value ∧ r.next.isSame = r'.next.isSame ∧ Alike device store ⟨r.next.context, fleet⟩ ⟨r'.next.context, fleet'⟩

/-- A call reads what is public in a context, and leaves the rest of it to the next one. -/
theorem serve_alongside {before before' : Successor} {fleet fleet' : Fleet} {d : Datum} {d' : Option Datum}
    (same : before.isSame = before'.isSame)
    (shared : Private.publicView before.context = Private.publicView before'.context)
    (carries : device.Carries (some d) before.context) (carries' : device.Carries d' before'.context)
    (state : SameState fleet fleet' (some d) d') (key request : Datum) :
    Alongside (Answers device store) (fun f f' => SameState f f' (some d) d')
      (device.serve key request before fleet) ({ device with store := store }.serve key request before' fleet') := by
  obtain ⟨e, rfl⟩ : ∃ e, d' = some e := by cases state <;> exact ⟨_, rfl⟩
  have known : Alongside (fun a f b f' => a = some d ∧ b = some e ∧ f = fleet ∧ f' = fleet')
      (fun f f' => SameState f f' (some d) (some e)) (DeviceM.ofExcept (device.state? before.context) fleet)
      (DeviceM.ofExcept (Device.state? { device with store := store } before'.context) fleet') := by
    rw [carries.state?_eq, show Device.state? { device with store := store } before'.context = _ from carries'.state?_eq]
    exact ⟨rfl, rfl, rfl, rfl⟩
  refine Alongside.bind known ?_
  rintro _ _ _ _ ⟨rfl, rfl, rfl, rfl⟩
  refine Alongside.ofExcept_bind (Request.functionName_congr shared key _) state fun function _ _ => ?_
  refine Alongside.ofExcept_bind (Request.parameters_congr shared _) state fun params _ _ => ?_
  refine Alongside.bind (Alongside.within (device.call function (Request.arguments params)) state) ?_
  rintro value f _ f' ⟨rfl, state, vm, vm', called⟩
  obtain ⟨next, done⟩ := carries.exists_successor value
  obtain ⟨next', done'⟩ := carries'.exists_successor value
  have fresh := distinct_of_call called
  obtain ⟨shared', same'⟩ := publicView_successor shared same done done'
  rw [done, done']
  exact ⟨rfl, same', shared', some d, some e, carries.successor fresh done, carries'.successor fresh done', state, nofun⟩

theorem compute_alongside (alike : Alike device store s s') (key request : Datum) :
    Alongside (Answers device store) (fun f f' => Alike device store ⟨s.context, f⟩ ⟨s'.context, f'⟩)
      (device.compute key s.context request s.fleet) ({ device with store := store }.compute key s'.context request s'.fleet) := by
  rw [compute_eq, compute_eq]
  refine Alongside.bind (ensureLive_alongside alike) ?_
  rintro before f before' f' ⟨same, shared, d, d', carries, carries', state, later⟩
  exact (serve_alongside same shared carries carries' state key request).imp (fun _ _ _ _ good => good) later

theorem resolve_alongside (alike : Alike device store s s') (key request : Datum) :
    Alongside (Answers device store) (fun f f' => Alike device store ⟨s.context, f⟩ ⟨s'.context, f'⟩)
      (device.resolve key s.context request s.fleet) ({ device with store := store }.resolve key s'.context request s'.fleet) := by
  have computed := compute_alongside alike key request
  refine Alongside.ofExcept_bind (Private.publicEntries_congr alike.shared) alike fun shared _ _ => ?_
  refine Alongside.ofExcept_bind rfl alike fun _ _ _ => ?_
  cases Datum.lookup key shared with
  | none => exact computed
  | some v =>
    by_cases reserved : isReserved key = true
    · simpa [reserved] using computed
    · simp only [reserved]
      exact ⟨rfl, rfl, alike⟩

end Device

/-! ### Runs -/

open Device

variable {device : Device} {store : Option Artifact.Store} {s s' : Scene}

/-- One query is answered alike in scenes that look alike. -/
theorem Query.ask_alongside (alike : Alike device store s s') (q : Query) :
    Alongside (Answers device store) (fun f f' => Alike device store ⟨s.context, f⟩ ⟨s'.context, f'⟩)
      (q.ask device s.context s.fleet) (q.ask { device with store := store } s'.context s'.fleet) := by
  cases q with
  | init =>
    refine Alongside.bind (ensureLive_alongside alike) ?_
    rintro before f before' f' ⟨same, shared, d, d', carries, carries', state, _⟩
    exact ⟨rfl, same, shared, some d, d', carries, carries', state, nofun⟩
  | compute key request => exact compute_alongside alike key request
  | resolve key request => exact resolve_alongside alike key request
  | info =>
    exact Alongside.ofExcept_bind (info_congr alike.shared) alike fun _ _ _ => ⟨rfl, rfl, alike⟩
  | snapshotPath =>
    exact Alongside.ofExcept_bind (snapshotPath_congr alike.shared device) alike fun _ _ _ => ⟨rfl, rfl, alike⟩

theorem Query.run_alike (alike : Alike device store s s') (q : Query) :
    (q.run device s).1 = (q.run { device with store := store } s').1 ∧
      Alike device store (q.run device s).2 (q.run { device with store := store } s').2 := by
  have both := q.ask_alongside alike
  rw [run, run]
  cases done : q.ask device s.context s.fleet with
  | ok r f =>
    cases done' : q.ask { device with store := store } s'.context s'.fleet with
    | ok r' f' =>
      rw [done, done'] at both
      obtain ⟨value, same, alike⟩ := both
      refine ⟨?_, alike⟩
      show Except.ok (r.value, r.next.isSame) = Except.ok (r'.value, r'.next.isSame)
      rw [value, same]
    | error e f' =>
      rw [done, done'] at both
      exact both.elim
  | error e f =>
    cases done' : q.ask { device with store := store } s'.context s'.fleet with
    | ok r' f' =>
      rw [done, done'] at both
      exact both.elim
    | error e' f' =>
      rw [done, done'] at both
      obtain ⟨rfl, alike⟩ := both
      exact ⟨rfl, alike⟩

/-- Interpreters of scenes that look alike are in the same state. -/
theorem Alike.vm?_eq (alike : Alike device store s s') : device.vm? s = { device with store := store }.vm? s' := by
  obtain ⟨_, d, d', carries, carries', same, _⟩ := alike
  have state' : Device.state? { device with store := store } s'.context = .ok d' := carries'.state?_eq
  rw [vm?, vm?, carries.state?_eq, state']
  cases same with
  | none => rfl
  | live same => exact same
  | @dead d dead =>
    cases d with
    | live n => exact absurd rfl (dead n)
    | _ => rfl

/-- Private entries other than the one in the place of the interpreter are seen nowhere: not in
answers or failures, not in what is public in the contexts that come next, and not in what goes on in
the interpreters. -/
theorem sights_eq (alike : Alike device store s s') (qs : List Query) :
    sights device qs s = sights { device with store := store } qs s' := by
  induction qs generalizing s s' with
  | nil => rfl
  | cons q qs ih =>
    obtain ⟨answer, alike'⟩ := q.run_alike alike
    rw [sights, sights]
    simp only [answer, alike'.shared, alike'.vm?_eq, ih alike']

/-- A context with one more private entry, and with another number for its interpreter. -/
def secretive : Scene :=
  ⟨.mapping [(.text "script", .text tampering),
      (Private.key, .mapping [(.text "secret", .text "key"), (.text "state", .live 1)])],
    #[⟨Lua.Fixed.heap, none⟩, tamperingVm]⟩

/-- Results that bring private entries of their own tell the two contexts apart no more than others. -/
theorem sights_secretive : Alike tamperingDevice none ⟨tamperingContext, #[tamperingVm]⟩ secretive ∧
    Private.get? (.text "secret") tamperingContext = .ok none ∧
    Private.get? (.text "secret") secretive.context = .ok (some (.text "key")) ∧
    sights tamperingDevice [.compute (.text "forge") .null, .info, .resolve (.text "priv") .null]
        ⟨tamperingContext, #[tamperingVm]⟩ =
      sights tamperingDevice [.compute (.text "forge") .null, .info, .resolve (.text "priv") .null] secretive := by
  have nodup : ([("secret", .text "key"), ("state", .live 1)] : List (String × Datum)).map Prod.fst |>.Nodup := by decide
  have distinct : Datum.Distinct [(.text "secret", .text "key"), (.text "state", .live 1)] := Datum.distinct_texts nodup
  have alike : Alike tamperingDevice none ⟨tamperingContext, #[tamperingVm]⟩ secretive := by
    refine ⟨rfl, some (.live 0), some (.live 1), ?_, ?_, .live (by simp [secretive]), nofun⟩
    · exact ⟨tamperingSlot, rfl, distinct_tampering, rfl⟩
    · exact ⟨_, rfl, distinct, rfl⟩
  exact ⟨alike, rfl, rfl, sights_eq alike _⟩

end LuaCapsule
