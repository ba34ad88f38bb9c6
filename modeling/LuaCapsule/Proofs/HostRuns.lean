import LuaCapsule.Vm.Call

/-! Runs of the host's own functions. What such a function does has a result and leaves the frames as
they were, or fails at lines of the host. A run of it under the trace function has a result only if
the function has one: the trace function returns, and no frame is there for the error to land at. -/

namespace LuaCapsule.Lua

variable {α β : Type} {st st' : State} {good : α → Heap → Prop} {good' : β → Heap → Prop}

/-- How an action of the host comes out in a state. A result is as it should be in the heap that is left;
a failure happens at lines of the host. -/
def Works (st : State) (good : α → Heap → Prop) (act : M α) : Prop :=
  match act st with
  | .ok a st' => st'.frames = st.frames ∧ good a st'.heap
  | .error _ st' => ∃ lines : List Nat, st'.frames = lines.map Frame.host ++ st.frames

namespace Works

theorem imp {act : M α} {better : α → Heap → Prop} (works : Works st good act) (imp : ∀ a h, good a h → better a h) :
    Works st better act := by
  unfold Works at *
  cases done : act st with
  | ok a st' =>
    rw [done] at works
    exact ⟨works.1, imp a _ works.2⟩
  | error f st' =>
    rw [done] at works
    exact works

theorem of_ok {act : M α} {a : α} (done : act st = .ok a st') (frames : st'.frames = st.frames) (fine : good a st'.heap) :
    Works st good act := by
  rw [Works, done]
  exact ⟨frames, fine⟩

theorem pure {a : α} (fine : good a st.heap) : Works st good (Pure.pure a : M α) := ⟨rfl, fine⟩

theorem throw (f : Failure) : Works st good (MonadExcept.throw f : M α) := ⟨[], rfl⟩

theorem bind {act : M α} {next : α → M β} (one : Works st good act)
    (others : ∀ a st', st'.frames = st.frames → good a st'.heap → Works st' good' (next a)) :
    Works st good' (act >>= next) := by
  show match EStateM.bind act next st with
    | .ok a st' => st'.frames = st.frames ∧ good' a st'.heap
    | .error _ st' => ∃ lines : List Nat, st'.frames = lines.map Frame.host ++ st.frames
  unfold Works at one others
  unfold EStateM.bind
  cases done : act st with
  | ok a st' =>
    rw [done] at one
    obtain ⟨same, fine⟩ := one
    have later := others a st' same fine
    dsimp only
    cases done' : next a st' with
    | ok b st'' =>
      rw [done'] at later
      exact ⟨later.1.trans same, later.2⟩
    | error f st'' =>
      rw [done'] at later
      obtain ⟨lines, above⟩ := later
      exact ⟨lines, by rw [above, same]⟩
  | error f st' =>
    rw [done] at one
    exact one

/-- Nothing comes after what has no result. -/
theorem never_bind {act : M α} {next : α → M β} (never : Works st (fun _ _ => False) act) : Works st good' (act >>= next) :=
  never.bind fun _ _ _ no => no.elim

/-- What only looks at the heap leaves it to what comes next. -/
theorem look_bind {act : M α} {a : α} {next : α → M β} (looks : Works st (fun r h => r = a ∧ h = st.heap) act)
    (others : ∀ st', st'.heap = st.heap → Works st' good' (next a)) : Works st good' (act >>= next) :=
  looks.bind fun _ st' _ found => found.1 ▸ others st' found.2

/-- What holds of the heap holds after a look at it. -/
theorem keep_bind {act : M α} {a : α} {next : α → M β} {kept : Heap → Prop} (looks : Works st (fun r h => r = a ∧ h = st.heap) act)
    (holds : kept st.heap) (others : ∀ st', kept st'.heap → Works st' good' (next a)) : Works st good' (act >>= next) :=
  looks.look_bind fun st' same => others st' (same ▸ holds)

theorem pure_bind {a : α} {next : α → M β} (others : Works st good' (next a)) : Works st good' (Pure.pure a >>= next) := others

theorem get_bind {next : State → M β} (others : Works st good' (next st)) : Works st good' (get >>= next) := others

theorem getHeap_bind {next : Heap → M β} (others : Works st good' (next st.heap)) :
    Works st good' (getHeap >>= next) := others

theorem modifyHeap_bind {f : Heap → Heap} {next : PUnit → M β} (others : Works { st with heap := f st.heap } good' (next ⟨⟩)) :
    Works st good' (modifyHeap f >>= next) := others

theorem make_bind {f : Heap → Nat × Heap} {next : Nat → M β}
    (others : Works { st with heap := (f st.heap).2 } good' (next (f st.heap).1)) : Works st good' (make f >>= next) := others

theorem modifyHeap {f : Heap → Heap} {good : PUnit → Heap → Prop} (fine : good ⟨⟩ (f st.heap)) :
    Works st good (Lua.modifyHeap f) := ⟨rfl, fine⟩

/-! ### Errors -/

theorem raise (v : Value) : Works st good (Lua.raise v) := ⟨[], rfl⟩

theorem raiseBare (message : Bytes) : Works st good (Lua.raiseBare message) := raise _

theorem position (level : Nat) : Works st (fun _ h => h = st.heap) (Lua.position level) := by
  unfold Lua.position
  split
  · exact pure rfl
  · refine get_bind ?_
    split
    · exact pure rfl
    · exact pure rfl

theorem raiseHere (message : Bytes) : Works st good (Lua.raiseHere message) :=
  (position 1).bind fun _ _ _ _ => raise _

/-! ### Lines -/

theorem atLine {act : M α} (line : Nat) (works : Works { st with frames := .host line :: st.frames } good act) :
    Works st good (Reporting.atLine line act) := by
  show match EStateM.bind act (fun r st => .ok r { st with frames := st.frames.tail })
      { st with frames := .host line :: st.frames } with
    | .ok a st' => st'.frames = st.frames ∧ good a st'.heap
    | .error _ st' => ∃ lines : List Nat, st'.frames = lines.map Frame.host ++ st.frames
  unfold Works at works
  unfold EStateM.bind
  cases done : act { st with frames := .host line :: st.frames } with
  | ok a st' =>
    rw [done] at works
    obtain ⟨same, fine⟩ := works
    exact ⟨by simp [same], fine⟩
  | error f st' =>
    rw [done] at works
    obtain ⟨lines, above⟩ := works
    exact ⟨lines ++ [line], by simp [above]⟩

/-! ### New tables and entries -/

theorem checkSize (n : Nat) : Works st (fun _ h => h = st.heap) (Lua.checkSize n) := by
  refine get_bind ?_
  split
  · split
    · exact throw _
    · exact pure rfl
  · exact pure rfl

theorem newTable (t : Table) : Works st (fun id h => id = st.heap.tables.size ∧ h = (st.heap.newTable t).2) (Lua.newTable t) := by
  refine get_bind ((checkSize (st.heap.tables.size * 14)).bind fun _ st' _ same => ?_)
  rw [← same]
  exact ⟨rfl, rfl, rfl⟩

theorem setEntry (id : Nat) (k : Key) (v : Value) : Works st (fun _ h => h = st.heap.rawSet id k v) (Lua.setEntry id k v) := by
  refine modifyHeap_bind (get_bind ?_)
  split
  · split
    · exact throw _
    · exact pure rfl
  · exact pure rfl

/-! ### Arguments -/

theorem argumentError (s : Site) (i : Nat) (message : Bytes) : Works st good (s.argumentError i message) := by
  refine get_bind ?_
  split
  · split
    · exact raiseHere _
    · exact raiseHere _
  · exact raiseHere _
  · exact raiseHere _

theorem typeError (s : Site) (i : Nat) (expected : String) : Works st good (s.typeError i expected) := by
  have named : Works st (fun _ h => h = st.heap) (s.argumentType i) := by
    unfold Site.argumentType
    split
    · exact pure rfl
    · refine getHeap_bind ?_
      split
      · exact pure rfl
      · exact pure rfl
  exact named.bind fun _ _ _ _ => argumentError s i _

theorem checkAny (s : Site) (i : Nat) : Works st (fun v h => h = st.heap ∧ s.arg? i = some v) (s.checkAny i) := by
  unfold Site.checkAny
  split
  next v given => exact pure ⟨rfl, given⟩
  next => exact argumentError s i _

theorem checkTable (s : Site) (i : Nat) : Works st (fun id h => h = st.heap ∧ s.arg i = .table id) (s.checkTable i) := by
  unfold Site.checkTable
  split
  next id given => exact pure ⟨rfl, given⟩
  next => exact typeError s i _

theorem checkFunction (s : Site) (i : Nat) :
    Works st (fun v h => h = st.heap ∧ v = s.arg i ∧ Heap.isFunction v = true) (s.checkFunction i) := by
  unfold Site.checkFunction
  dsimp only
  split
  next function => exact pure ⟨rfl, rfl, function⟩
  next => exact typeError s i _

theorem checkInt (s : Site) (i : Nat) :
    Works st (fun n h => h = st.heap ∧ ∃ v, numberOf? (s.arg i) = some v ∧ v.integer? = some n) (s.checkInt i) := by
  unfold Site.checkInt
  split
  next v given =>
    split
    next n whole => exact pure ⟨rfl, v, given, whole⟩
    next => exact argumentError s i _
  next => exact typeError s i _

theorem checkString (s : Site) (i : Nat) :
    Works st (fun b h => h = st.heap ∧ stringOf? (s.arg i) = some b) (s.checkString i) := by
  unfold Site.checkString
  split
  next b given => exact pure ⟨rfl, given⟩
  next => exact typeError s i _

end Works

theorem get_bind {β : Type} (next : State → M β) (st : State) : ((get : M State) >>= next) st = next st st := rfl

/-! ### The trace function -/

theorem exists_traceback_eq (s : Site) : ∃ offset, Debugging.traceback s =
    match s.arg (1 + offset), stringOf? (s.arg (1 + offset)) with
    | .nil, _ => Debugging.traceback.finish s none offset
    | _, some m => Debugging.traceback.finish s (some m) offset
    | v, none => return [v] := ⟨_, rfl⟩

theorem traceback_eq {s : Site} {v : Value} (only : s.arguments = [v]) (st : State) :
    ∃ vs, Debugging.traceback s st = .ok vs st := by
  have beyond (i : Nat) : s.arg (i + 2) = .nil := by simp [Site.arg, Site.arg?, only]
  have finished (m : Option Bytes) (offset : Nat) : ∃ vs, Debugging.traceback.finish s m offset st = .ok vs st := by
    have level : s.optInt (2 + offset) 1 st = .ok 1 st := by
      unfold Site.optInt Site.isAbsent
      rw [Nat.add_comm, beyond]
      rfl
    show ∃ vs, EStateM.bind (s.optInt (2 + offset) 1) _ st = _
    unfold EStateM.bind
    rw [level]
    exact ⟨_, rfl⟩
  obtain ⟨offset, is⟩ := exists_traceback_eq s
  rw [is]
  cases s.arg (1 + offset) with
  | nil => exact finished _ _
  | str b => exact finished _ _
  | int i => exact finished _ _
  | float x => exact finished _ _
  | bool b => exact ⟨_, rfl⟩
  | ref r => exact ⟨_, rfl⟩

namespace Machine

theorem nesting_hosts (lines : List Nat) (below : List Frame) : nesting (lines.map Frame.host ++ below) = nesting below := by
  induction lines with
  | nil => rfl
  | cons line lines ih => exact ih

theorem call_trace (d : Nat) (by' : Option Native) (v : Value) {st : State} (low : nesting st.frames + 1 < maxNesting) :
    ∃ vs, call (d + 1) by' (.native (.debug .traceback)) [v] st = .ok vs { st with latest := none } := by
  have fine (latest : Option Native) : checkNesting (nesting (Frame.boundary by' :: st.frames)) { st with frames := .boundary by' :: st.frames, latest := latest } =
      .ok ⟨⟩ { st with frames := .boundary by' :: st.frames, latest := latest } := by
    show checkNesting (nesting st.frames + 1) _ = _
    unfold checkNesting
    rw [if_neg (by simpa using Nat.ne_of_lt low), if_neg (by simp [maxHandling, maxNesting] at *; omega)]
    rfl
  let site : Site := ⟨.debug .traceback, none, [v], call d (some (.debug .traceback))⟩
  have only : site.arguments = [v] := rfl
  obtain ⟨vs, traced⟩ := traceback_eq only { st with frames := .boundary by' :: st.frames, latest := some (.debug .traceback) }
  refine ⟨vs, ?_⟩
  have begun : begin' (call d) none false true (.native (.debug .traceback)) [v] { st with frames := .boundary by' :: st.frames, latest := none } =
      .ok (.finished vs) { st with latest := none } := by
    show EStateM.bind (Debugging.traceback site) (fun vs => do
      modify fun st => { st with latest := none }
      deliver vs (← get).frames) { st with frames := .boundary by' :: st.frames, latest := some (.debug .traceback) } = _
    unfold EStateM.bind
    rw [traced]
    rfl
  show EStateM.bind (attempt (call d) (st.frames.length + 1) (do
    checkNesting (nesting (← get).frames)
    modify fun st => { st with latest := none }
    begin' (call d) none false true (.native (.debug .traceback)) [v])) (loop (call d) (st.frames.length + 1) maxSteps)
      { st with frames := .boundary by' :: st.frames } = _
  have attempted : attempt (call d) (st.frames.length + 1) (do
      checkNesting (nesting (← get).frames)
      modify fun st => { st with latest := none }
      begin' (call d) none false true (.native (.debug .traceback)) [v]) { st with frames := .boundary by' :: st.frames } =
        .ok (.finished vs) { st with latest := none } := by
    have act : (do
      checkNesting (nesting (← get).frames)
      modify fun st => { st with latest := none }
      begin' (call d) none false true (.native (.debug .traceback)) [v] : M Progress) { st with frames := .boundary by' :: st.frames } =
        .ok (.finished vs) { st with latest := none } := by
      show EStateM.bind (checkNesting (nesting (Frame.boundary by' :: st.frames))) _ { st with frames := .boundary by' :: st.frames } = _
      unfold EStateM.bind
      rw [fine]
      exact begun
    unfold attempt
    show EStateM.tryCatch _ _ _ = _
    unfold EStateM.tryCatch
    rw [act]
  unfold EStateM.bind
  rw [attempted]
  show loop _ _ _ (.finished vs) _ = _
  rfl

/-! ### Runs -/

theorem handler?_hosts (lines : List Nat) (handler : Option Value) :
    handler? (lines.map Frame.host ++ [.hostCall handler]) = handler := by
  induction lines with
  | nil => rfl
  | cons line lines ih => exact ih

theorem landing?_hosts (lines : List Nat) : landing? (lines.map Frame.host) = none := by
  induction lines with
  | nil => rfl
  | cons line lines ih =>
    show (landing? (lines.map Frame.host)).map _ = none
    rw [ih]
    rfl

section Runs

variable {handler : Option Value} {lines : List Nat} (trace : handler = none ∨ handler = some (.native (.debug .traceback)))

section Failed

variable (above : st.frames = lines.map Frame.host ++ [.hostCall handler])
include above

/-- An error of the host finds no place to land. -/
theorem land_hosts (f : Failure) : land callFunction 1 f st = .error f st := by
  have own : st.frames.take (st.frames.length - 1) = lines.map Frame.host := by
    rw [above]
    simp
  rw [land, get_bind, own, landing?_hosts]
  rfl

include trace

theorem handled_hosts (v : Value) : ∃ f st', handled callFunction v st = .ok f st' ∧ st'.frames = st.frames := by
  rw [handled, get_bind, above, handler?_hosts]
  obtain rfl | rfl := trace
  · exact ⟨_, _, rfl, above⟩
  · have low : nesting st.frames + 1 < maxNesting := by
      rw [above, nesting_hosts]
      decide
    obtain ⟨vs, traced⟩ := call_trace 299 st.latest v low
    refine ⟨.raised (vs.headD .nil) true, { st with latest := none }, ?_, above⟩
    show EStateM.tryCatch (EStateM.bind (call 300 st.latest _ [v]) _) _ st = _
    unfold EStateM.tryCatch EStateM.bind
    rw [traced]
    rfl

/-- What is left to do about an error of the host fails. -/
theorem recover_hosts (fuel : Nat) (f : Failure) : ∃ e st', recover callFunction 1 (fuel + 1) f st = .error e st' := by
  have landed (g : Failure) {st' : State} (same : st'.frames = st.frames) := land_hosts (same.trans above) g
  have unseen (g : Failure) {st' : State} (same : st'.frames = st.frames) (next : Recovery → M Progress) :
      ∃ e st'', (land callFunction 1 g >>= next) st' = .error e st'' := by
    refine ⟨g, st', ?_⟩
    show EStateM.bind (land callFunction 1 g) _ st' = _
    unfold EStateM.bind
    rw [landed g same]
  cases f with
  | memory => exact unseen .memory rfl _
  | exhausted => exact ⟨_, _, rfl⟩
  | raised v seen =>
    cases seen with
    | true => exact unseen (.raised v true) rfl _
    | false =>
      obtain ⟨g, st', reported, same⟩ := handled_hosts trace above v
      show ∃ e st'', EStateM.bind (handled callFunction v) _ st = .error e st''
      unfold EStateM.bind
      rw [reported]
      cases g with
      | exhausted => exact ⟨_, _, rfl⟩
      | memory => exact unseen .memory same _
      | raised v seen => exact unseen (.raised v seen) same _

end Failed

include trace

/-- What fails at lines of the host fails for good. -/
theorem attempt_hosts {act : M Progress} {p : Progress} (tried : attempt callFunction 1 act st = .ok p st')
    (fails : ∀ f st', act st = .error f st' → ∃ lines : List Nat, st'.frames = lines.map Frame.host ++ [.hostCall handler]) :
    act st = .ok p st' := by
  have tried : EStateM.tryCatch act (fun f => do recover callFunction 1 ((← get).frames.length + 1) f) st = .ok p st' := tried
  unfold EStateM.tryCatch at tried
  cases acted : act st with
  | ok q st₁ =>
    rw [acted] at tried
    exact tried
  | error f st₁ =>
    rw [acted] at tried
    obtain ⟨lines, above⟩ := fails f st₁ acted
    obtain ⟨e, st₂, failed⟩ := recover_hosts trace above st₁.frames.length f
    cases failed.symm.trans tried

/-- A run of the host under the trace function has a result only if what it does has one. -/
theorem good_of_asHost {act : M Unit} {good : Heap → Prop} (empty : st.frames = [])
    (works : ∀ st', st'.heap = st.heap → st'.frames = [.hostCall handler] → Works st' (fun _ h => good h) act)
    {vs : List Value} (done : asHost handler (do act; deliver [] (← get).frames) st = .ok vs st') : good st'.heap := by
  obtain ⟨heap, frames, cap, latest, isOverflowing⟩ := st
  obtain rfl : frames = [] := empty
  have works := works ⟨heap, [.hostCall handler], cap, none, isOverflowing⟩ rfl rfl
  unfold Works at works
  let act' : M Progress := do
    checkNesting 1
    modify fun st => { st with latest := none }
    act
    deliver [] (← get).frames
  -- Only the call, not what is left to do about an error, has a result.
  have ran : runAbove callFunction (.hostCall handler) (do act; deliver [] (← get).frames) ⟨heap, [], cap, latest, isOverflowing⟩ =
      .ok vs st' := by
    have done : EStateM.tryCatch _ _ _ = .ok vs st' := done
    unfold EStateM.tryCatch at done
    split at done
    next f st₁ failed =>
      have done : EStateM.bind (giveUp callFunction st₁.frames f (.hostCall handler) []) MonadExcept.throw st₁ = .ok vs st' := done
      unfold EStateM.bind at done
      split at done
      · cases done
      · cases done
    next => exact done
  have ran : EStateM.bind (attempt callFunction 1 act') (loop callFunction 1 maxSteps)
    ⟨heap, [.hostCall handler], cap, latest, isOverflowing⟩ = .ok vs st' := ran
  have acts : act' ⟨heap, [.hostCall handler], cap, latest, isOverflowing⟩ =
    EStateM.bind act (fun _ => do deliver [] (← get).frames) ⟨heap, [.hostCall handler], cap, none, isOverflowing⟩ := rfl
  unfold EStateM.bind at ran acts
  cases tried : attempt callFunction 1 act' ⟨heap, [.hostCall handler], cap, latest, isOverflowing⟩ with
  | error f st₁ =>
    rw [tried] at ran
    cases ran
  | ok p st₁ =>
    rw [tried] at ran
    cases acted : act ⟨heap, [.hostCall handler], cap, none, isOverflowing⟩ with
    | ok a st₂ =>
      rw [acted] at works acts
      obtain ⟨same, fine⟩ := works
      have delivered : act' ⟨heap, [.hostCall handler], cap, latest, isOverflowing⟩ =
          .ok (.finished []) { st₂ with frames := [] } := by
        rw [acts]
        show deliver [] st₂.frames st₂ = _
        rw [same]
        rfl
      have tried := attempt_hosts trace tried fun f st' failed => by cases delivered.symm.trans failed
      cases delivered.symm.trans tried
      cases ran
      exact fine
    | error f st₂ =>
      rw [acted] at works acts
      have tried := attempt_hosts trace tried fun f' st' failed => by
        cases acts.symm.trans failed
        exact works
      cases acts.symm.trans tried

end Runs

end Machine

end LuaCapsule.Lua
