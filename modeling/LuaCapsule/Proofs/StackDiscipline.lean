import LuaCapsule.Vm.Basic

/-! What library functions do to the frames. A function of the library leaves the frames as it finds them. When
it fails, others may stand above them, left by the calls that it made, but none of those catches the error. An
error that a handler has seen on the way is the handler's answer, and the heap is as the handler left it. -/

namespace LuaCapsule.Lua

variable {α β : Type} {st st' : State} {frames top : List Frame} {v : Value} {f : Failure}

/-! ### Frames -/

/-- Is an error caught at a frame, or its handler found there? -/
def Frame.catches : Frame → Bool
  | protected' _ => true
  | resumed .. => true
  | hostCall _ => true
  | _ => false

/-- Do errors pass some frames? -/
def Transparent (top : List Frame) : Prop := ∀ f ∈ top, f.catches = false

theorem transparent_nil : Transparent [] := nofun

theorem Transparent.append {top' : List Frame} (one : Transparent top) (other : Transparent top') :
    Transparent (top ++ top') := fun f mem =>
  (List.mem_append.mp mem).elim (one f) (other f)

theorem handler?_append (transparent : Transparent top) : Machine.handler? (top ++ frames) = Machine.handler? frames := by
  induction top with
  | nil => rfl
  | cons fr top ih =>
    obtain ⟨one, others⟩ := List.forall_mem_cons.mp transparent
    rw [← ih others]
    cases fr <;> first | rfl | cases one

/-! ### Errors that were seen -/

/-- Is a value what a handler answers to an error that is raised where it sees errors, in the heap that it
leaves? An overflow while an error is handled has a value of its own. -/
inductive AnsweredBy (handler : Value) : Value → Heap → Prop
  | overflow {h : Heap} : AnsweredBy handler (.text "error in error handling") h
  | made {d : Nat} {e : Value} {vs : List Value} {st st' : State} (sees : Machine.handler? st.frames = some handler)
    (ran : Machine.call d st.latest handler [e] st = .ok vs st') : AnsweredBy handler (vs.headD .nil) st'.heap

/-- Has a failure left some frames as they were, but for others above them that it passes? An error that was
seen is the answer of the handler. -/
structure FailsAbove (frames : List Frame) (f : Failure) (st : State) : Prop where
  above : f = .exhausted ∨ ∃ top, st.frames = top ++ frames ∧ Transparent top
  seen : ∀ v, f = .raised v true → ∀ handler, Machine.handler? frames = some handler → AnsweredBy handler v st.heap

theorem FailsAbove.of_unseen (unseen : ∀ v, f ≠ .raised v true) (same : st.frames = frames) : FailsAbove frames f st where
  above := .inr ⟨[], same, transparent_nil⟩
  seen v is := absurd is (unseen v)

theorem FailsAbove.trans {f' : Failure} (one : FailsAbove frames f st) (other : FailsAbove st.frames f' st') (goes : f ≠ .exhausted) :
    FailsAbove frames f' st' := by
  obtain ⟨top, here, transparent⟩ := one.above.resolve_left goes
  refine ⟨other.above.imp_right ?_, fun v is handler found => other.seen v is handler ?_⟩
  · rintro ⟨top', above, transparent'⟩
    exact ⟨top' ++ top, by rw [above, here, List.append_assoc], transparent'.append transparent⟩
  · rw [here, handler?_append transparent, found]

/-- Are some frames left as they were, whether something succeeds or fails? -/
def Kept (frames : List Frame) : EStateM.Result Failure State α → Prop
  | .ok _ st => st.frames = frames
  | .error f st => FailsAbove frames f st

/-- Does an action leave the frames as it finds them? -/
def Steady (act : M α) : Prop := ∀ st, Kept st.frames (act st)

theorem Kept.bind {act : M α} {next : α → M β} (one : Kept frames (act st))
    (others : ∀ a st', st'.frames = frames → Kept frames (next a st')) : Kept frames ((act >>= next) st) := by
  change Kept frames (EStateM.bind act next st)
  unfold EStateM.bind
  cases done : act st with
  | ok a st' =>
    rw [done] at one
    exact others a st' one
  | error f st' =>
    rw [done] at one
    exact one

theorem Kept.get_bind {next : State → M α} (others : Kept frames (next st st)) : Kept frames ((get >>= next) st) := others

namespace Steady

@[grind ←] theorem pure (a : α) : Steady (Pure.pure a : M α) := fun _ => rfl

theorem bind {act : M α} {next : α → M β} (one : Steady act) (others : ∀ a, Steady (next a)) :
    Steady (act >>= next) := fun st => (one st).bind fun a st' same => same ▸ others a st'

grind_pattern bind => Steady (act >>= next)

@[grind ←] theorem map {g : α → β} {act : M α} (one : Steady act) : Steady (g <$> act) := one.bind fun a => pure (g a)

theorem forIn {γ : Type} {l : List γ} {b : β} {act : γ → β → M (ForInStep β)} (each : ∀ a b, Steady (act a b)) :
    Steady (ForIn.forIn l b act) := by
  induction l generalizing b with
  | nil => exact pure b
  | cons a l ih =>
    rw [List.forIn_cons]
    refine (each a b).bind fun r => ?_
    cases r with
    | done b => exact pure b
    | yield b => exact ih

grind_pattern forIn => Steady (ForIn.forIn l b act)

theorem mapM {γ : Type} {l : List γ} {act : γ → M β} (each : ∀ a, Steady (act a)) : Steady (l.mapM act) := by
  induction l with
  | nil => exact pure []
  | cons a l ih =>
    rw [List.mapM_cons]
    exact (each a).bind fun b => ih.bind fun bs => pure (b :: bs)

grind_pattern mapM => Steady (l.mapM act)

end Steady

@[grind ←] theorem steady_get : Steady (get : M State) := fun _ => rfl

@[grind ←] theorem steady_getHeap : Steady getHeap := fun _ => rfl

@[grind ←] theorem steady_modifyHeap (f : Heap → Heap) : Steady (modifyHeap f) := fun _ => rfl

@[grind ←] theorem steady_make (f : Heap → Nat × Heap) : Steady (make f) := fun _ => rfl

theorem steady_throw (unseen : ∀ v, f ≠ .raised v true) : Steady (throw f : M α) := fun _ => .of_unseen unseen rfl

@[grind ←] theorem steady_memory : Steady (throw .memory : M α) := steady_throw nofun

@[grind ←] theorem steady_exhausted : Steady (throw .exhausted : M α) := steady_throw nofun

@[grind ←] theorem steady_raise (v : Value) : Steady (raise v : M α) := steady_throw fun w => by
  split <;> exact nofun

@[grind ←] theorem steady_position (level : Nat) : Steady (position level) := by
  unfold position
  split
  · exact .pure _
  · refine steady_get.bind fun st => ?_
    split
    · exact .pure _
    · exact .pure _

@[grind ←] theorem steady_raiseBare (message : Bytes) : Steady (raiseBare message : M α) := steady_raise _

@[grind ←] theorem steady_raiseHere (message : Bytes) : Steady (raiseHere message : M α) := by
  unfold raiseHere
  exact (steady_position 1).bind fun b => steady_raise _

@[grind ←] theorem steady_raiseText (message : String) : Steady (raiseText message : M α) := steady_raiseHere _

@[grind ←] theorem steady_tableOf (id : Nat) : Steady (tableOf id) := fun _ => rfl

@[grind ←] theorem steady_checkSize (n : Nat) : Steady (checkSize n) := by
  unfold checkSize
  refine steady_get.bind fun st => ?_
  split
  · split
    · exact steady_memory
    · exact .pure _
  · exact .pure _

@[grind ←] theorem steady_checkRoom (id : Nat) : Steady (checkRoom id) := by
  unfold checkRoom
  refine steady_get.bind fun st => ?_
  split
  · split
    · exact steady_memory
    · exact .pure _
  · exact .pure _

@[grind ←] theorem steady_setEntry (id : Nat) (k : Key) (v : Value) : Steady (setEntry id k v) := by
  unfold setEntry
  exact (steady_modifyHeap _).bind fun _ => steady_checkRoom id

@[grind ←] theorem steady_newTable (t : Table) : Steady (newTable t) := by
  unfold newTable
  exact steady_get.bind fun st => (steady_checkSize _).bind fun _ => steady_make _

/-! ### What library functions share -/

/-- Do the calls that a library function makes leave the frames as they find them? -/
def Site.IsSteady (s : Site) : Prop := ∀ f args, Steady (s.call f args)

section Libraries

variable {s : Site}

namespace Site

@[grind ←] theorem steady_argumentError (i : Nat) (message : Bytes) : Steady (s.argumentError i message : M α) := by
  unfold argumentError
  refine steady_get.bind fun st => ?_
  split
  · split
    · exact steady_raiseHere _
    · exact steady_raiseHere _
  · exact steady_raiseHere _
  · exact steady_raiseHere _

@[grind ←] theorem steady_argumentFault (i : Nat) (message : String) : Steady (s.argumentFault i message : M α) :=
  s.steady_argumentError i _

@[grind ←] theorem steady_argumentType (i : Nat) : Steady (s.argumentType i) := by
  unfold argumentType
  split
  · exact .pure _
  · refine steady_getHeap.bind fun h => ?_
    split
    · exact .pure _
    · exact .pure _

@[grind ←] theorem steady_typeError (i : Nat) (expected : String) : Steady (s.typeError i expected : M α) := by
  unfold typeError
  exact (s.steady_argumentType i).bind fun t => s.steady_argumentError i _

@[grind ←] theorem steady_checkAny (i : Nat) : Steady (s.checkAny i) := by
  unfold checkAny
  split
  · exact .pure _
  · exact s.steady_argumentFault i _

@[grind ←] theorem steady_checkTable (i : Nat) : Steady (s.checkTable i) := by
  unfold checkTable
  split
  · exact .pure _
  · exact s.steady_typeError i _

@[grind ←] theorem steady_checkFunction (i : Nat) : Steady (s.checkFunction i) := by
  unfold checkFunction
  dsimp only
  split
  · exact .pure _
  · exact s.steady_typeError i _

@[grind ←] theorem steady_checkThread (i : Nat) : Steady (s.checkThread i) := by
  unfold checkThread
  split
  · exact .pure _
  · exact s.steady_typeError i _

@[grind ←] theorem steady_checkNumber (i : Nat) : Steady (s.checkNumber i) := by
  unfold checkNumber
  split
  · exact .pure _
  · exact s.steady_typeError i _

@[grind ←] theorem steady_checkInt (i : Nat) : Steady (s.checkInt i) := by
  unfold checkInt
  split
  · split
    · exact .pure _
    · exact s.steady_argumentFault i _
  · exact s.steady_typeError i _

@[grind ←] theorem steady_checkDouble (i : Nat) : Steady (s.checkDouble i) := by
  unfold checkDouble
  exact (s.steady_checkNumber i).bind fun v => .pure _

@[grind ←] theorem steady_checkString (i : Nat) : Steady (s.checkString i) := by
  unfold checkString
  split
  · exact .pure _
  · exact s.steady_typeError i _

@[grind ←] theorem steady_optInt (i : Nat) (default : Int) : Steady (s.optInt i default) := by
  unfold optInt
  split
  · exact .pure _
  · exact (s.steady_checkInt i).bind fun n => .pure _

@[grind ←] theorem steady_optString (i : Nat) (default : Bytes) : Steady (s.optString i default) := by
  unfold optString
  split
  · exact .pure _
  · exact s.steady_checkString i

variable (calls : s.IsSteady)

include calls

@[grind ←] theorem steady_call (f : Value) (args : List Value) : Steady (s.call f args) := calls f args

@[grind ←] theorem steady_call1 (f : Value) (args : List Value) : Steady (s.call1 f args) := by
  unfold call1
  exact (calls f args).bind fun vs => .pure _

@[grind ←] theorem steady_resolve (o : Outcome) : Steady (s.resolve o) := by
  unfold resolve
  split
  · exact .pure _
  · exact s.steady_call1 calls _ _
  · exact steady_getHeap.bind fun h => steady_raiseBare _

@[grind ←] theorem steady_index (o k : Value) : Steady (s.index o k) := by
  unfold index
  exact steady_getHeap.bind fun h => s.steady_resolve calls _

@[grind ←] theorem steady_store (o k v : Value) : Steady (s.store o k v) := by
  unfold store
  refine steady_getHeap.bind fun h => ?_
  split
  · exact steady_setEntry _ _ _
  · exact (calls _ _).bind fun _ => .pure _
  · exact steady_getHeap.bind fun h => steady_raiseBare _

@[grind ←] theorem steady_lessThan (a b : Value) : Steady (s.lessThan a b) := by
  unfold lessThan
  exact steady_getHeap.bind fun h => (s.steady_resolve calls _).bind fun v => .pure _

@[grind ←] theorem steady_length (o : Value) : Steady (s.length o) := by
  unfold length
  refine steady_getHeap.bind fun h => (s.steady_resolve calls _).bind fun v => ?_
  split
  · exact .pure _
  · exact steady_raiseText _

@[grind ←] theorem steady_toText (v : Value) : Steady (s.toText v) := by
  unfold toText
  grind

end Site

/-! ### Libraries -/

namespace Coroutines

section

variable {call : Value → List Value → M (List Value)} {locals : List Value} {e : Option Failure}

theorem closeAll_of_ok {vs : List Value}
    (done : call (st.heap.metamethod v "__close") [v, (e.map Failure.value).getD .nil] st = .ok vs st') :
    closeAll call (v :: locals) e st = closeAll call locals e st' := by
  change EStateM.bind (EStateM.tryCatch (EStateM.bind (call _ _) _) _) _ st = _
  unfold EStateM.bind EStateM.tryCatch
  dsimp only
  rw [done]
  rfl

theorem closeAll_of_exhausted
    (done : call (st.heap.metamethod v "__close") [v, (e.map Failure.value).getD .nil] st = .error .exhausted st') :
    ∃ st'', closeAll call (v :: locals) e st = .error .exhausted st'' := by
  change ∃ st'', EStateM.bind (EStateM.tryCatch (EStateM.bind (call _ _) _) _) _ st = _
  unfold EStateM.bind EStateM.tryCatch
  dsimp only
  rw [done]
  exact ⟨_, rfl⟩

theorem closeAll_of_error (goes : f ≠ .exhausted)
    (done : call (st.heap.metamethod v "__close") [v, (e.map Failure.value).getD .nil] st = .error f st') :
    closeAll call (v :: locals) e st = closeAll call locals (some f) { st' with frames := st.frames } := by
  change EStateM.bind (EStateM.tryCatch (EStateM.bind (call _ _) _) _) _ st = _
  unfold EStateM.bind EStateM.tryCatch
  dsimp only
  rw [done]
  cases f with
  | exhausted => exact absurd rfl goes
  | _ => rfl

end

/-- Closing variables fails only for want of steps. What a call fails with may take the error's place, and then
the variables that are left are closed. -/
theorem closeAll_spec {call : Value → List Value → M (List Value)} (calls : ∀ f args, Steady (call f args))
    (good : Failure → Heap → Prop)
    (fails : ∀ f args st e st', st.frames = frames → call f args st = .error e st' → e ≠ .exhausted → good e st'.heap)
    (locals : List Value) (e : Option Failure) (same : st.frames = frames) :
    match closeAll call locals e st with
    | .ok e' st' => st'.frames = frames ∧
      (e' = e ∨ ∃ f rest st₀, e' = some f ∧ good f st₀.heap ∧ closeAll call rest e' st₀ = .ok e' st')
    | .error f _ => f = .exhausted := by
  induction locals generalizing st e with
  | nil => exact ⟨same, .inl rfl⟩
  | cons v locals ih =>
    have steady := calls (st.heap.metamethod v "__close") [v, (e.map Failure.value).getD .nil] st
    cases done : call (st.heap.metamethod v "__close") [v, (e.map Failure.value).getD .nil] st with
    | ok vs st₁ =>
      rw [done] at steady
      rw [closeAll_of_ok done]
      exact ih e (Eq.trans steady same)
    | error f st₁ =>
      by_cases goes : f = .exhausted
      · obtain ⟨st₂, ends⟩ := closeAll_of_exhausted (goes ▸ done)
        rw [ends]
      · let left : State := { st₁ with frames := st.frames }
        have same' : left.frames = frames := same
        have others := ih (some f) same'
        rw [closeAll_of_error goes done]
        cases closed : closeAll call locals (some f) left with
        | error f' st₂ =>
          rw [closed] at others
          exact others
        | ok e' st₂ =>
          rw [closed] at others
          obtain ⟨same', rfl | other⟩ := others
          · exact ⟨same', .inr ⟨f, locals, left, rfl, fails _ _ st f st₁ same done goes, closed⟩⟩
          · exact ⟨same', .inr other⟩

variable (calls : s.IsSteady)

include calls

@[grind ←] theorem steady_closeAll (locals : List Value) (e : Option Failure) :
    Steady (closeAll s.call locals e) := fun st => by
  have closes := closeAll_spec calls (fun _ _ => True) (fun _ _ _ _ _ _ _ _ => trivial) locals e (rfl : st.frames = st.frames)
  cases done : closeAll s.call locals e st with
  | ok e' st' =>
    rw [done] at closes
    exact closes.1
  | error f st' =>
    rw [done] at closes
    cases closes
    exact ⟨.inl rfl, nofun⟩

theorem steady_close : Steady (close s) := by
  unfold close
  refine .bind (by grind) fun t st => .get_bind ?_
  have shuts (answer : Option Failure → M (List Value)) (steady : ∀ e, Steady (answer e)) (locals : List Value)
      (e : Option Failure) : Kept st.frames ((do
        modify fun st => { st with heap := st.heap.setThread t .running, frames := .resumed t false :: st.frames }
        let e ← closeAll s.call locals e
        modify fun st' => { st' with heap := st'.heap.setThread t .dead, frames := st.frames }
        answer e : M (List Value)) st) := by
    let inside : State := { st with heap := st.heap.setThread t .running, frames := .resumed t false :: st.frames }
    have closes := closeAll_spec calls (fun _ _ => True) (fun _ _ _ _ _ _ _ _ => trivial) locals e (rfl : inside.frames = inside.frames)
    change Kept st.frames (EStateM.bind (closeAll s.call locals e) _ inside)
    unfold EStateM.bind
    cases done : closeAll s.call locals e inside with
    | error f st' =>
      rw [done] at closes
      cases closes
      exact ⟨.inl rfl, nofun⟩
    | ok e' st' => exact steady e' { st' with heap := st'.heap.setThread t .dead, frames := st.frames }
  cases st.heap.thread t with
  | running => exact steady_raiseText _ st
  | _ => exact shuts _ (by rintro (_ | _) <;> exact .pure _) _ _

theorem steady_run (f : CoroutineFn) : Steady (run f s) := by
  cases f
  case close => exact steady_close calls
  all_goals
    simp only [run, create, isyieldable, running, status, wrap]
  all_goals grind

end Coroutines

namespace Base

@[grind ←] theorem steady_raiseAtLevel (v : Value) (level : Int) : Steady (raiseAtLevel v level : M α) := by
  unfold raiseAtLevel
  grind

@[grind ←] theorem steady_loadFunction (text name mode : Bytes) (environment : Value) :
    Steady (loadFunction text name mode environment) := by
  unfold loadFunction
  dsimp only
  generalize (if (text.at0 0 == 27 && decide (ByteArray.size text > 0)) = true then _ else _ : Except Bytes Code) = code
  grind

theorem steady_next : Steady (next s) := by
  unfold next
  refine .bind (by grind) fun id => .bind (by grind) fun t => ?_
  split
  · grind
  · split <;> grind

variable (calls : s.IsSteady)

include calls

@[grind ←] theorem steady_readPieces (reader : Value) (fuel : Nat) (acc : List Bytes) :
    Steady (readPieces s reader fuel acc) := by
  induction fuel generalizing acc with
  | zero => exact steady_exhausted
  | succ fuel ih =>
    unfold readPieces
    grind

@[grind ←] theorem steady_outcomeOf {act : M α} (steady : Steady act) : Steady (outcomeOf s act) := fun st => by
  have first := steady st
  refine .get_bind ?_
  change Kept st.frames (EStateM.tryCatch (EStateM.map Except.ok act) _ st)
  unfold EStateM.tryCatch EStateM.map
  cases done : act st with
  | ok a st' =>
    rw [done] at first
    exact first
  | error f st' =>
    rw [done] at first
    cases f with
    | exhausted => exact ⟨.inl rfl, nofun⟩
    | _ =>
      let cleared : State := { st' with frames := st.frames, latest := some s.function }
      exact (Coroutines.steady_closeAll calls _ _ cleared).bind fun e st'' same => same

theorem steady_ipairsStep : Steady (ipairsStep s) := by
  unfold ipairsStep
  grind

theorem steady_load : Steady (load s) := by
  have reads (f : Value) := steady_outcomeOf calls (steady_readPieces calls f 1000000 [])
  unfold load
  refine .bind (by grind) fun mode => ?_
  split
  · grind
  · refine .bind (by grind) fun name => .bind (by grind) fun f => .bind (reads f) fun text => ?_
    split <;> grind

theorem steady_run (f : BaseFn) : Steady (run f s) := by
  cases f
  case load => exact steady_load calls
  case next => exact steady_next
  all_goals
    simp only [run, assert, collectgarbage, dofile, error, getmetatable, ipairs, loadfile, pairs,
      print, rawequal, rawget, rawlen, rawset, require, select, setmetatable, tonumber, tostring, type, warn]
  all_goals grind

end Base

namespace Debugging

@[grind ←] theorem steady_info (function : Value) (frame : Option Activation) : Steady (info function frame) := by
  unfold info
  grind

theorem steady_getinfo : Steady (getinfo s) := by
  unfold getinfo
  dsimp only
  repeat' first
    | refine .bind (by grind) fun _ => ?_
    | split
  all_goals grind

theorem steady_upvaluejoin : Steady (upvaluejoin s) := by
  unfold upvaluejoin
  refine .bind (by grind) fun i => .bind (by grind) fun f => .bind (by grind) fun h => ?_
  extract_lets goOn
  have goesOn : Steady (goOn ()) := by
    refine .bind (by grind) fun j => .bind (by grind) fun g => ?_
    split <;> grind
  grind

theorem steady_run (f : DebugFn) : Steady (run f s) := by
  cases f
  case getinfo => exact steady_getinfo
  case upvaluejoin => exact steady_upvaluejoin
  all_goals
    simp only [run, getmetatable, getupvalue, setmetatable, setupvalue, traceback, traceback.finish, upvalueid]
  all_goals grind

end Debugging

namespace Maths

theorem steady_run (calls : s.IsSteady) (f : MathFn) : Steady (run f s) := by
  cases f
  all_goals simp only [run, abs, rounded, onDouble, atan, deg, fmod, log, extreme, modf, rad, random, tointeger, type, ult]
  all_goals grind

end Maths

namespace System

@[grind ←] theorem steady_checkHandle (i : Nat) : Steady (checkHandle s i) := by
  unfold checkHandle
  grind

theorem steady_runHandle (f : HandleFn) : Steady (runHandle f s) := by
  cases f
  all_goals simp only [runHandle]
  all_goals grind

theorem steady_runStream (f : StreamFn) : Steady (runStream f s) := by
  cases f
  all_goals simp only [runStream]
  all_goals grind

@[grind ←] theorem steady_dateField (calls : s.IsSteady) (name : String) (default : Option Int) :
    Steady (dateField s name default) := by
  unfold dateField
  grind

theorem steady_runSystem (calls : s.IsSteady) (f : SystemFn) : Steady (runSystem f s) := by
  cases f
  all_goals simp only [runSystem, time]
  all_goals grind

theorem steady_runPackage (f : PackageFn) : Steady (runPackage f s) := by
  cases f
  all_goals simp only [runPackage]
  all_goals grind

theorem steady_searcher : Steady (searcher s) := by
  unfold searcher
  grind

end System

namespace CodePoints

@[grind ←] theorem steady_codesFrom (b : Bytes) (lax : Bool) (stop : Int) (fuel i : Nat) (acc : List Value) :
    Steady (codesFrom b lax stop fuel i acc) := by
  induction fuel generalizing i acc with
  | zero => exact .pure _
  | succ fuel ih =>
    unfold codesFrom
    grind

theorem steady_run (f : Utf8Fn) : Steady (run f s) := by
  cases f
  all_goals simp only [run, char, codepoint, codes, len, offset]
  all_goals grind

theorem steady_codesStep (lax : Bool) : Steady (codesStep lax s) := by
  unfold codesStep
  grind

end CodePoints

namespace Tables

@[grind ←] theorem steady_checkList (i : Nat) (events : List String) : Steady (checkList s i events) := by
  unfold checkList
  grind

variable (calls : s.IsSteady)

include calls

@[grind ←] theorem steady_item (t : Value) (i : Int) : Steady (item s t i) := s.steady_index calls _ _

@[grind ←] theorem steady_setItem (t : Value) (i : Int) (v : Value) : Steady (setItem s t i v) := s.steady_store calls _ _ _

@[grind ←] theorem steady_concatFrom (t : Value) (sep : Bytes) (n : Nat) (i : Int) (acc : Bytes) :
    Steady (concatFrom s t sep n i acc) := by
  induction n generalizing i acc with
  | zero => exact .pure _
  | succ n ih =>
    unfold concatFrom
    grind


@[grind ←] theorem steady_shiftUp (t : Value) (stop : Int) (n : Nat) (i : Int) : Steady (shiftUp s t stop n i) := by
  induction n generalizing i with
  | zero => exact .pure _
  | succ n ih =>
    unfold shiftUp
    grind

@[grind ←] theorem steady_shiftDown (t : Value) (n : Nat) (i : Int) : Steady (shiftDown s t n i) := by
  induction n generalizing i with
  | zero => exact .pure _
  | succ n ih =>
    unfold shiftDown
    grind

@[grind ←] theorem steady_copyItems (a b : Value) (f t : Int) (upward : Bool) (n i : Nat) :
    Steady (copyItems s a b f t upward n i) := by
  induction n generalizing i with
  | zero => exact .pure _
  | succ n ih =>
    unfold copyItems
    grind

@[grind ←] theorem steady_itemsFrom (t : Value) (n : Nat) (i : Int) (acc : List Value) : Steady (itemsFrom s t n i acc) := by
  induction n generalizing i acc with
  | zero => exact .pure _
  | succ n ih =>
    unfold itemsFrom
    grind

@[grind ←] theorem steady_before (a b : Value) : Steady (before s a b) := by
  unfold before
  grind

@[grind ←] theorem steady_scanUp (t pivot : Value) (stop : Int) (fuel : Nat) (i : Int) :
    Steady (scanUp s t pivot stop fuel i) := by
  induction fuel generalizing i with
  | zero => exact steady_raiseText _
  | succ fuel ih =>
    unfold scanUp badOrder
    grind

@[grind ←] theorem steady_scanDown (t pivot : Value) (stop : Int) (fuel : Nat) (j : Int) :
    Steady (scanDown s t pivot stop fuel j) := by
  induction fuel generalizing j with
  | zero => exact steady_raiseText _
  | succ fuel ih =>
    unfold scanDown badOrder
    grind

@[grind ←] theorem steady_partition (t pivot : Value) (size : Nat) (up : Int) (fuel : Nat) (i j : Int) :
    Steady (partition s t pivot size up fuel i j) := by
  induction fuel generalizing i j with
  | zero => exact steady_raiseText _
  | succ fuel ih =>
    unfold partition
    grind

@[grind ←] theorem steady_sortRange (t : Value) (fuel : Nat) (lo up : Int) : Steady (sortRange s t fuel lo up) := by
  induction fuel generalizing lo up with
  | zero => exact .pure _
  | succ fuel ih =>
    unfold sortRange
    repeat' first
      | refine .bind (by grind) fun _ => ?_
      | split
    all_goals grind

theorem steady_run (f : TableFn) : Steady (run f s) := by
  cases f
  all_goals simp only [run, concat, insert, move, pack, remove, sort, unpack]
  all_goals
    repeat' first
      | refine .bind (by grind) fun _ => ?_
      | split
  all_goals grind

end Tables

namespace Strings

@[grind ←] theorem steady_matched (r : Except String α) : Steady (matched r) := by
  unfold matched
  grind

@[grind ←] theorem steady_badConversion (spelling : List UInt8) : Steady (badConversion spelling : M α) := steady_raiseHere _

@[grind ←] theorem steady_checked (spelling : List UInt8) (letter : UInt8) (flags : String) (withPrecision : Bool) :
    Steady (checked spelling letter flags withPrecision) := by
  unfold checked
  grind

@[grind ←] theorem steady_literal (i : Nat) : Steady (literal s i) := by
  unfold literal
  cases s.arg i with
  | ref r => exact s.steady_argumentFault i _
  | _ => exact .pure _

theorem steady_findOrMatch (finding : Bool) : Steady (findOrMatch finding s) := by
  unfold findOrMatch
  repeat' first
    | refine .bind (by grind) fun _ => ?_
    | split
  all_goals grind

theorem steady_gmatchStep (id : Nat) : Steady (gmatchStep id s) := by
  unfold gmatchStep
  refine .bind (by grind) fun h => ?_
  split
  · exact .pure _
  · refine .bind (by grind) fun found => ?_
    split
    · exact .bind (steady_modifyHeap _) fun _ => .pure _
    · exact .bind (steady_modifyHeap _) fun _ => .bind (by grind) fun _ => .pure _

@[grind ←] theorem steady_packFrom (fuel : Nat) (l : Layout) (cs : List UInt8) (i : Nat) (acc : Bytes) :
    Steady (packFrom s fuel l cs i acc) := by
  induction fuel generalizing l cs i acc with
  | zero => exact .pure _
  | succ fuel ih =>
    unfold packFrom
    split
    · grind
    · grind
    · split <;> grind

@[grind ←] theorem steady_packsizeFrom (fuel : Nat) (l : Layout) (cs : List UInt8) (n : Nat) :
    Steady (packsizeFrom s fuel l cs n) := by
  induction fuel generalizing l cs n with
  | zero => exact .pure _
  | succ fuel ih =>
    unfold packsizeFrom
    grind

@[grind ←] theorem steady_unpackFrom (b : Bytes) (fuel : Nat) (l : Layout) (cs : List UInt8) (pos : Nat) (acc : List Value) :
    Steady (unpackFrom s b fuel l cs pos acc) := by
  induction fuel generalizing l cs pos acc with
  | zero => exact .pure _
  | succ fuel ih =>
    unfold unpackFrom
    split
    · grind
    · grind
    · repeat' first
        | refine .bind (by grind) fun _ => ?_
        | split
      all_goals grind

variable (calls : s.IsSteady)

include calls

@[grind ←] theorem steady_replacement (src : Bytes) (caps : Pattern.Captures) (start stop : Nat) :
    Steady (replacement s src caps start stop) := by
  unfold replacement
  grind

@[grind ←] theorem steady_replaceFrom (src pat : Bytes) (anchored : Bool) (limit : Int) (fuel i : Nat) (lastEnd : Option Nat) (n : Nat)
    (acc : Bytes) : Steady (replaceFrom s src pat anchored limit fuel i lastEnd n acc) := by
  induction fuel generalizing i lastEnd n acc with
  | zero => exact .pure _
  | succ fuel ih =>
    unfold replaceFrom
    grind

@[grind ←] theorem steady_convert (i : Nat) (spelling : List UInt8) (letter : UInt8) :
    Steady (convert s i spelling letter) := by
  unfold convert
  split
  all_goals
    repeat' first
      | refine .bind (by grind) fun _ => ?_
      | split
  all_goals grind

@[grind ←] theorem steady_formatFrom (fuel : Nat) (cs : List UInt8) (i : Nat) (acc : Bytes) :
    Steady (formatFrom s fuel cs i acc) := by
  induction fuel generalizing cs i acc with
  | zero => exact .pure _
  | succ fuel ih =>
    unfold formatFrom
    split <;> grind

theorem steady_arith (op : StringArith) : Steady (arith op s) := by
  unfold arith
  grind

theorem steady_run (f : StringFn) : Steady (run f s) := by
  cases f
  case find => exact steady_findOrMatch true
  case matchPattern => exact steady_findOrMatch false
  all_goals
    simp only [run, byte, char, dump, format, gmatch, gsub, len, lower, pack, packsize, rep, reverse, sub, unpack, upper]
  all_goals
    repeat' first
      | refine .bind (by grind) fun _ => ?_
      | split
  all_goals grind

end Strings

namespace Reporting

@[grind ←] theorem steady_atLine {act : M α} (line : Nat) (steady : Steady act) : Steady (atLine line act) := fun st => by
  have inside := steady { st with frames := .host line :: st.frames }
  change Kept st.frames (EStateM.bind act _ { st with frames := .host line :: st.frames })
  unfold EStateM.bind
  cases done : act { st with frames := .host line :: st.frames } with
  | ok a st' =>
    rw [done] at inside
    exact congrArg List.tail inside
  | error f st' =>
    rw [done] at inside
    refine ⟨inside.above.imp_right ?_, inside.seen⟩
    rintro ⟨top, above, transparent⟩
    exact ⟨top ++ [.host line], by rw [above, List.append_assoc]; rfl, transparent.append (by simp [Transparent, Frame.catches])⟩

theorem steady_report (calls : s.IsSteady) : Steady (report s) := by
  unfold report
  grind

end Reporting

/-- The work of a library function leaves the frames as it finds them, if the calls that it makes do. -/
theorem steady_native (calls : s.IsSteady) (n : Native) : Steady (n.run s) := by
  cases n with
  | base f => exact Base.steady_run calls f
  | coroutine f => exact Coroutines.steady_run calls f
  | debug f => exact Debugging.steady_run f
  | stream f => exact System.steady_runStream f
  | math f => exact Maths.steady_run calls f
  | system f => exact System.steady_runSystem calls f
  | package f => exact System.steady_runPackage f
  | searcher i => exact System.steady_searcher
  | string f => exact Strings.steady_run calls f
  | table f => exact Tables.steady_run calls f
  | utf8 f => exact CodePoints.steady_run f
  | stringArith op => exact Strings.steady_arith calls op
  | handle f => exact System.steady_runHandle f
  | ipairsStep => exact Base.steady_ipairsStep calls
  | codesStep lax => exact CodePoints.steady_codesStep lax
  | gmatchStep m => exact Strings.steady_gmatchStep (s := s) m
  | wrapped t => exact .pure _
  | reporter => exact Reporting.steady_report calls

end Libraries

end LuaCapsule.Lua
