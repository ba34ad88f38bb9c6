import LuaCapsule.Proofs.StackDiscipline

/-! Runs and the frames below them. A run begins above some frames, its foot. Until it ends it stands above them,
and so does a failure in it, which its handler has seen by then. The error lands above the foot and the run goes
on, or it reaches the foot, which says what becomes of it. So a call that a library function makes leaves the frames
below it alone. -/

namespace LuaCapsule.Lua.Machine

variable {α : Type} {st st' : State} {frames top mid foot after : List Frame} {f : Failure} {good : List Value → Heap → Prop}

/-! ### Where a run stands -/

/-- Are some frames inside one run? -/
def Inside (own : List Frame) : Prop := ∀ f ∈ own, f.isEnd = false

theorem inside_nil : Inside [] := nofun

theorem Inside.cons {fr : Frame} (one : fr.isEnd = false) (others : Inside mid) : Inside (fr :: mid) :=
  List.forall_mem_cons.mpr ⟨one, others⟩

theorem inside_iff {own : List Frame} : Inside own ↔ own.any Frame.isEnd = false := by
  simp [Inside, List.any_eq_false]

theorem Inside.append {own : List Frame} (one : Inside own) (other : Inside mid) : Inside (own ++ mid) := fun f mem =>
  (List.mem_append.mp mem).elim (one f) (other f)

/-- Does every coroutine that was resumed in some frames stand below the end of a run? -/
def Outside (foot : List Frame) : Prop :=
  ∀ own t wrapped below, foot = own ++ .resumed t wrapped :: below → ¬Inside own

theorem outside_cons {e : Frame} (isEnd : e.isEnd = true) (frames : List Frame) : Outside (e :: frames) := by
  rintro (_ | ⟨fr, own⟩) t wrapped below is inside
  · cases is
    cases isEnd
  · cases is
    cases isEnd.symm.trans (inside e List.mem_cons_self)

theorem Outside.cons {fr : Frame} (outside : Outside frames) (other : ∀ t w, fr ≠ .resumed t w) : Outside (fr :: frames) := by
  rintro (_ | ⟨fr', own⟩) t wrapped below is inside
  · cases is
    exact other t wrapped rfl
  · cases is
    exact outside own t wrapped below rfl fun f mem => inside f (.tail _ mem)

/-- A coroutine that can be put aside was resumed in the same run. -/
theorem Outside.exists_below {own below : List Frame} {t : Nat} {wrapped : Bool} (outside : Outside foot) (inside : Inside own)
    (is : mid ++ foot = own ++ .resumed t wrapped :: below) :
    ∃ mid', mid = own ++ .resumed t wrapped :: mid' ∧ below = mid' ++ foot := by
  rcases List.append_eq_append_iff.mp is with ⟨rest, rfl, foot_eq⟩ | ⟨rest, rfl, rest_eq⟩
  · exact absurd (fun f mem => inside f (List.mem_append_right mid mem)) (outside rest t wrapped below foot_eq)
  · cases rest with
    | nil => exact absurd inside_nil (outside [] t wrapped below rest_eq.symm)
    | cons fr mid' =>
      cases rest_eq
      exact ⟨mid', rfl, rfl⟩

/-- Do results that reach some frames end the run above them? -/
def Closes (foot after : List Frame) (good : List Value → Heap → Prop) : Prop := ∀ vs (st : State), ∃ ws,
  deliver vs foot st = .ok (.finished ws) { st with frames := after } ∧ good ws st.heap

/-- Is a run still above its foot, or has it finished there, or failed above it? -/
def Above (foot after : List Frame) (good : List Value → Heap → Prop) : EStateM.Result Failure State Progress → Prop
  | .ok .running st => ∃ a mid, Inside mid ∧ st.frames = .activation a :: (mid ++ foot)
  | .ok (.finished vs) st => st.frames = after ∧ good vs st.heap
  | .error f st => ∃ mid, Inside mid ∧ FailsAbove (mid ++ foot) f st

theorem Above.bind {act : M α} {next : α → M Progress} (one : Steady act) (inside : Inside mid) (here : st.frames = mid ++ foot)
    (others : ∀ a st', st'.frames = mid ++ foot → Above foot after good (next a st')) :
    Above foot after good ((act >>= next) st) := by
  have first := one st
  change Above foot after good (EStateM.bind act next st)
  unfold EStateM.bind
  rw [here] at first
  cases done : act st with
  | ok a st' =>
    rw [done] at first
    exact others a st' first
  | error f st' =>
    rw [done] at first
    exact ⟨mid, inside, first⟩

theorem Above.get_bind {next : State → M Progress} (others : Above foot after good (next st st)) :
    Above foot after good ((get >>= next) st) := others

theorem Above.getHeap_bind {next : Heap → M Progress} (others : Above foot after good (next st.heap st)) :
    Above foot after good ((getHeap >>= next) st) := others

theorem Above.pushFrame_bind {fr : Frame} {next : Unit → M Progress}
    (others : Above foot after good (next ⟨⟩ { st with frames := fr :: st.frames })) :
    Above foot after good ((pushFrame fr >>= next) st) := others

theorem above_throw {f : Failure} (one : Steady (throw f : M Progress)) (inside : Inside mid) (here : st.frames = mid ++ foot) :
    Above foot after good ((throw f : M Progress) st) := by
  have first := one st
  rw [here] at first
  exact ⟨mid, inside, first⟩

theorem above_raise (v : Value) (inside : Inside mid) (here : st.frames = mid ++ foot) :
    Above foot after good ((raise v : M Progress) st) := above_throw (steady_raise v) inside here

theorem above_raiseText (message : String) (inside : Inside mid) (here : st.frames = mid ++ foot) :
    Above foot after good ((raiseText message : M Progress) st) :=
  .bind (steady_position 1) inside here fun _ _ here => above_raise _ inside here

section Runs

variable (closes : Closes foot after good)

include closes

theorem above_deliver (vs : List Value) (inside : Inside mid) (st : State) :
    Above foot after good (deliver vs (mid ++ foot) st) := by
  induction mid generalizing vs st with
  | nil =>
    obtain ⟨ws, done, fine⟩ := closes vs st
    rw [List.nil_append, done]
    exact ⟨rfl, fine⟩
  | cons fr mid ih =>
    obtain ⟨one, others⟩ := List.forall_mem_cons.mp inside
    cases fr with
    | activation a => exact ⟨_, mid, others, rfl⟩
    | host line => exact ih vs others st
    | protected' handler => exact ih (.bool true :: vs) others st
    | boundary by' => cases one
    | hostCall handler => cases one
    | resumed t wrapped => exact ih _ others { st with heap := st.heap.setThread t .dead }

theorem above_deliver_all (vs : List Value) (inside : Inside mid) (here : st.frames = mid ++ foot) :
    Above foot after good ((do deliver vs (← get).frames) st) := by
  change Above foot after good (deliver vs st.frames st)
  rw [here]
  exact above_deliver closes vs inside st

/-! ### Calls -/

omit closes in
theorem steady_callee (calledAs : Option Origin) (fuel : Nat) (f : Value) (args : List Value) :
    Steady (callee calledAs fuel f args) := by
  induction fuel generalizing f args with
  | zero => exact steady_raiseText _
  | succ fuel ih =>
    unfold callee
    grind

omit closes in
theorem steady_overflow : Steady (throw (.raised (.text "error in error handling") true) : M α) := fun _ =>
  ⟨.inr ⟨[], rfl, transparent_nil⟩, fun v is handler _ => by cases is; exact .overflow⟩

omit closes in
theorem steady_modify {g : State → State} (same : ∀ st, (g st).frames = st.frames) : Steady (modify g : M Unit) := same

omit closes in
theorem steady_checkNesting (n : Nat) : Steady (checkNesting n) := by
  have := @steady_overflow Unit
  unfold checkNesting
  grind

omit closes in
theorem steady_checkRegisters (bottom size : Nat) : Steady (checkRegisters bottom size) := by
  have := @steady_overflow Unit
  have : Steady (modify fun st => { st with isOverflowing := true } : M Unit) := steady_modify fun _ => rfl
  unfold checkRegisters
  grind

theorem above_enter (id : Nat) (args : List Value) (isTail direct : Bool) (inside : Inside mid)
    (here : st.frames = mid ++ foot) : Above foot after good (enter id args isTail direct st) := by
  unfold enter
  refine .get_bind ?_
  cases st.heap.closure? id with
  | none => exact above_deliver_all closes [] inside here
  | some c =>
    refine .bind (steady_checkRegisters _ _) inside here fun _ st' here => ?_
    cases direct with
    | true => exact ⟨_, mid, inside, congrArg _ here⟩
    | false => exact .bind (steady_checkNesting _) inside here fun _ st' here => ⟨_, mid, inside, congrArg _ here⟩

theorem above_resume {begin' : Value → List Value → M Progress}
    (begins : ∀ f args {mid : List Frame} {st : State}, Inside mid → st.frames = mid ++ foot →
      Above foot after good (begin' f args st))
    (t : Nat) (wrapped : Bool) (args : List Value) (inside : Inside mid) (here : st.frames = mid ++ foot) :
    Above foot after good (resume begin' t wrapped args st) := by
  have refuses (message : String) : Above foot after good ((if wrapped then raiseText message
      else deliver [.bool false, .text message] st.frames : M Progress) st) := by
    cases wrapped with
    | true => exact above_raiseText message inside here
    | false =>
      rw [here]
      exact above_deliver closes _ inside st
  unfold resume
  change Above foot after good ((if nesting st.frames ≥ maxNesting then _ else _ : M Progress) st)
  split
  · exact refuses _
  · cases st.heap.thread t with
    | fresh body => exact begins body args (inside.cons rfl) (congrArg (Frame.resumed t wrapped :: ·) here)
    | suspended frames within =>
      have all : Inside (frames ++ .resumed t wrapped :: mid) := (inside_iff.mpr within).append (inside.cons rfl)
      have is : frames ++ .resumed t wrapped :: st.frames = (frames ++ .resumed t wrapped :: mid) ++ foot := by
        rw [here, List.append_assoc, List.cons_append]
      change Above foot after good (deliver args (frames ++ .resumed t wrapped :: st.frames) _)
      rw [is]
      exact above_deliver closes args all _
    | running => exact refuses _
    | dead => exact refuses _
    | failed e locals => exact refuses _

theorem above_yield (outside : Outside foot) (args : List Value) (inside : Inside mid) (here : st.frames = mid ++ foot) :
    Above foot after good (yield args st) := by
  unfold yield
  refine .get_bind ?_
  cases split : splitAtResumption st.frames with
  | none => exact above_raise _ inside here
  | some parts =>
    obtain ⟨own, t, wrapped, below⟩ := parts
    change Above foot after good ((if inside : own.any Frame.isEnd = false then _ else _ : M Progress) st)
    split
    next own_inside =>
      have is := eq_append_of_splitAtResumption split
      rw [here] at is
      obtain ⟨mid', rfl, rfl⟩ := outside.exists_below (inside_iff.mpr own_inside) is
      exact above_deliver closes _ (fun f mem => inside f (List.mem_append_right _ (.tail _ mem))) _
    next => exact above_raise _ inside here

/-- A call stays above the foot of its run, or ends the run there, or fails above it. -/
theorem above_start {nested : Nested} (calls : ∀ by' f args, Steady (nested by' f args)) (outside : Outside foot)
    (calledAs : Option Origin) (isTail direct : Bool) (fuel : Nat) (f : Value) (args : List Value) (inside : Inside mid)
    (here : st.frames = mid ++ foot) : Above foot after good (start nested calledAs isTail direct fuel f args st) := by
  induction fuel generalizing calledAs isTail direct f args mid st with
  | zero => exact above_raiseText _ inside here
  | succ fuel ih =>
    unfold start
    refine .bind (steady_callee _ _ _ _) inside here fun found st here => ?_
    obtain ⟨f, args⟩ := found
    dsimp only
    split
    next id => exact above_enter closes id args isTail direct inside here
    next n =>
      let site : Site := ⟨n, calledAs, args, nested (some n)⟩
      have steady : site.IsSteady := calls (some n)
      have begins (f : Value) (args : List Value) {mid : List Frame} {st : State} (inside : Inside mid)
          (here : st.frames = mid ++ foot) : Above foot after good ((do
            modify fun st => { st with latest := none }
            start nested none false true fuel f args : M Progress) st) := ih none false true f args inside (by exact here)
      have guarded (handler : Option Value) (rest : List Value) {st : State} (here : st.frames = mid ++ foot) :
          Above foot after good ((do
            pushFrame (.protected' handler)
            checkNesting (nesting (← get).frames)
            modify fun st => { st with latest := none }
            start nested none false true fuel (args.headD .nil) rest : M Progress) st) := by
        let guarded : State := { st with frames := .protected' handler :: st.frames }
        have inside' : Inside (.protected' handler :: mid) := inside.cons rfl
        have here' : guarded.frames = (.protected' handler :: mid) ++ foot := congrArg _ here
        change Above foot after good ((checkNesting (nesting guarded.frames) >>= fun _ => _) guarded)
        exact .bind (steady_checkNesting _) inside' here' fun _ st' here => begins _ _ inside' here
      refine .bind (steady_modify fun _ => rfl) inside here fun _ st here => ?_
      split
      · exact .bind (site.steady_checkAny 1) inside here fun _ st here => guarded none _ here
      · exact .bind (site.steady_checkFunction 2) inside here fun handler st here => guarded _ _ here
      · exact .bind (site.steady_checkThread 1) inside here fun t st here => above_resume closes begins t false _ inside here
      · exact above_resume closes begins _ true _ inside here
      · exact above_yield closes outside _ inside here
      · exact .bind (steady_native steady n) inside here fun vs st here => above_deliver_all closes vs inside here
    next => exact above_deliver_all closes [] inside here

/-- A step of the innermost function does so too. -/
theorem above_step {nested : Nested} (calls : ∀ by' f args, Steady (nested by' f args)) (outside : Outside foot) {a : Activation}
    (inside : Inside mid) (here : st.frames = .activation a :: (mid ++ foot)) : Above foot after good (step nested st) := by
  obtain ⟨heap, frames, cap, latest, isOverflowing⟩ := st
  cases here
  have all (a : Activation) : Inside (.activation a :: mid) := inside.cons rfl
  have begins (f : Value) (args : List Value) (direct : Bool) {a : Activation} {st : State}
      (here : st.frames = .activation a :: (mid ++ foot)) : Above foot after good (begin' nested none false direct f args st) :=
    above_start closes calls outside none false direct maxDirect f args (all a) here
  unfold step
  refine .get_bind ?_
  dsimp only
  cases a.code.proto.code[a.pc]? with
  | none => exact above_deliver closes [] inside _
  | some i =>
    dsimp only
    cases (a.code.proto.operation a.pc i).exec cap heap { a with pc := a.pc + 1 } with
    | go a heap => exact ⟨a, mid, inside, rfl⟩
    | call f args direct a heap => exact begins f args direct rfl
    | replace f args a heap =>
      change Above foot after good ((callee none 100 f args >>= fun found => _ : M Progress)
        ⟨heap, .activation a :: (mid ++ foot), cap, latest, isOverflowing⟩)
      refine Above.bind (steady_callee _ _ _ _) (all a) ?_ fun found st here => ?_
      · rfl
      obtain ⟨f, args⟩ := found
      dsimp only
      split
      next id =>
        change Above foot after good (begin' nested none true true (.closure id) args { st with frames := mid ++ foot })
        exact above_start closes calls outside none true true maxDirect _ args inside rfl
      next => exact begins f args true here
    | ret vs heap => exact above_deliver closes vs inside _
    | fault message a heap => exact above_raise _ (all a) rfl
    | outOfMemory a heap => exact above_throw steady_memory (all a) rfl

end Runs

/-! ### Errors -/

/-- Does an action leave the frames as it finds them, and fail only with errors that were seen? -/
structure Calm (act : M α) : Prop where
  steady : Steady act
  seen : ∀ st f st' v, act st = .error f st' → f ≠ .raised v false

/-- What the handler makes of an error has been seen, whether the handler answers or fails. -/
theorem exists_handled {d : Nat} (calls : ∀ by' f args, Calm (call d by' f args)) (v : Value) (st : State) :
    ∃ f st', handled (call d) v st = .ok f st' ∧ FailsAbove st.frames f st' ∧ ∀ w, f ≠ .raised w false := by
  unfold handled
  rw [bind_of_ok (rfl : (get : M State) st = .ok st st)]
  cases found : handler? st.frames with
  | none =>
    refine ⟨_, st, rfl, ⟨.inr ⟨[], rfl, transparent_nil⟩, fun w _ handler is => ?_⟩, fun w is => by cases is⟩
    cases found.symm.trans is
  | some handler =>
    have kept := (calls st.latest handler [v]).steady st
    have seen := (calls st.latest handler [v]).seen st
    change ∃ f st', EStateM.tryCatch (EStateM.bind (call d st.latest handler [v]) _) _ st = .ok f st' ∧ _
    unfold EStateM.tryCatch EStateM.bind
    cases ran : call d st.latest handler [v] st with
    | ok vs st' =>
      rw [ran] at kept
      refine ⟨_, st', rfl, ⟨.inr ⟨[], kept, transparent_nil⟩, fun w is handler' is' => ?_⟩, fun w is => by cases is⟩
      cases is
      cases found.symm.trans is'
      exact .made found ran
    | error f st' =>
      rw [ran] at kept
      exact ⟨f, st', rfl, kept, fun w => seen f st' w ran⟩

/-- Whatever fails, the handler there is has seen it before anything else is done about it. -/
theorem exists_seen {d : Nat} (calls : ∀ by' f args, Calm (call d by' f args)) (fails : FailsAbove frames f st) : ∃ f' st',
    (match f with
      | .raised v false => handled (call d) v
      | f => pure f : M Failure) st = .ok f' st' ∧ FailsAbove frames f' st' ∧ ∀ w, f' ≠ .raised w false := by
  cases f with
  | raised v wasSeen =>
    cases wasSeen with
    | true => exact ⟨_, st, rfl, fails, nofun⟩
    | false =>
      obtain ⟨f', st', answered, fails', unseen⟩ := exists_handled calls v st
      exact ⟨f', st', answered, fails.trans fails' nofun, unseen⟩
  | memory => exact ⟨_, st, rfl, fails, nofun⟩
  | exhausted => exact ⟨_, st, rfl, fails, nofun⟩

/-! ### Where errors land -/

/-- Does no error land at a frame? -/
def Frame.passes : Frame → Bool
  | .protected' _ => false
  | .resumed .. => false
  | _ => true

theorem landing?_cons {fr : Frame} (passes : Frame.passes fr = true) (frames : List Frame) :
    landing? (fr :: frames) = (landing? frames).map fun r => (fr :: r.1, r.2) := by
  cases fr <;> first | rfl | cases passes

theorem passes_of_transparent {fr : Frame} (none : fr.catches = false) : Frame.passes fr = true := by
  cases fr <;> first | rfl | cases none

theorem landing?_append (transparent : Transparent top) :
    landing? (top ++ frames) = (landing? frames).map fun r => (top ++ r.1, r.2) := by
  induction top with
  | nil => exact (congrFun Option.map_id (landing? frames)).symm
  | cons fr top ih =>
    obtain ⟨one, others⟩ := List.forall_mem_cons.mp transparent
    rw [List.cons_append, landing?_cons (passes_of_transparent one), ih others, Option.map_map]
    rfl

theorem landing?_of_transparent (transparent : Transparent top) : landing? top = none := by
  rw [← List.append_nil top, landing?_append transparent]
  rfl

/-- The same place with more frames below it. -/
def Landing.onto (more : List Frame) : Landing → Landing
  | .protectedCall handler below => .protectedCall handler (below ++ more)
  | .resumption t wrapped below => .resumption t wrapped (below ++ more)

theorem landing?_append_of_some {dropped : List Frame} {l : Landing} (lands : landing? mid = some (dropped, l)) (more : List Frame) :
    landing? (mid ++ more) = some (dropped, l.onto more) := by
  induction mid generalizing dropped with
  | nil => cases lands
  | cons fr mid ih =>
    cases passes : Frame.passes fr with
    | false =>
      cases fr with
      | protected' h =>
        cases lands
        rfl
      | resumed t w =>
        cases lands
        rfl
      | _ => cases passes
    | true =>
      rw [landing?_cons passes, Option.map_eq_some_iff] at lands
      obtain ⟨⟨dropped', l'⟩, lands, is⟩ := lands
      cases is
      rw [List.cons_append, landing?_cons passes, ih lands]
      rfl

theorem transparent_of_landing? (inside : Inside mid) (none : landing? mid = none) : Transparent mid := by
  induction mid with
  | nil => exact transparent_nil
  | cons fr mid ih =>
    obtain ⟨one, others⟩ := List.forall_mem_cons.mp inside
    cases passes : Frame.passes fr with
    | false =>
      cases fr with
      | protected' h => cases none
      | resumed t w => cases none
      | _ => cases passes
    | true =>
      rw [landing?_cons passes, Option.map_eq_none_iff] at none
      refine List.forall_mem_cons.mpr ⟨?_, ih others none⟩
      cases fr with
      | protected' h => cases passes
      | resumed t w => cases passes
      | hostCall h => cases one
      | _ => rfl

/-- Is a failure that of a call by which a variable was closed, in the heap that the call left? An error was seen
by the handler there. -/
structure Late (handler? : Option Value) (f : Failure) (h : Heap) : Prop where
  goes : f ≠ .exhausted
  seen : ∀ v, f ≠ .raised v false
  answered : ∀ v, f = .raised v true → ∀ handler, handler? = some handler → AnsweredBy handler v h

/-- The objects after variables were closed for a failure, which stayed the same, or the same objects if there
were none to close. -/
inductive Closing (f : Failure) (h : Heap) : Heap → Prop
  | none : Closing f h h
  | some {d : Nat} {v : Value} {locals : List Value} {st st' : State} (before : st.heap = h)
    (closed : Coroutines.closeAll (call d none) (v :: locals) (some f) st = .ok (some f) st') : Closing f h st'.heap

theorem closing_of_closeAll {d : Nat} {locals : List Value}
    (closed : Coroutines.closeAll (call d none) locals (some f) st = .ok (some f) st') : Closing f st.heap st'.heap := by
  cases locals with
  | nil =>
    cases closed
    exact .none
  | cons v locals => exact .some rfl closed

/-- What is left of a failure once frames were given up: itself, or the last failure of those by which their
variables were closed. -/
theorem giveUp_spec {d : Nat} (calls : ∀ by' f args, Calm (call d by' f args)) (dropped : List Frame) (f : Failure)
    (landed : Frame) (below : List Frame) (st : State) : match giveUp (call d) dropped f landed below st with
      | .ok f' st' => st'.frames = below ∧ ((f' = f ∧ Closing f st.heap st'.heap) ∨
        ∃ h, Late (handler? (landed :: below)) f' h ∧ Closing f' h st'.heap)
      | .error f' _ => f' = .exhausted := by
  let landing : State := { st with frames := landed :: below, latest := none }
  have closes := Coroutines.closeAll_spec (fun f args => (calls none f args).steady) (Late (handler? (landed :: below)))
    (fun f args st₁ e st₂ here failed goes => by
      have kept := (calls none f args).steady st₁
      rw [failed] at kept
      refine ⟨goes, fun w => (calls none f args).seen st₁ e st₂ w failed, fun w is handler found => ?_⟩
      rw [here] at kept
      exact kept.seen w is handler found) (Coroutines.pending dropped) (some f) (rfl : landing.frames = landed :: below)
  have begun : giveUp (call d) dropped f landed below st = EStateM.bind
      (Coroutines.closeAll (call d none) (Coroutines.pending dropped) (some f)) (fun e => do
        modify fun st => { st with frames := below, isOverflowing := false }
        return e.getD f) landing := rfl
  rw [begun]
  unfold EStateM.bind
  cases done : Coroutines.closeAll (call d none) (Coroutines.pending dropped) (some f) landing with
  | error e st' =>
    rw [done] at closes
    exact closes
  | ok e st' =>
    rw [done] at closes
    obtain ⟨_, rfl | ⟨f', rest, st₀, rfl, late, others⟩⟩ := closes
    · have closing := closing_of_closeAll done
      exact ⟨rfl, .inl ⟨rfl, closing⟩⟩
    · have closing := closing_of_closeAll others
      exact ⟨rfl, .inr ⟨st₀.heap, late, closing⟩⟩

/-! ### Recovery -/

theorem exists_position (level : Nat) (st : State) : ∃ b, position level st = .ok b st := by
  unfold position
  split
  · exact ⟨_, rfl⟩
  · rw [bind_of_ok (rfl : (get : M State) st = .ok st st)]
    cases (levels st.frames)[level - 1]? <;> exact ⟨_, rfl⟩

theorem exists_deliver (vs : List Value) (frames : List Frame) (st : State) : ∃ p st', deliver vs frames st = .ok p st' := by
  induction frames generalizing vs st with
  | nil => exact ⟨_, _, rfl⟩
  | cons fr frames ih =>
    cases fr with
    | activation a => exact ⟨_, _, rfl⟩
    | host line => exact ih vs st
    | protected' handler => exact ih (.bool true :: vs) st
    | boundary by' => exact ⟨_, _, rfl⟩
    | hostCall handler => exact ⟨_, _, rfl⟩
    | resumed t wrapped => exact ih _ { st with heap := st.heap.setThread t .dead }

/-- Is a run still above its foot, or has it finished there, or run out of steps, or left its foot by an error? -/
def Settled (foot after : List Frame) (good : List Value → Heap → Prop) (leaves : Failure → State → Prop) :
    EStateM.Result Failure State Progress → Prop
  | .ok .running st => ∃ a mid, Inside mid ∧ st.frames = .activation a :: (mid ++ foot)
  | .ok (.finished vs) st => st.frames = after ∧ good vs st.heap
  | .error f st => f = .exhausted ∨ leaves f st

/-- Has an error been settled, or is it raised once more, where fewer frames are left above the foot? -/
def Landed (foot after : List Frame) (good : List Value → Heap → Prop) (leaves : Failure → State → Prop) (n : Nat) :
    EStateM.Result Failure State Recovery → Prop
  | .ok (.done p) st => Settled foot after good leaves (.ok p st)
  | .ok (.again f) st => ∃ mid, Inside mid ∧ mid.length < n ∧ FailsAbove (mid ++ foot) f st
  | .error f st => f = .exhausted ∨ leaves f st

/-- The frames at which a run ends, and what becomes of the results and errors that reach them. -/
structure Footing (d : Nat) (base foot after : List Frame) (good : List Value → Heap → Prop)
    (leaves : Failure → State → Prop) : Prop where
  calls : ∀ by' f args, Calm (call d by' f args)
  closes : Closes foot after good
  outside : Outside foot
  above : ∃ own, foot = own ++ base
  lands : ∀ f st, FailsAbove foot f st → f ≠ .exhausted → (∀ v, f ≠ .raised v false) →
    Landed foot after good leaves 0 (land (call d) base.length f st)

theorem get_bind {next : State → M α} (st : State) : (get >>= next) st = next st st := rfl

/-- What is done about an error that was seen. -/
def recoverSeen (nested : Nested) (base n : Nat) (f : Failure) : M Progress := do
  if let .exhausted := f then throw f
  match ← land nested base f with
  | .done p => return p
  | .again f => recover nested base n f

theorem recover_succ (nested : Nested) (base n : Nat) (f : Failure) : recover nested base (n + 1) f =
    ((match f with
      | .raised v false => handled nested v
      | f => pure f : M Failure) >>= recoverSeen nested base n) := by
  rcases f with ⟨v, _ | _⟩ | _ | _ <;> rfl

theorem recoverSeen_eq {nested : Nested} {base n : Nat} (goes : f ≠ .exhausted) : recoverSeen nested base n f =
    (land nested base f >>= fun r => match r with
      | .done p => pure p
      | .again f => recover nested base n f) := by
  cases f <;> first | rfl | exact absurd rfl goes

section Footing

variable {d : Nat} {base : List Frame} {leaves : Failure → State → Prop} (footing : Footing d base foot after good leaves)

include footing

/-- Results that are delivered after an error landed settle it. -/
theorem landed_deliver (vs : List Value) (n : Nat) (inside : Inside mid) (here : frames = mid ++ foot) (st : State) :
    Landed foot after good leaves n ((do return .done (← deliver vs frames) : M Recovery) st) := by
  have above := above_deliver footing.closes vs inside st
  rw [← here] at above
  obtain ⟨p, st', done⟩ := exists_deliver vs frames st
  rw [bind_of_ok done]
  rw [done] at above
  cases p <;> exact above

theorem landed_giveUp {dropped below : List Frame} {landed : Frame} {n : Nat} {next : Failure → M Recovery} (f : Failure)
    (st : State) (others : ∀ f st, st.frames = below → Landed foot after good leaves n (next f st)) :
    Landed foot after good leaves n ((giveUp (call d) dropped f landed below >>= next) st) := by
  have given := giveUp_spec footing.calls dropped f landed below st
  change Landed foot after good leaves n (EStateM.bind (giveUp (call d) dropped f landed below) next st)
  unfold EStateM.bind
  cases done : giveUp (call d) dropped f landed below st with
  | ok f' st' =>
    rw [done] at given
    exact others f' st' given.1
  | error f' st' =>
    rw [done] at given
    exact .inl given

omit footing in
/-- How an error lands among the frames above others. -/
theorem land_eq {nested : Nested} {own : List Frame} (here : st.frames = own ++ base) (f : Failure) :
    land nested base.length f st = (match landing? own with
    | none => throw f
    | some (dropped, .protectedCall handler below) => do
      let f ← giveUp nested dropped f (.protected' handler) (below ++ base)
      return .done (← deliver [.bool false, f.value] (below ++ base))
    | some (dropped, .resumption t true below) => do
      let f ← giveUp nested dropped f (.resumed t true) (below ++ base)
      modifyHeap (·.setThread t .dead)
      match f, f.value with
      | .memory, _ => return .again .memory
      | _, .str b => return .again (.raised (.str ((← position 1) ++ b)) false)
      | _, v => return .again (.raised v false)
    | some (dropped, .resumption t false below) => do
      let f ← giveUp nested [] f (.resumed t false) (below ++ base)
      modifyHeap (·.setThread t (.failed f.value (Coroutines.pending dropped)))
      return .done (← deliver [.bool false, f.value] (below ++ base)) : M Recovery) st := by
  have take : st.frames.take (st.frames.length - base.length) = own := by
    rw [here, List.length_append, Nat.add_sub_cancel, List.take_left]
  have drop : st.frames.drop (st.frames.length - base.length) = base := by
    rw [here, List.length_append, Nat.add_sub_cancel, List.drop_left]
  unfold land
  rw [get_bind, take, drop] <;> rfl

/-- An error that was seen lands among the frames above the foot, or at the foot. -/
theorem landed_land (f : Failure) (inside : Inside mid) (fails : FailsAbove (mid ++ foot) f st) (goes : f ≠ .exhausted)
    (seen : ∀ v, f ≠ .raised v false) : Landed foot after good leaves mid.length (land (call d) base.length f st) := by
  obtain ⟨top, here, transparent⟩ := fails.above.resolve_left goes
  cases lands : landing? mid with
  | none =>
    have passed := transparent_of_landing? inside lands
    have atFoot : FailsAbove foot f st := {
      above := .inr ⟨top ++ mid, by rw [here, List.append_assoc], transparent.append passed⟩
      seen := fun v is handler found => fails.seen v is handler ((handler?_append passed).trans found) }
    have landed := footing.lands f st atFoot goes seen
    revert landed
    cases land (call d) base.length f st with
    | error f' st' => exact id
    | ok r st' =>
      cases r with
      | done p => exact id
      | again f' => exact fun ⟨_, _, less, _⟩ => absurd less (Nat.not_lt_zero _)
  | some found =>
    obtain ⟨dropped, l⟩ := found
    obtain ⟨own, is⟩ := footing.above
    have mid_eq := eq_append_of_landing? lands
    have here : st.frames = (top ++ (mid ++ own)) ++ base := by rw [here, is, List.append_assoc, List.append_assoc]
    have lands : landing? (top ++ (mid ++ own)) = some (top ++ dropped, l.onto own) := by
      rw [landing?_append transparent, landing?_append_of_some lands]
      rfl
    have below_eq (below : List Frame) : below ++ own ++ base = below ++ foot := by rw [is, List.append_assoc]
    rw [land_eq here, lands]
    cases l with
    | protectedCall handler below =>
      have inside : Inside below := fun fr mem => inside fr (by simp [mid_eq, Landing.frames, mem])
      exact landed_giveUp footing _ _ fun f' st' _ => landed_deliver footing _ _ inside (below_eq below) st'
    | resumption t wrapped below =>
      have inside : Inside below := fun fr mem => inside fr (by simp [mid_eq, Landing.frames, mem])
      cases wrapped with
      | false => exact landed_giveUp footing _ _ fun f' st' _ => landed_deliver footing _ _ inside (below_eq below) _
      | true =>
        have less : below.length < mid.length := by simp [mid_eq, Landing.frames]; omega
        refine landed_giveUp footing _ _ fun f' st' here => ?_
        have raised (f : Failure) (st : State) (here : st.frames = below ++ own ++ base) (unseen : ∀ v, f ≠ .raised v true) :
            Landed foot after good leaves mid.length (.ok (.again f) st) :=
          ⟨below, inside, less, .of_unseen unseen (here.trans (below_eq below))⟩
        let closed : State := { st' with heap := st'.heap.setThread t .dead }
        obtain ⟨b, placed⟩ := exists_position 1 closed
        have text (c : Bytes) : Landed foot after good leaves mid.length
            ((do return .again (.raised (.str ((← position 1) ++ c)) false) : M Recovery) closed) := by
          rw [bind_of_ok placed]
          exact raised _ _ here nofun
        cases f' with
        | memory => exact raised _ _ here nofun
        | exhausted => exact text _
        | raised v wasSeen =>
          cases v with
          | str c => exact text c
          | _ => exact raised _ _ here nofun

/-- A failure above the foot is settled by a recovery that can try each of the frames there. -/
theorem settled_recover (n : Nat) (f : Failure) (enough : mid.length < n) (inside : Inside mid)
    (fails : FailsAbove (mid ++ foot) f st) : Settled foot after good leaves (recover (call d) base.length n f st) := by
  induction n generalizing mid f st with
  | zero => exact absurd enough (Nat.not_lt_zero _)
  | succ n ih =>
    obtain ⟨f', st', answered, fails', seen⟩ := exists_seen footing.calls fails
    rw [recover_succ, bind_of_ok answered]
    by_cases goes : f' = .exhausted
    · subst goes
      exact .inl rfl
    · rw [recoverSeen_eq goes]
      have landed := landed_land footing f' inside fails' goes seen
      change Settled foot after good leaves (EStateM.bind (land (call d) base.length f') _ st')
      unfold EStateM.bind
      cases done : land (call d) base.length f' st' with
      | error f'' st'' =>
        rw [done] at landed
        exact landed
      | ok r st'' =>
        rw [done] at landed
        cases r with
        | done p => exact landed
        | again f'' =>
          obtain ⟨mid', inside', less, fails''⟩ := landed
          exact ih f'' (by omega) inside' fails''

/-- What a run does is settled, whether it succeeds or fails above the foot. -/
theorem settled_attempt {act : M Progress} (above : Above foot after good (act st)) :
    Settled foot after good leaves (attempt (call d) base.length act st) := by
  change Settled foot after good leaves (EStateM.tryCatch act _ st)
  unfold EStateM.tryCatch
  cases done : act st with
  | ok p st' =>
    rw [done] at above
    cases p <;> exact above
  | error f st' =>
    rw [done] at above
    obtain ⟨mid, inside, fails⟩ := above
    by_cases goes : f = .exhausted
    · subst goes
      exact .inl rfl
    · obtain ⟨top, here, _⟩ := fails.above.resolve_left goes
      have enough : mid.length < st'.frames.length + 1 := by
        rw [here, List.length_append, List.length_append]
        omega
      exact settled_recover footing _ f enough inside fails

/-- A run that ended gave results at the foot, or ran out of steps, or left the foot by an error. -/
def Ended (after : List Frame) (good : List Value → Heap → Prop) (leaves : Failure → State → Prop) :
    EStateM.Result Failure State (List Value) → Prop
  | .ok vs st => st.frames = after ∧ good vs st.heap
  | .error f st => f = .exhausted ∨ leaves f st

theorem ended_loop (n : Nat) (p : Progress) (settled : Settled foot after good leaves (.ok p st)) :
    Ended after good leaves (loop (call d) base.length n p st) := by
  induction n generalizing p st with
  | zero =>
    cases p with
    | running => exact .inl rfl
    | finished vs => exact settled
  | succ n ih =>
    cases p with
    | finished vs => exact settled
    | running =>
      obtain ⟨a, mid, inside, here⟩ := settled
      have stepped := settled_attempt footing
        (above_step footing.closes (fun by' f args => (footing.calls by' f args).steady) footing.outside inside here)
      change Ended after good leaves (EStateM.bind (attempt (call d) base.length (step (call d))) (loop (call d) base.length n) st)
      unfold EStateM.bind
      cases done : attempt (call d) base.length (step (call d)) st with
      | ok p st' =>
        rw [done] at stepped
        exact ih p stepped
      | error f st' =>
        rw [done] at stepped
        exact stepped

end Footing

/-- Nothing is recovered from an error that passes all frames of a run. -/
theorem recover_ne_ok {d n : Nat} {p : Progress} (calls : ∀ by' f args, Calm (call d by' f args)) (fails : FailsAbove frames f st) :
    recover (call d) frames.length n f st ≠ .ok p st' := by
  cases n with
  | zero => exact nofun
  | succ n =>
    obtain ⟨f', st₁, answered, fails', _⟩ := exists_seen calls fails
    rw [recover_succ, bind_of_ok answered]
    by_cases goes : f' = .exhausted
    · subst goes
      exact nofun
    · obtain ⟨top, here, transparent⟩ := fails'.above.resolve_left goes
      rw [recoverSeen_eq goes, Ne, bind_eq_ok]
      rintro ⟨r, st₂, landed, _⟩
      rw [land_eq here, landing?_of_transparent transparent] at landed
      cases landed

/-- What a run does first. -/
def opening (act : M Progress) : M Progress := do
  checkNesting (nesting (← get).frames)
  modify fun st => { st with latest := none }
  act

theorem above_opening {act : M Progress} (inside : Inside mid) (here : st.frames = mid ++ foot)
    (others : ∀ st', st'.frames = mid ++ foot → Above foot after good (act st')) : Above foot after good (opening act st) :=
  .bind steady_get inside here fun _ _ here => .bind (steady_checkNesting _) inside here fun _ _ here =>
    .bind (steady_modify fun _ => rfl) inside here fun _ st' here => others st' here

/-- A run above a frame that marks its end, which begins as it should, ends as it should. -/
theorem ended_runAbove {d : Nat} {leaves : Failure → State → Prop} {end' : Frame} {act : M Progress}
    (footing : Footing d (end' :: st.frames) foot after good leaves)
    (begins : Above foot after good (opening act { st with frames := end' :: st.frames })) :
    Ended after good leaves (runAbove (call d) end' act st) := by
  have settled := settled_attempt footing begins
  change Ended after good leaves (EStateM.bind (attempt (call d) (end' :: st.frames).length (opening act))
    (loop (call d) (end' :: st.frames).length maxSteps) { st with frames := end' :: st.frames })
  unfold EStateM.bind
  cases done : attempt (call d) (end' :: st.frames).length (opening act) { st with frames := end' :: st.frames } with
  | ok p st' =>
    rw [done] at settled
    exact ended_loop footing _ p settled
  | error f st' =>
    rw [done] at settled
    exact settled

/-! ### Calls by library functions -/

/-- A call that a library function makes is given back the frames as they were. It fails with errors that their
handler has seen, if there is one. -/
theorem calm_call (d : Nat) (by' : Option Native) (f : Value) (args : List Value) : Calm (call d by' f args) := by
  induction d generalizing by' f args with
  | zero => exact ⟨steady_exhausted, fun st f st' v failed => by cases failed; exact nofun⟩
  | succ d ih =>
    have ended (st : State) : Ended st.frames (fun _ _ => True) (fun f st' => FailsAbove st.frames f st' ∧ ∀ v, f ≠ .raised v false)
        (call (d + 1) by' f args st) := by
      have through : Transparent [Frame.boundary by'] := List.forall_mem_cons.mpr ⟨rfl, transparent_nil⟩
      have footing : Footing d (.boundary by' :: st.frames) (.boundary by' :: st.frames) st.frames (fun _ _ => True)
          (fun f st' => FailsAbove st.frames f st' ∧ ∀ v, f ≠ .raised v false) := {
        calls := ih
        closes := fun vs st => ⟨vs, rfl, trivial⟩
        outside := outside_cons rfl _
        above := ⟨[], rfl⟩
        lands := fun f st' fails goes seen => by
          obtain ⟨top, here, transparent⟩ := fails.above.resolve_left goes
          rw [land_eq here, landing?_of_transparent transparent]
          refine .inr ⟨⟨.inr ⟨top ++ [.boundary by'], ?_, transparent.append through⟩, fails.seen⟩, seen⟩
          rw [here, List.append_assoc]
          rfl }
      refine ended_runAbove footing (above_opening inside_nil rfl fun st' here => ?_)
      exact above_start footing.closes (fun by' f args => (ih by' f args).steady) footing.outside none false true maxDirect f args
        inside_nil here
    refine ⟨fun st => ?_, fun st e st' v failed => ?_⟩
    · have := ended st
      revert this
      cases call (d + 1) by' f args st with
      | ok vs st' => exact fun ended => ended.1
      | error e st' =>
        rintro (rfl | ⟨fails, _⟩)
        · exact ⟨.inl rfl, nofun⟩
        · exact fails
    · have := ended st
      rw [failed] at this
      rcases this with rfl | ⟨_, seen⟩
      · exact nofun
      · exact seen v

/-- A run in which something that leaves the frames alone fails has no results. -/
theorem attempt_eq_ok {d : Nat} {act : M α} {next : α → M Progress} {p : Progress}
    (steady : Steady act) (sure : ∀ a st, ∃ p st', next a st = .ok p st') (here : st.frames = frames)
    (done : attempt (call d) frames.length (act >>= next) st = .ok p st') :
    ∃ a st₁, act st = .ok a st₁ ∧ next a st₁ = .ok p st' := by
  have kept := steady st
  change EStateM.tryCatch (EStateM.bind act next) _ st = _ at done
  unfold EStateM.tryCatch EStateM.bind at done
  cases acted : act st with
  | ok a st₁ =>
    obtain ⟨p', st₂, went⟩ := sure a st₁
    rw [acted] at done
    dsimp only at done
    rw [went] at done
    exact ⟨a, st₁, rfl, went.trans done⟩
  | error f st₁ =>
    rw [acted] at done kept
    rw [here] at kept
    exact absurd done (recover_ne_ok (fun by' f args => calm_call d by' f args) kept)

end LuaCapsule.Lua.Machine
