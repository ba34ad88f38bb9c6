import LuaCapsule.Proofs.Calls
import LuaCapsule.Proofs.HostRuns
import LuaCapsule.Proofs.RunDiscipline

/-! How a call comes out. A function that returns gives the first of its results. A function that raises an
error gives a report of it, which the host's own handler makes where the error is raised, and what the
report says is the error that the caller gets. -/

namespace LuaCapsule

open Lua

/-! ### Text that leaves an interpreter -/

namespace Bytes

/-- How a byte is written where bytes must be text. -/
def escape (c : UInt8) : List Char :=
  if c < 128 then [Char.ofNat c.toNat] else ['\\', 'x', Nat.digitChar (c.toNat / 16), Nat.digitChar (c.toNat % 16)]

/-- The bytes of that. -/
def spelled (c : UInt8) : List UInt8 :=
  if c < 128 then [c] else [92, 120, hexDigit (c.toNat / 16), hexDigit (c.toNat % 16)]

theorem encode_escape (c : UInt8) : (escape c).flatMap String.utf8EncodeChar = spelled c := by
  have all : ∀ n < 256, (escape (UInt8.ofNat n)).flatMap String.utf8EncodeChar = spelled (UInt8.ofNat n) := by decide +kernel
  have one := all c.toNat c.toNat_lt
  rwa [UInt8.ofNat_toNat] at one

/-- Bytes are gone through as the items of their array are. -/
theorem foldl_eq {β : Type} (f : β → UInt8 → β) (init : β) (b : Bytes) : b.foldl f init = b.data.toList.foldl f init := by
  have loops (stop : Nat) (h : stop ≤ b.size) (i j : Nat) (acc : β) :
      ByteArray.foldlM.loop (m := Id) (fun acc c => pure (f acc c)) b stop h i j acc =
        Array.foldlM.loop (m := Id) (fun acc c => pure (f acc c)) b.data stop h i j acc := by
    induction i generalizing j acc with
    | zero =>
      unfold ByteArray.foldlM.loop Array.foldlM.loop
      rfl
    | succ i ih =>
      unfold ByteArray.foldlM.loop Array.foldlM.loop
      split
      · exact ih (j + 1) _
      · rfl
  rw [Array.foldl_toList]
  unfold ByteArray.foldl ByteArray.foldlM Array.foldl Array.foldlM
  rw [dif_pos (Nat.le_refl _), dif_pos (Nat.le_refl _)]
  exact loops b.size (Nat.le_refl _) (b.size - 0) 0 init

/-- Bytes that are no text are escaped one by one. -/
theorem printable_eq {b : Bytes} (binary : b.toText? = none) : b.printable = ofList (b.data.toList.flatMap spelled) := by
  have lead : (ofString "\\x").data = #[92, 120] := by decide
  have each (l : List UInt8) (acc : Bytes) : l.foldl (fun acc c => if c < 128 then acc.push c
      else acc ++ ofString "\\x" ++ toHex ⟨#[c]⟩) acc = acc ++ ofList (l.flatMap spelled) := by
    induction l generalizing acc with
    | nil => exact (ByteArray.append_empty).symm
    | cons c l ih =>
      rw [List.foldl_cons, ih, List.flatMap_cons, spelled]
      split
      · apply ByteArray.ext
        simp [ofList]
      · apply ByteArray.ext
        simp [ofList, toHex, lead]
  rw [printable, binary, if_neg (by decide), foldl_eq, each, ByteArray.empty_append]

/-- The text of a string, or of its bytes with an escape for each that is no ASCII character. -/
def escaped (b : Bytes) : String :=
  match b.toText? with
  | some s => s
  | none => String.ofList (b.data.toList.flatMap escape)

/-- What leaves an interpreter of a string is text. -/
theorem toText?_printable (b : Bytes) : b.printable.toText? = some b.escaped := by
  unfold escaped
  cases text : b.toText? with
  | some s => rw [printable, text, if_pos Option.isSome_some, text]
  | none =>
    have bytes : ofString (String.ofList (b.data.toList.flatMap escape)) = b.printable := by
      rw [printable_eq text]
      change ((b.data.toList.flatMap escape).flatMap String.utf8EncodeChar).toByteArray = _
      rw [List.flatMap_assoc]
      simp only [encode_escape]
      apply ByteArray.ext
      simp [ofList]
    rw [← bytes, toText?_ofString]

end Bytes

namespace Lua

variable {st st' : State} {e : Value} {vs : List Value}

/-! ### The report of an error -/

namespace Reporting

theorem printable_str (b : Bytes) : printable (.str b) = .text b.escaped :=
  congrArg Value.str (Bytes.ofString_toText? (Bytes.toText?_printable b)).symm

/-- Is a table the report of an error? It has the mark, what can leave the interpreter of the error, and a trace. -/
structure Reports (h : Heap) (t : Nat) (e : Value) : Prop where
  bare : (h.table t).metatable = none
  marked : (h.table t).get mark = .bool true
  error : (h.table t).get (.text "err") = printable e
  trace : ∃ s : String, (h.table t).get (.text "trace") = .text s

theorem Reports.of_table {h h' : Heap} {t : Nat} (reports : Reports h t e) (same : h'.table t = h.table t) :
    Reports h' t e := by
  obtain ⟨bare, marked, error, trace⟩ := reports
  rw [← same] at bare marked error trace
  exact ⟨bare, marked, error, trace⟩

theorem err_ne_trace : Key.text "err" ≠ Key.text "trace" := by decide

theorem mark_ne_err : mark ≠ Key.text "err" := by decide

theorem mark_ne_trace : mark ≠ Key.text "trace" := by decide

theorem reports_of_report {s : Site} (done : report s st = .ok vs st') :
    ∃ t, vs = [.table t] ∧ Reports st'.heap t (s.arg 1) := by
  obtain ⟨message, st₁, _, done⟩ := bind_eq_ok.mp done
  obtain ⟨_, _, ⟨⟩, done⟩ := bind_eq_ok.mp done
  obtain ⟨id, st₂, made, ⟨⟩⟩ := bind_eq_ok.mp done
  generalize Debugging.trace (some message) (Debugging.traceFrames st₁.heap (levels st₁.frames)) = trace at made
  let report : Table := (((Table.withRoom 0 3).set mark (.bool true)).set (.text "err") (printable (s.arg 1))).set (.text "trace")
    (.str trace.printable)
  have works : Works st₁ _ (newTable report) := .newTable report
  unfold Works at works
  rw [made] at works
  obtain ⟨_, rfl, here⟩ := works
  have table : st'.heap.table st₁.heap.tables.size = report := by rw [here, Heap.table_newTable, if_pos rfl]
  refine ⟨_, rfl, ?_, ?_, ?_, trace.escaped, ?_⟩
  · rw [table, Table.metatable_set, Table.metatable_set, Table.metatable_set]
    rfl
  · rw [table, Table.get_set, if_neg mark_ne_trace.symm, Table.get_set, if_neg mark_ne_err.symm, Table.get_set, if_pos rfl]
  · rw [table, Table.get_set, if_neg err_ne_trace.symm, Table.get_set, if_pos rfl]
  · rw [table, Table.get_set, if_pos rfl]
    exact printable_str trace

end Reporting

namespace Machine

/-- Whenever the handler of the host answers an error, it answers with a report of it. -/
theorem exists_report {d : Nat} {by' : Option Native} (ran : call d by' (.native .reporter) [e] st = .ok vs st') :
    ∃ t, vs = [.table t] ∧ Reporting.Reports st'.heap t e := by
  cases d with
  | zero => cases ran
  | succ d =>
    let s : Site := ⟨.reporter, none, [e], call d (some .reporter)⟩
    let enters : M Unit := do
      checkNesting (nesting (← get).frames)
      modify fun st => { st with latest := none }
      modify fun st => { st with latest := some .reporter }
    let leaves (vs : List Value) : M Progress := do
      modify fun st => { st with latest := none }
      deliver vs (← get).frames
    have steady : Steady (enters >>= fun _ => Reporting.report s) :=
      .bind (.bind steady_get fun _ => .bind (steady_checkNesting _) fun _ => .bind (steady_modify fun _ => rfl) fun _ =>
        steady_modify fun _ => rfl) fun _ => Reporting.steady_report fun f args => (calm_call d _ f args).steady
    have begun : opening (begin' (call d) none false true (.native .reporter) [e]) =
        (enters >>= fun _ => Reporting.report s) >>= leaves := by
      simp only [opening, enters, bind_assoc]
      rfl
    let inside : State := { st with frames := .boundary by' :: st.frames }
    have ran : (attempt (call d) inside.frames.length (opening (begin' (call d) none false true (.native .reporter) [e])) >>=
        loop (call d) inside.frames.length maxSteps) inside = .ok vs st' := ran
    rw [begun] at ran
    obtain ⟨p, st₁, attempted, looped⟩ := bind_eq_ok.mp ran
    have sure (vs : List Value) (st : State) : ∃ p st', leaves vs st = .ok p st' :=
      exists_deliver vs st.frames { st with latest := none }
    obtain ⟨vs', st₂, worked, left⟩ := attempt_eq_ok steady sure rfl attempted
    have same : st₂.frames = .boundary by' :: st.frames := by
      have kept := steady inside
      rw [worked] at kept
      exact kept
    change deliver vs' st₂.frames { st₂ with latest := none } = _ at left
    rw [same] at left
    cases left
    cases looped
    obtain ⟨_, st₃, _, reported⟩ := bind_eq_ok.mp worked
    exact Reporting.reports_of_report reported

end Machine

end Lua

/-! ### What a decoder refuses -/

namespace Codec

variable {α β : Type}

/-- Are the faults of the device that an operation ends with all about values without a structured form? -/
def Declines (act : VmM α) : Prop := ∀ vm f vm', act vm = .error f vm' → f.isDevice = true → f.isDecode = true

namespace Declines

theorem of_ok {act : VmM α} (succeeds : ∀ vm, ∃ a vm', act vm = .ok a vm') : Declines act := by
  intro vm f vm' failed
  obtain ⟨a, vm₁, done⟩ := succeeds vm
  cases done.symm.trans failed

theorem pure (a : α) : Declines (Pure.pure a : VmM α) := .of_ok fun vm => ⟨a, vm, rfl⟩

theorem bind {act : VmM α} {next : α → VmM β} (one : Declines act) (others : ∀ a, Declines (next a)) :
    Declines (act >>= next) := by
  intro vm f vm' failed
  change EStateM.bind act next vm = _ at failed
  unfold EStateM.bind at failed
  cases done : act vm with
  | ok a vm₁ =>
    rw [done] at failed
    exact others a vm₁ f vm' failed
  | error f₁ vm₁ =>
    rw [done] at failed
    cases failed
    exact one vm f vm' done

theorem throw {f : Fault} (own : f.isDevice = true → f.isDecode = true) : Declines (MonadExcept.throw f : VmM α) := by
  intro vm f vm' failed
  cases failed
  exact own

theorem ofExcept {e : Except Fault α} (own : ∀ f, e = .error f → f.isDecode = true) : Declines (VmM.ofExcept e) := by
  cases e with
  | ok a => exact pure a
  | error f => exact throw fun _ => own f rfl

theorem mapM {act : α → VmM β} (each : ∀ a, Declines (act a)) (l : List α) : Declines (l.mapM act) := by
  induction l with
  | nil => exact pure []
  | cons a l ih =>
    rw [List.mapM_cons]
    exact (each a).bind fun b => ih.bind fun bs => pure (b :: bs)

end Declines

theorem declines_leaf (h : Heap) (v : Value) : Declines (VmM.ofExcept (leaf h v)) := .ofExcept fun f failed => by
  unfold leaf at failed
  split at failed <;> cases failed <;> rfl

theorem declines_checkEntries (h : Heap) (entries : List (Key × Value)) : Declines (VmM.ofExcept (checkEntries h entries)) :=
  .ofExcept fun f failed => by
    unfold checkEntries at failed
    split at failed
    · cases failed
      rfl
    · split at failed <;> cases failed
      rfl

/-- What goes wrong while the language compares two metatables is no fault of the device. -/
theorem declines_isSequence (t : Nat) : Declines (Vm.isSequence t) := by
  unfold Vm.isSequence
  refine .bind (.of_ok fun _ => ⟨_, _, rfl⟩) fun h => ?_
  split
  · exact .pure _
  · split
    · exact .pure _
    · refine .bind ?_ fun _ => .pure _
      unfold Vm.runOrFail
      refine .bind (.of_ok fun vm => Vm.run_eq_ok _ vm) fun r => ?_
      split
      · exact .pure _
      · exact .throw fun device => by cases device
      next f _ =>
        split
        · exact .throw fun device => by cases device
        next f' failed =>
          refine .throw fun device => ?_
          have undecodable : f' = .undecodable := by
            cases f with
            | memory => cases failed
            | exhausted => cases failed
            | raised v seen =>
              change Vm.errorText v = _ at failed
              unfold Vm.errorText at failed
              dsimp only at failed
              split at failed
              · split at failed <;> cases failed
                rfl
              · cases failed
          rw [undecodable] at device
          cases device

theorem declines_decodeNested (limit : Int) (fuel : Nat) (h : Heap) (v : Value) : Declines (decodeNested limit fuel h v) := by
  induction fuel generalizing h v with
  | zero =>
    unfold decodeNested
    split
    · exact .throw fun _ => rfl
    · exact declines_leaf h _
  | succ fuel ih =>
    unfold decodeNested
    split
    next t =>
      refine .bind (.of_ok fun _ => ⟨_, _, rfl⟩) fun h => .bind (.of_ok fun _ => ⟨_, _, rfl⟩) fun _ =>
        .bind (declines_checkEntries h _) fun _ => .bind (declines_isSequence t) fun marked => ?_
      dsimp only
      split
      · exact .bind (.mapM (fun e : Key × Value => ih h e.2) _) fun _ => .pure _
      · exact .bind (.mapM (fun e : Key × Value => .bind (ih h e.2) fun _ => .pure _) _) fun _ => .pure _
    next => exact declines_leaf h _

theorem declines_decode (limit : Int) (v : Value) : Declines (decode limit v) :=
  .bind (.of_ok fun _ => ⟨_, _, rfl⟩) fun h => .bind (.of_ok fun _ => ⟨_, _, rfl⟩) fun _ => declines_decodeNested limit _ h v

end Codec

namespace Vm

variable {vm : Vm} {st : State} {handler : Option Value} {t n : Nat} {function : String}

/-! ### What comes back from a function -/

open Machine

/-- What comes back of an error: the message that there is no memory, or what the host's handler answered where the
error was raised. After that, variables may have been closed. -/
inductive Arrives : Value → Heap → Prop
  | memory {h : Heap} : Arrives memoryMessage h
  | answered {v : Value} {h₀ h : Heap} (answered : AnsweredBy (.native .reporter) v h₀) (closing : Closing (.raised v true) h₀ h) :
    Arrives v h

/-- Is this what comes back of a call: results behind a mark, or an error behind another mark? -/
def Comes (ws : List Value) (h : Heap) : Prop := (∃ rs, ws = .bool true :: rs) ∨ ∃ v, ws = [.bool false, v] ∧ Arrives v h

theorem arrives_of_closing {f : Failure} {h₀ h : Heap} (goes : f ≠ .exhausted) (seen : ∀ v, f ≠ .raised v false)
    (answered : ∀ v, f = .raised v true → AnsweredBy (.native .reporter) v h₀) (closing : Closing f h₀ h) : Arrives f.value h := by
  cases f with
  | exhausted => exact absurd rfl goes
  | memory => exact .memory
  | raised v wasSeen =>
    cases wasSeen with
    | false => exact absurd rfl (seen v)
    | true => exact .answered (answered v rfl) closing

/-- The frames that wait for a function. -/
def guards (handler : Option Value) : List Frame := [.protected' (some (.native .reporter)), .host 126, .hostCall handler]

theorem footing_guards (handler : Option Value) :
    Footing maxDepth [.hostCall handler] (guards handler) [] Comes fun _ _ => False where
  calls := calm_call maxDepth
  closes := fun vs st => ⟨.bool true :: vs, rfl, .inl ⟨vs, rfl⟩⟩
  outside := ((outside_cons rfl []).cons fun t w => by simp).cons fun t w => by simp
  above := ⟨[.protected' (some (.native .reporter)), .host 126], rfl⟩
  lands := fun f st fails goes seen => by
    obtain ⟨top, here, transparent⟩ := fails.above.resolve_left goes
    have own : st.frames = (top ++ [.protected' (some (.native .reporter)), .host 126]) ++ [.hostCall handler] := by
      rw [here, List.append_assoc]
      rfl
    have lands : landing? (top ++ [.protected' (some (.native .reporter)), .host 126]) =
        some (top ++ [], .protectedCall (some (.native .reporter)) [.host 126]) := by
      rw [landing?_append transparent]
      rfl
    have given := giveUp_spec (calm_call maxDepth) (top ++ []) f (.protected' (some (.native .reporter)))
      ([.host 126] ++ [.hostCall handler]) st
    rw [land_eq own, lands]
    change Landed (guards handler) [] Comes (fun _ _ => False) 0 (EStateM.bind
      (giveUp (call maxDepth) (top ++ []) f (.protected' (some (.native .reporter))) ([.host 126] ++ [.hostCall handler])) _ st)
    unfold EStateM.bind
    cases done : giveUp (call maxDepth) (top ++ []) f (.protected' (some (.native .reporter))) ([.host 126] ++ [.hostCall handler]) st with
    | error f' st' =>
      rw [done] at given
      exact .inl given
    | ok f' st' =>
      rw [done] at given
      refine ⟨rfl, .inr ⟨_, rfl, ?_⟩⟩
      rcases given.2 with ⟨rfl, closing⟩ | ⟨h, late, closing⟩
      · exact arrives_of_closing goes seen (fun v is => fails.seen v is _ rfl) closing
      · exact arrives_of_closing late.goes late.seen (fun v is => late.answered v is _ rfl) closing

/-- A global function is called above the frames that wait for it. -/
theorem above_callGlobal (name : Bytes) (vs : List Value) (here : st.frames = [.host 126, .hostCall handler]) :
    Above (guards handler) [] Comes (callGlobal name vs st) := by
  have footing := footing_guards handler
  have calls (by' : Option Native) (f : Value) (args : List Value) : Steady (call maxDepth by' f args) :=
    (calm_call maxDepth by' f args).steady
  have line : Inside [Frame.host 122] := inside_nil.cons rfl
  have called {rest : Value × List Value → M Progress} (rests : ∀ found {st : State}, st.frames = [.host 122] ++ guards handler →
      Above (guards handler) [] Comes (rest found st)) (f : Value) {st : State} (here : st.frames = [.host 122] ++ guards handler) :
      Above (guards handler) [] Comes ((callee (some calledOrigin) 100 f vs >>= rest) st) :=
    .bind (steady_callee _ _ _ _) line here fun found st here => rests found here
  have waits : Frame.host 122 :: .protected' (some (.native .reporter)) :: st.frames = [.host 122] ++ guards handler :=
    congrArg (Frame.host 122 :: .protected' (some (.native .reporter)) :: ·) here
  unfold callGlobal
  refine .pushFrame_bind (.pushFrame_bind (.getHeap_bind ?_))
  simp only [pure_bind]
  cases st.heap.index (.table Fixed.globals) (.str name)
  case' value v => refine called ?_ v waits
  case' call f args => refine .bind (calls none f args) line waits fun vs st here => called ?_ _ here
  case' fault c => refine .bind (steady_raiseHere _) line waits fun v st here => called ?_ v here
  all_goals
    rintro ⟨f, args⟩ st here
    dsimp only
    split
    next id =>
      let popped : State := { st with frames := st.frames.tail }
      have tail : popped.frames = [] ++ guards handler := congrArg List.tail here
      exact above_start footing.closes calls footing.outside (some calledOrigin) true true maxDirect (.ref (.closure id)) args
        inside_nil tail
    next => exact above_start footing.closes calls footing.outside _ _ _ _ _ _ line here

/-- Does the call of a global function with the first `n` items of a table end within the steps that a run can
take? -/
def Terminates (function : String) (args : Value) (n : Nat) (handler : Option Value) (st : State) : Prop := ∀ st',
  runAbove callFunction (.hostCall handler) (beginGlobal (Bytes.ofString function) args n) st ≠ .error .exhausted st'

theorem run_of_ok {α : Type} {act : M α} {a : α} (done : act vm.idle = .ok a st) :
    run act vm = .ok (.ok a) { vm with heap := st.heap } := by
  unfold run
  rw [show act { heap := vm.heap, cap := vm.cap } = .ok a st from done]

theorem steady_resolve (o : Lua.Outcome) : Steady (resolve o) := by
  have calls (by' : Option Native) (f : Value) (args : List Value) : Steady (callFunction by' f args) :=
    (calm_call _ by' f args).steady
  unfold resolve
  grind

theorem steady_traceHandler : Steady traceHandler := by
  have := steady_resolve
  unfold traceHandler
  grind

/-- A call that ends has results or an error. -/
theorem exists_comes (searched : traceHandler vm.idle = .ok handler st) (silent : st.heap.metamethod (.table t) "__index" = .nil)
    (few : (n : Int) ≤ Tables.maxResults) (ends : Terminates function (.table t) n handler st) :
    ∃ ws vm', called function (.table t) n vm = .ok (.ok ws) vm' ∧ Comes ws vm'.heap := by
  have kept := steady_traceHandler vm.idle
  rw [searched] at kept
  have here : .hostCall handler :: st.frames = [.hostCall handler] := congrArg _ kept
  have ended : Ended [] Comes (fun _ _ => False)
      (runAbove callFunction (.hostCall handler) (beginGlobal (Bytes.ofString function) (.table t) n) st) := by
    refine ended_runAbove (here ▸ footing_guards handler) ?_
    let called : State := { st with frames := [.host 126, .hostCall handler], latest := none }
    have fits : isInt64 n = true := Binary64.isInt64_iff.mpr (by unfold Tables.maxResults at few; omega)
    have spreads := @spread_eq called t silent n fits
    rw [if_pos few] at spreads
    rw [here]
    change Above (guards handler) [] Comes ((spread (.table t) n >>= callGlobal (Bytes.ofString function)) called)
    rw [bind_of_ok spreads]
    exact above_callGlobal _ _ rfl
  cases ran : runAbove callFunction (.hostCall handler) (beginGlobal (Bytes.ofString function) (.table t) n) st with
  | error f st' =>
    rw [ran] at ended
    obtain rfl := ended.resolve_right id
    exact absurd ran (ends st')
  | ok ws st' =>
    rw [ran] at ended
    refine ⟨ws, { vm with heap := st'.heap }, ?_, ended.2⟩
    have hosted : (traceHandler >>= fun handler => asHost handler (beginGlobal (Bytes.ofString function) (.table t) n)) vm.idle =
        .ok ws st' := by
      rw [bind_of_ok searched]
      change EStateM.tryCatch (runAbove callFunction (.hostCall handler) (beginGlobal (Bytes.ofString function) (.table t) n)) _ st = _
      rw [EStateM.tryCatch, ran]
    exact run_of_ok hosted

/-! ### What the host reads -/

theorem printable_text (s : String) : Reporting.printable (.text s) = .text s := by
  change Reporting.printable (.str (Bytes.ofString s)) = _
  rw [Reporting.printable_str, Bytes.escaped, Bytes.toText?_ofString]

/-- Whatever leaves an interpreter of an error, it is no string that is no text. -/
theorem isText_printable (e : Value) : Codec.isText (Reporting.printable e) = true := by
  cases e with
  | str b => rw [Reporting.printable, Codec.isText, Bytes.toText?_printable, Option.isSome_some]
  | _ => rfl

theorem isText_text (s : String) : Codec.isText (.text s) = true := by
  rw [← printable_text]
  exact isText_printable _

theorem scalar?_text (s : String) : Codec.scalar? (.text s) = some (.text s) := by
  change (Bytes.ofString s).toText?.map Datum.text = _
  rw [Bytes.toText?_ofString]
  rfl

theorem reported_eq {r : Nat} (bare : (st.heap.table r).metatable = none) (name : String) :
    reported r name st = .ok ((st.heap.table r).get (.text name)) st := by
  have raw : st.heap.index (.table r) (.text name) = .value (st.heap.rawGet r (.text name)) :=
    Heap.index_eq_raw (Heap.metamethod_of_bare bare _) _
  unfold reported
  rw [bind_of_ok (rfl : Lua.getHeap st = .ok st.heap st), raw]
  rfl

/-- What a report says is read from it. -/
theorem outcomeOf_of_reports {r : Nat} {e : Value} (reports : Reporting.Reports vm.heap r e) : ∃ s,
    outcomeOf (.ok [.bool false, .table r]) vm = .ok (.ok (.error (Reporting.printable e) (.text s))) vm := by
  obtain ⟨s, trace⟩ := reports.trace
  have read : Outcome.ofResults [.bool false, .table r] vm.idle = .ok (.error (Reporting.printable e) (.text s)) vm.idle := by
    change (if ((vm.heap.table r).get Reporting.mark).truthy then _ else _ : M Outcome) vm.idle = _
    have entry (name : String) : reported r name vm.idle = .ok ((vm.heap.table r).get (.text name)) vm.idle :=
      reported_eq reports.bare name
    rw [reports.marked, if_pos (show (Value.bool true).truthy = true from rfl), bind_of_ok (entry "err"), bind_of_ok (entry "trace")]
    change EStateM.Result.ok (Outcome.error ((vm.heap.table r).get (.text "err")) ((vm.heap.table r).get (.text "trace"))) _ = _
    rw [reports.error, trace]
  exact ⟨s, run_of_ok read⟩

/-- An error that is a text is one that no report could be made of. -/
theorem outcomeOf_text (s : String) (vm : Vm) :
    outcomeOf (.ok [.bool false, .text s]) vm = .ok (.ok (.error (.text s) .nil)) vm := by
  have read : Outcome.ofResults [.bool false, .text s] vm.idle = .ok (.error (.text s) .nil) vm.idle := by
    change EStateM.Result.ok (Outcome.error (Reporting.printable (.text s)) .nil) vm.idle = _
    rw [printable_text]
  exact run_of_ok read

/-- What the caller gets of an error: the error itself if it has a structured form, or else a text. Of a string it
gets the string, with an escape for each byte beyond ASCII if it is no text. -/
structure Renders (e : Value) (vm : Vm) (body : Datum) : Prop where
  string : ∀ b, e = .str b → body = .text b.escaped
  decoded : ∀ d vm', (∀ b, e ≠ .str b) → Codec.decode Codec.maxDepth e vm = .ok d vm' → body = d
  described : ∀ f vm', Codec.decode Codec.maxDepth e vm = .error f vm' → ∃ s, body = .text s

theorem decode_text (s : String) (vm : Vm) : Codec.decode Codec.maxDepth (.text s) vm = .ok (.text s) vm := by
  have leaf : Codec.leaf vm.heap (.text s) = .ok (.text s) := by
    rw [Codec.leaf, scalar?_text]
  change VmM.ofExcept (Codec.leaf vm.heap (.text s)) vm = _
  rw [leaf]
  rfl

/-- The caller gets something of an error that does not deceive. -/
theorem exists_errorBody {e : Value} (honest : ¬Codec.Deceives Codec.maxDepth (Reporting.printable e) vm) :
    ∃ body vm', errorBody (Reporting.printable e) vm = .ok body vm' ∧ Renders e vm body := by
  have stays : ¬Escapes (errorBody (Reporting.printable e) vm) := mt escapes_errorBody.mp honest
  by_cases string : ∃ b, e = .str b
  · obtain ⟨b, rfl⟩ := string
    have body : errorBody (Reporting.printable (.str b)) vm = .ok (.text b.escaped) vm := by
      rw [Reporting.printable_str]
      change EStateM.tryCatch (Codec.decode Codec.maxDepth (.text b.escaped)) _ vm = _
      rw [EStateM.tryCatch, decode_text]
    refine ⟨_, _, body, fun b' same => ?_, fun d vm' other => absurd rfl (other b), fun f vm' _ => ⟨_, rfl⟩⟩
    cases same
    rfl
  · have is : Reporting.printable e = e := by
      cases e with
      | str b => exact absurd ⟨b, rfl⟩ string
      | _ => rfl
    rw [is] at stays ⊢
    have caught : errorBody e vm = EStateM.tryCatch (Codec.decode Codec.maxDepth e)
      (fun f => if f.isDecode then do return .text (← describe (held vm.heap e)) else throw f) vm := rfl
    rw [caught, EStateM.tryCatch] at stays ⊢
    cases done : Codec.decode Codec.maxDepth e vm with
    | ok d vm' =>
      refine ⟨d, vm', rfl, fun b same => absurd ⟨b, same⟩ string, fun d' vm'' _ done' => ?_, fun f vm'' done' => ?_⟩
      · cases done.symm.trans done'
        rfl
      · cases done.symm.trans done'
    | error f vm' =>
      rw [done] at stays
      dsimp only at stays ⊢
      cases own : f.isDecode with
      | false =>
        rw [own] at stays
        cases device : f.isDevice with
        | false => exact absurd (escapes_error.mpr device) stays
        | true => cases own.symm.trans (Codec.declines_decode _ e vm f vm' done device)
      | true =>
        obtain ⟨s, vm'', described⟩ := exists_describe (held vm.heap e) vm'
        refine ⟨.text s, vm'', ?_, fun b same => absurd ⟨b, same⟩ string, fun d' vm'' _ done' => ?_,
          fun f vm'' _ => ⟨s, rfl⟩⟩
        · change (describe (held vm.heap e) >>= fun s => pure (Datum.text s)) vm' = _
          rw [bind_of_ok described]
          rfl
        · cases done.symm.trans done'

/-- Did the host's handler make a report of an error that was raised where it saw errors, and leave these objects? -/
def Reported (e : Value) (r : Nat) (h : Heap) : Prop := ∃ d st st', handler? st.frames = some (.native .reporter) ∧
  call d st.latest (.native .reporter) [e] st = .ok [.table r] st' ∧ st'.heap = h

/-- What an invocation comes to, by what comes back from the protected call. -/
inductive Answers (function : String) (vm : Vm) : List Value → EStateM.Result Fault Vm Value → Prop
  /-- The function returned: the first result, if it can leave the interpreter. -/
  | returned {rs : List Value} (text : Codec.isText (rs.headD .nil) = true) :
    Answers function vm (.bool true :: rs) (.ok (rs.headD .nil) vm)
  | bytes {rs : List Value} (binary : Codec.isText (rs.headD .nil) = false) :
    Answers function vm (.bool true :: rs) (.error Codec.textFault vm)
  /-- The function raised an error, and its report was made. -/
  | raised {e : Value} {r : Nat} {h : Heap} {body : Datum} {trace : String} {vm' : Vm} (reported : Reported e r h)
    (closing : Closing (.raised (.table r) true) h vm.heap) (renders : Renders e vm body) :
    Answers function vm [.bool false, .table r] (.error (.compute function body (.text trace)) vm')
  /-- The function raised an error that no report can be made of. -/
  | unreported {s : String} (is : s = "not enough memory" ∨ s = "error in error handling") :
    Answers function vm [.bool false, .text s] (.error (.compute function (.text s) .null) vm)

/-- The ways in which an error gets past an invocation: its report was changed by a function that closed a variable
afterwards, or the error deceives when it is decoded. -/
inductive Slips (vm : Vm) : List Value → Prop
  | changed {e : Value} {r : Nat} {h : Heap} (reported : Reported e r h) (closing : Closing (.raised (.table r) true) h vm.heap)
    (other : vm.heap.table r ≠ h.table r) : Slips vm [.bool false, .table r]
  | deceives {e : Value} {r : Nat} {h : Heap} (reported : Reported e r h) (closing : Closing (.raised (.table r) true) h vm.heap)
    (deceives : Codec.Deceives Codec.maxDepth (Reporting.printable e) vm) : Slips vm [.bool false, .table r]

/-- An error that comes back as text, with a trace or without one, is given to the caller. -/
theorem invoke_of_error {args v trace : Value} {ws : List Value} {vm' : Vm} (ran : called function args n vm = .ok (.ok ws) vm')
    (came : outcomeOf (.ok ws) vm' = .ok (.ok (.error v trace)) vm') (text : Codec.isText v = true) (text' : Codec.isText trace = true) :
    invoke function args n vm =
      (errorBody v >>= fun body => throw (.compute function body ((Codec.scalar? trace).getD .null)) : VmM Value) vm' := by
  rw [invoke_eq, bind_of_ok ran, bind_of_ok came]
  dsimp only
  rw [text, text', Bool.and_self, if_pos rfl]

/-- A call that ends has the first result of the function, or is refused because that is a string that is no text, or
has the error of the function as its own, unless the error slips past. -/
theorem invoke_outcome (searched : traceHandler vm.idle = .ok handler st) (silent : st.heap.metamethod (.table t) "__index" = .nil)
    (few : (n : Int) ≤ Tables.maxResults) (ends : Terminates function (.table t) n handler st) :
    ∃ ws vm', called function (.table t) n vm = .ok (.ok ws) vm' ∧
      (Answers function vm' ws (invoke function (.table t) n vm) ∨ Slips vm' ws) := by
  obtain ⟨ws, vm', ran, comes⟩ := exists_comes searched silent few ends
  refine ⟨ws, vm', ran, ?_⟩
  rcases comes with ⟨rs, rfl⟩ | ⟨v, rfl, arrives⟩
  · have came : outcomeOf (.ok (.bool true :: rs)) vm' = .ok (.ok (.result (rs.headD .nil))) vm' :=
      outcomeOf_eq_result.mpr ⟨⟨rs, rfl, rfl⟩, rfl⟩
    rw [invoke_eq, bind_of_ok ran, bind_of_ok came]
    dsimp only
    split
    next text => exact .inl (.returned text)
    next binary => exact .inl (.bytes (Bool.eq_false_iff.mpr binary))
  · have unreported (s : String) (is : s = "not enough memory" ∨ s = "error in error handling")
        (ran : called function (.table t) n vm = .ok (.ok [.bool false, .text s]) vm') :
        Answers function vm' [.bool false, .text s] (invoke function (.table t) n vm) := by
      have body : errorBody (.text s) vm' = .ok (.text s) vm' := by
        change EStateM.tryCatch (Codec.decode Codec.maxDepth (.text s)) _ vm' = _
        rw [EStateM.tryCatch, decode_text]
      rw [invoke_of_error ran (outcomeOf_text s vm') (isText_text s) rfl, bind_of_ok body]
      exact .unreported is
    cases arrives with
    | memory => exact .inl (unreported _ (.inl rfl) ran)
    | answered answered closing =>
      cases answered with
      | overflow => exact .inl (unreported _ (.inr rfl) ran)
      | @made d e _ st st' sees made =>
        obtain ⟨r, rfl, reports⟩ := exists_report made
        have reported : Reported e r st'.heap := ⟨d, st, st', sees, made, rfl⟩
        by_cases same : vm'.heap.table r = st'.heap.table r
        case neg => exact .inr (.changed reported closing same)
        by_cases honest : Codec.Deceives Codec.maxDepth (Reporting.printable e) vm'
        case pos => exact .inr (.deceives reported closing honest)
        obtain ⟨trace, came⟩ := outcomeOf_of_reports (reports.of_table same)
        obtain ⟨body, vm'', found, renders⟩ := exists_errorBody honest
        refine .inl ?_
        rw [invoke_of_error ran came (isText_printable e) (isText_text trace), bind_of_ok found, scalar?_text]
        exact .raised reported closing renders

/-! ### Calls that raise errors -/

/-- A program with a function that raises a string that is no text. -/
def failing : String := "function fail() error('\\255bad', 0) end"

/-- A program with a function that raises a table about which a function of the program is asked, and raises an error. -/
def deceiving : String :=
  "function fail() error(setmetatable(\x7b\x7d, setmetatable(\x7b\x7d, \x7b__eq = function() error('x') end\x7d))) end"

/-- An interpreter that ran a program. -/
def after (source : String) : Vm :=
  match load source ⟨Fixed.heap, none⟩ with
  | .ok _ vm => vm
  | .error _ vm => vm

/-- A call that came back has ended. -/
theorem terminates_of_called {args : Value} {ws : List Value} {vm' : Vm} (searched : traceHandler vm.idle = .ok handler st)
    (ran : called function args n vm = .ok (.ok ws) vm') : Terminates function args n handler st := by
  intro st' exhausted
  have failed : ∃ f st'', asHost handler (beginGlobal (Bytes.ofString function) args n) st = .error f st'' := by
    change ∃ f st'', EStateM.tryCatch (runAbove callFunction (.hostCall handler) (beginGlobal (Bytes.ofString function) args n)) _ st = _
    rw [EStateM.tryCatch, exhausted]
    change ∃ f st'', EStateM.bind (giveUp callFunction st'.frames .exhausted (.hostCall handler) []) throw st' = .error f st''
    unfold EStateM.bind
    cases giveUp callFunction st'.frames .exhausted (.hostCall handler) [] st' <;> exact ⟨_, _, rfl⟩
  obtain ⟨f, st'', failed⟩ := failed
  have hosted : (traceHandler >>= fun handler => asHost handler (beginGlobal (Bytes.ofString function) args n)) vm.idle = .error f st'' := by
    rw [bind_of_ok searched]
    exact failed
  have came : called function args n vm = .ok (.error f) { vm with heap := st''.heap } := by
    unfold called run
    rw [show (traceHandler >>= fun handler => asHost handler (beginGlobal (Bytes.ofString function) args n))
      { heap := vm.heap, cap := vm.cap } = .error f st'' from hosted]
  cases came.symm.trans ran

/-- A call that failed with a trace came back. -/
theorem exists_called {args : Value} {body : Datum} {trace : String} {vm' : Vm}
    (failed : invoke function args n vm = .error (.compute function body (.text trace)) vm') :
    ∃ ws vm₁, called function args n vm = .ok (.ok ws) vm₁ := by
  obtain ⟨r, vm₁, ran⟩ : ∃ r vm₁, called function args n vm = .ok r vm₁ := run_eq_ok _ vm
  cases r with
  | ok ws => exact ⟨ws, vm₁, ran⟩
  | error f =>
    have came : outcomeOf (.error f) vm₁ = .ok (.error f) vm₁ := rfl
    rw [invoke_eq, bind_of_ok ran, bind_of_ok came] at failed
    dsimp only at failed
    cases text : failureText f <;> rw [text] at failed <;> cases failed

/-- Did a call fail with this text for the error, and with a trace? -/
def isFailure (function body : String) : EStateM.Result Fault Vm Value → Bool
  | .error (.device ⟨.compute (.text f) (.text b) (.text _), .int status⟩) _ => f == function && b == body && status == 500
  | _ => false

theorem eq_of_isFailure {body : String} {r : EStateM.Result Fault Vm Value} (failed : isFailure function body r = true) :
    ∃ trace vm, r = .error (.compute function (.text body) (.text trace)) vm := by
  unfold isFailure at failed
  split at failed
  next =>
    simp only [Bool.and_eq_true, beq_iff_eq] at failed
    obtain ⟨⟨rfl, rfl⟩, rfl⟩ := failed
    exact ⟨_, _, rfl⟩
  next => cases failed

set_option maxRecDepth 100000 in
theorem calls_failing : (match Codec.encode (.list []) (after failing) with
    | .ok (.ref (.table t)) vm =>
      match traceHandler vm.idle with
      | .ok _ st => decide (st.heap.metamethod (.table t) "__index" = .nil) &&
        isFailure "fail" "\\xffbad" (invoke "fail" (.table t) 0 vm)
      | .error .. => false
    | _ => false) = true := by decide +kernel

/-- Of a string that is no text the caller gets the bytes with escapes. -/
theorem invoke_outcome_failing : ∃ t vm handler st, Codec.encode (.list []) (after failing) = .ok (.table t) vm ∧
    traceHandler vm.idle = .ok handler st ∧ st.heap.metamethod (.table t) "__index" = .nil ∧
    Terminates "fail" (.table t) 0 handler st ∧
    (∃ ws vm', called "fail" (.table t) 0 vm = .ok (.ok ws) vm' ∧
      (Answers "fail" vm' ws (invoke "fail" (.table t) 0 vm) ∨ Slips vm' ws)) ∧
    ∃ trace vm', invoke "fail" (.table t) 0 vm = .error (.compute "fail" (.text "\\xffbad") (.text trace)) vm' := by
  have facts := calls_failing
  split at facts
  next t vm entered =>
    split at facts
    next handler st searched =>
      simp only [Bool.and_eq_true, decide_eq_true_eq] at facts
      obtain ⟨silent, failure⟩ := facts
      obtain ⟨trace, vm', failed⟩ := eq_of_isFailure failure
      obtain ⟨ws, vm₁, ran⟩ := exists_called failed
      have ends := terminates_of_called searched ran
      exact ⟨t, vm, handler, st, entered, searched, silent, ends, invoke_outcome searched silent (by decide) ends,
        trace, vm', failed⟩
    next => cases facts
  next => cases facts

set_option maxRecDepth 100000 in
theorem calls_deceiving : (match Codec.encode (.list []) (after deceiving) with
    | .ok args vm => decide (Escapes (invoke "fail" args 0 vm))
    | .error .. => false) = true := by decide +kernel

/-- An error that deceives is no failure of the call, but comes out as an error of the language. -/
theorem invoke_deceived : ∃ args vm v vm', Codec.encode (.list []) (after deceiving) = .ok args vm ∧
    Raises "fail" args 0 vm v vm' ∧ Escapes (invoke "fail" args 0 vm) := by
  have facts := calls_deceiving
  split at facts
  next args vm entered =>
    have escapes := of_decide_eq_true facts
    obtain ⟨v, vm', raises, _⟩ := escapes_invoke.mp escapes
    exact ⟨args, vm, v, vm', entered, raises, escapes⟩
  next => cases facts

end Vm

end LuaCapsule
