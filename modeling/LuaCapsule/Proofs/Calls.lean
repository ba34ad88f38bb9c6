import LuaCapsule.Proofs.Containment
import LuaCapsule.Proofs.Isolation

/-! What a computation calls. The name of a function and its parameters are looked for in the body
of the request, then in the request, then in the public part of the context. The function gets one
value for each argument, nil for null wherever that stands, and the first of its results is the
result of the computation. -/

namespace LuaCapsule

open Lua

/-! ### Paths -/

namespace Path

/-- A value at the end of a path. Mappings are entered, nothing else is, and never by the private
key. -/
inductive Present : List String → Datum → Datum → Prop
  | here {d : Datum} : Present [] d d
  | inside {s : String} {rest : List String} {es : List (Datum × Datum)} {d v : Datum} (shared : s ≠ "priv")
    (entry : Datum.lookup (.text s) es = some d) (found : Present rest d v) : Present (s :: rest) (.mapping es) v

theorem follow_eq_some {segments : List String} {d v : Datum} : follow segments d = some v ↔ Present segments d v := by
  constructor
  · intro found
    induction segments generalizing d with
    | nil =>
      cases found
      exact .here
    | cons s rest ih =>
      cases d with
      | mapping es =>
        rw [follow] at found
        split at found
        next => cases found
        next other =>
          obtain ⟨inner, entry, found⟩ := Option.bind_eq_some_iff.mp found
          exact .inside (fun same => other (beq_iff_eq.mpr same.symm)) entry (ih found)
      | _ => cases found
  · intro present
    induction present with
    | here => rfl
    | @inside s _ _ _ _ shared entry _ ih =>
      have other : ¬Private.key.sameKey (.text s) = true := fun same => shared (beq_iff_eq.mp same).symm
      rw [follow, if_neg other, entry, Option.bind_some, ih]

/-- What stands at the first of some places where anything does. -/
inductive First : List (List String × Datum) → Option Datum → Prop
  | nowhere : First [] none
  | found {segments : List String} {container v : Datum} {places : List (List String × Datum)}
    (here : Present segments container v) : First ((segments, container) :: places) (some v)
  | later {segments : List String} {container : Datum} {places : List (List String × Datum)} {r : Option Datum}
    (absent : ∀ v, ¬Present segments container v) (others : First places r) : First ((segments, container) :: places) r

theorem first_iff {places : List (List String × Datum)} {r : Option Datum} :
    First places r ↔ places.findSome? (fun p => follow p.1 p.2) = r := by
  constructor
  · intro first
    induction first with
    | nowhere => rfl
    | found here => rw [List.findSome?_cons, follow_eq_some.mpr here]
    | later absent _ ih =>
      rw [List.findSome?_cons, Option.eq_none_iff_forall_ne_some.mpr fun v here => absent v (follow_eq_some.mp here)]
      exact ih
  · rintro rfl
    induction places with
    | nil => exact .nowhere
    | cons p places ih =>
      obtain ⟨segments, container⟩ := p
      rw [List.findSome?_cons]
      cases here : follow segments container with
      | some v => exact .found (follow_eq_some.mp here)
      | none => exact .later (fun v present => by cases here.symm.trans (follow_eq_some.mpr present)) ih

end Path

/-! ### Requests -/

namespace Request

open Path

variable {key request params : Datum} {es : List (Datum × Datum)} {function field : String} {args : List Datum}

/-- Where a field is looked for: in the body of a request, in the request, and in the public part of
a context. -/
def places (field : String) (es : List (Datum × Datum)) (request : Datum) : List (List String × Datum) :=
  [(["body", field], request), ([field], request), ([field], .mapping (Datum.erase Private.key es))]

theorem find?_eq (whole : parts (· == '/') field = [field]) (inner : parts (· == '/') ("body/" ++ field) = ["body", field]) :
    find? field (.mapping es) request = .ok ((places field es request).findSome? fun p => follow p.1 p.2) := by
  change Path.first? [(request, .text ("body/" ++ field)), (request, .text field),
    (.mapping (Datum.erase Private.key es), .text field)] = _
  simp only [first?_text, whole, inner, places, List.findSome?_cons, List.findSome?_nil]
  cases follow ["body", field] request with
  | some v => rfl
  | none =>
    cases follow [field] request with
    | some v => rfl
    | none => cases follow [field] (.mapping (Datum.erase Private.key es)) <;> rfl

/-- The arguments that a request and a context have for a function: the items of the parameters if
these are a list or a tuple, the parameters themselves if they are anything else, and, without
parameters, the public part of the context, the request and an empty mapping. -/
inductive Arguments (es : List (Datum × Datum)) (request : Datum) : List Datum → Prop
  | list {items : List Datum} (given : First (places "parameters" es request) (some (.list items))) :
    Arguments es request items
  | tuple {items : List Datum} (given : First (places "parameters" es request) (some (.tuple items))) :
    Arguments es request items
  | single {d : Datum} (given : First (places "parameters" es request) (some d))
    (other : ∀ items, d ≠ .list items ∧ d ≠ .tuple items) : Arguments es request [d]
  | absent (none : First (places "parameters" es request) none) :
    Arguments es request [.mapping (Datum.erase Private.key es), request, .mapping []]

/-- The function and the arguments that are asked for: the text of what is found, or of the key. -/
structure Asks (key : Datum) (es : List (Datum × Datum)) (request : Datum) (function : String) (args : List Datum) : Prop where
  function : ∃ name, First (places "function" es request) name ∧ function = (name.getD key).display
  arguments : Arguments es request args

theorem find?_function (es : List (Datum × Datum)) (request : Datum) :
    find? "function" (.mapping es) request = .ok ((places "function" es request).findSome? fun p => follow p.1 p.2) :=
  find?_eq (by decide) (by decide)

theorem find?_parameters (es : List (Datum × Datum)) (request : Datum) :
    find? "parameters" (.mapping es) request = .ok ((places "parameters" es request).findSome? fun p => follow p.1 p.2) :=
  find?_eq (by decide) (by decide)

/-- Parameters stand for the arguments that are asked for. -/
theorem arguments_iff {found : Option Datum} (first : First (places "parameters" es request) found) :
    Arguments es request args ↔
      arguments (found.getD (.list [.mapping (Datum.erase Private.key es), request, .mapping []])) = args := by
  have only {found' : Option Datum} (first' : First (places "parameters" es request) found') : found' = found :=
    (first_iff.mp first').symm.trans (first_iff.mp first)
  constructor
  · intro asked
    cases asked with
    | list given =>
      obtain rfl := only given
      rfl
    | tuple given =>
      obtain rfl := only given
      rfl
    | @single d given other =>
      obtain rfl := only given
      cases d with
      | list items => exact absurd rfl (other items).1
      | tuple items => exact absurd rfl (other items).2
      | _ => rfl
    | absent none =>
      obtain rfl := only none
      rfl
  · rintro rfl
    cases found with
    | none => exact .absent first
    | some d =>
      cases d with
      | list items => exact .list first
      | tuple items => exact .tuple first
      | _ => exact .single first fun items => ⟨fun same => (by cases same), fun same => (by cases same)⟩

/-- A request on a context always asks for a function and arguments, and for no others. -/
theorem asks_iff : Asks key es request function args ↔ functionName key (.mapping es) request = .ok function ∧
    ∃ params, parameters (.mapping es) request = .ok params ∧ arguments params = args := by
  have named : functionName key (.mapping es) request = (find? "function" (.mapping es) request).map fun d => (d.getD key).display := by
    rw [functionName]
    cases find? "function" (.mapping es) request <;> rfl
  have given : parameters (.mapping es) request = (find? "parameters" (.mapping es) request).map
      (·.getD (.list [.mapping (Datum.erase Private.key es), request, .mapping []])) := rfl
  rw [named, given, find?_function, find?_parameters]
  constructor
  · rintro ⟨⟨name, first, rfl⟩, asked⟩
    rw [first_iff.mp first]
    exact ⟨rfl, _, rfl, (arguments_iff (first_iff.mpr rfl)).mp asked⟩
  · rintro ⟨is, params, ⟨⟩, is'⟩
    exact ⟨⟨_, first_iff.mpr rfl, (Except.ok.inj is).symm⟩, (arguments_iff (first_iff.mpr rfl)).mpr is'⟩

theorem exists_asks (key : Datum) (es : List (Datum × Datum)) (request : Datum) :
    ∃ function args, Asks key es request function args := by
  obtain ⟨function, named⟩ := exists_functionName key es request
  obtain ⟨params, given, _⟩ := exists_parameters es request
  exact ⟨function, arguments params, asks_iff.mpr ⟨named, params, given, rfl⟩⟩

end Request

/-! ### Interpreters -/

namespace Vm

open Codec

variable {vm vm' : Vm} {st : State} {handler : Option Value} {vs : List Value} {first : Nat} {ds : List Datum}

/-- An interpreter before it runs. -/
def idle (vm : Vm) : State := { heap := vm.heap, cap := vm.cap }

/-- A protected call of a global function with some arguments. What stands under the name is begun with
just these, and its results come back behind a mark: see `callGlobal_of_function` and `deliver_waiting`. -/
def calledWith (function : String) (vs : List Value) : VmM (Except Failure (List Value)) := run do
  let handler ← traceHandler
  Machine.asHost handler do
    Machine.pushFrame (.host 126)
    callGlobal (Bytes.ofString function) vs

/-- Values that some data became on their way to a function: one for each, and nil for null. -/
structure Received (h : Heap) (first : Nat) (ds : List Datum) (vs : List Value) : Prop where
  count : vs.length = ds.length
  each : ∀ (i : Nat) (d : Datum), ds[i]? = some d → ∃ v, vs[i]? = some v ∧ Encoded h first d v
  null : ∀ i : Nat, ds[i]? = some .null → vs[i]? = some .nil

theorem received_of_encodedAll {h : Heap} (encoded : EncodedAll h first ds vs) : Received h first ds vs := by
  have each : ∀ (i : Nat) (d : Datum), ds[i]? = some d → ∃ v, vs[i]? = some v ∧ Encoded h first d v := by
    induction ds generalizing vs with
    | nil => exact fun i d here => by cases here
    | cons d ds ih =>
      obtain ⟨v, rest, rfl, one, others⟩ := encoded
      intro i
      cases i with
      | zero =>
        rintro _ ⟨⟩
        exact ⟨v, rfl, one⟩
      | succ i => exact ih others i
  refine ⟨encoded.length_eq, each, fun i here => ?_⟩
  obtain ⟨v, there, nil⟩ := each i .null here
  cases nil
  exact there

/-! #### The function that is called -/

/-- What waits while a global function runs: the protected call, and for a function of the library the
line of the call. -/
def waiting (f : Value) (below : List Frame) : List Frame :=
  if let .ref (.closure _) := f then .protected' (some (.native .reporter)) :: below
  else .host 122 :: .protected' (some (.native .reporter)) :: below

theorem callGlobal_eq (name : Bytes) (vs : List Value) (st : State) : callGlobal name vs st = (do
      let f ← match st.heap.index (.table Fixed.globals) (.str name) with
        | .value v => pure v
        | .call f args => pure ((← Machine.callFunction none f args).headD .nil)
        | .fault c => raiseHere (c.message st.heap (.named "upvalue" (Bytes.ofString "G")) .unknown)
      let (f, args) ← Machine.callee (some calledOrigin) 100 f vs
      if let .ref (.closure _) := f then
        modify fun st => { st with frames := st.frames.tail }
        Machine.begin' Machine.callFunction (some calledOrigin) true true f args
      else Machine.begin' Machine.callFunction (some calledOrigin) false true f args : M Machine.Progress)
    { st with frames := .host 122 :: .protected' (some (.native .reporter)) :: st.frames } := rfl

/-- The function that stands under a name is begun with the arguments of the call. -/
theorem callGlobal_of_function {f : Value} {name : Bytes} (found : st.heap.index (.table Fixed.globals) (.str name) = .value f)
    (function : Heap.isFunction f = true) : ∃ isTail, callGlobal name vs st =
      Machine.begin' Machine.callFunction (some calledOrigin) isTail true f vs { st with frames := waiting f st.frames } := by
  have itself (st : State) : Machine.callee (some calledOrigin) 100 f vs st = .ok (f, vs) st := by
    rw [Machine.callee, if_pos function]
    rfl
  rw [callGlobal_eq, found]
  change ∃ isTail, EStateM.bind (Machine.callee (some calledOrigin) 100 f vs) _ _ = _
  rw [EStateM.bind, itself]
  cases f with
  | ref r =>
    cases r with
    | closure id => exact ⟨true, rfl⟩
    | _ => exact ⟨false, rfl⟩
  | _ => exact ⟨false, rfl⟩

/-- The results of the function go to the protected call, which puts a mark before them. -/
theorem deliver_waiting (f : Value) (rs : List Value) (below : List Frame) :
    Machine.deliver rs (waiting f below) = Machine.deliver (.bool true :: rs) below := by
  unfold waiting
  split <;> rfl

/-! #### The way of the arguments -/

theorem checkNesting_eq (n : Nat) (st : State) :
    Machine.checkNesting n st = .ok ⟨⟩ st ∨ ∃ f, Machine.checkNesting n st = .error f st := by
  obtain ⟨f, raised⟩ := raiseText_eq (α := PUnit) "C stack overflow" st
  unfold Machine.checkNesting
  by_cases most : (n == Machine.maxNesting) = true
  · rw [if_pos most]
    exact .inr ⟨f, by change EStateM.bind _ _ st = _; rw [EStateM.bind, raised]⟩
  · rw [if_neg most]
    by_cases more : n ≥ Machine.maxHandling
    · rw [if_pos more]
      exact .inr ⟨_, rfl⟩
    · rw [if_neg more]
      exact .inl rfl

/-- What the host does in a call depends on the objects that there are, and on nothing else that runs. -/
theorem asHost_congr {act act' : M Machine.Progress} (same : ∀ st', st'.heap = st.heap → act st' = act' st') :
    Machine.asHost handler act st = Machine.asHost handler act' st := by
  let waits : State := { st with frames := .hostCall handler :: st.frames }
  let guarded (act : M Machine.Progress) : M Machine.Progress := do
    Machine.checkNesting (Machine.nesting (← get).frames)
    modify fun st => { st with latest := none }
    act
  have once : guarded act waits = guarded act' waits := by
    change EStateM.bind (Machine.checkNesting (Machine.nesting waits.frames)) _ waits =
      EStateM.bind (Machine.checkNesting (Machine.nesting waits.frames)) _ waits
    unfold EStateM.bind
    obtain fine | ⟨f, overflows⟩ := checkNesting_eq (Machine.nesting waits.frames) waits
    · rw [fine]
      exact same { waits with latest := none } rfl
    · rw [overflows]
  have tried : Machine.attempt Machine.callFunction waits.frames.length (guarded act) waits =
      Machine.attempt Machine.callFunction waits.frames.length (guarded act') waits := by
    unfold Machine.attempt
    change EStateM.tryCatch _ _ waits = EStateM.tryCatch _ _ waits
    unfold EStateM.tryCatch
    rw [once]
  have ran : Machine.runAbove Machine.callFunction (.hostCall handler) act st =
      Machine.runAbove Machine.callFunction (.hostCall handler) act' st := by
    change EStateM.bind (Machine.attempt Machine.callFunction waits.frames.length (guarded act)) _ waits =
      EStateM.bind (Machine.attempt Machine.callFunction waits.frames.length (guarded act')) _ waits
    unfold EStateM.bind
    rw [tried]
  change EStateM.tryCatch _ _ st = EStateM.tryCatch _ _ st
  unfold EStateM.tryCatch
  rw [ran]

theorem run_congr {α : Type} {act act' : M α} (same : act vm.idle = act' vm.idle) : run act vm = run act' vm := by
  unfold run
  rw [show act { heap := vm.heap, cap := vm.cap } = act' { heap := vm.heap, cap := vm.cap } from same]

/-- A call with the first items of a list of arguments is a call with those arguments, however many of
them are null. -/
theorem called_eq {table : Value} (function : String) (searched : traceHandler vm.idle = .ok handler st)
    (plain : st.heap.PlainLists) (entered : Encoded st.heap first (.list ds) table) (few : (ds.length : Int) ≤ Tables.maxResults) :
    ∃ vs, Received st.heap first ds vs ∧ called function table ds.length vm = calledWith function vs vm := by
  obtain ⟨t, vs, rfl, each, stands⟩ := entered
  refine ⟨vs, received_of_encodedAll (each.below (Nat.le_succ_of_le stands.first)), ?_⟩
  rw [← each.length_eq] at few ⊢
  have fits : isInt64 vs.length = true := Binary64.isInt64_iff.mpr (by unfold Tables.maxResults at few; omega)
  have same (st' : State) (is : st'.heap = st.heap) : beginGlobal (Bytes.ofString function) (.table t) vs.length st' =
      (do Machine.pushFrame (.host 126); callGlobal (Bytes.ofString function) vs : M Machine.Progress) st' := by
    rw [← is] at plain stands
    have begun := beginGlobal_eq plain stands fits (Bytes.ofString function)
    rw [if_pos few] at begun
    exact begun
  refine run_congr ?_
  change EStateM.bind traceHandler _ vm.idle = EStateM.bind traceHandler _ vm.idle
  rw [EStateM.bind, EStateM.bind, searched]
  exact asHost_congr same

/-- The trace function, or something in its place, is found without a call. -/
def IsQuiet (h : Heap) : Prop := ∃ library, h.index (.table Fixed.globals) (.text "debug") = .value library ∧
  ∀ t, library = .table t → ∃ f, h.index (.table t) (.text "traceback") = .value f

theorem traceHandler_of_isQuiet (quiet : IsQuiet st.heap) : ∃ handler, traceHandler st = .ok handler st := by
  obtain ⟨library, found, inside⟩ := quiet
  have value (v : Value) : resolve (.value v) st = .ok v st := rfl
  change ∃ handler, EStateM.bind (resolve (st.heap.index (.table Fixed.globals) (.text "debug"))) _ st = _
  rw [EStateM.bind, found, value]
  dsimp only
  split
  next t =>
    obtain ⟨f, traceback⟩ := inside t rfl
    change ∃ handler, EStateM.bind (resolve (st.heap.index (.table t) (.text "traceback"))) _ st = _
    rw [EStateM.bind, traceback, value]
    exact ⟨_, rfl⟩
  next => exact ⟨none, rfl⟩

/-- It is, as long as neither the global table nor the library has a metatable. -/
theorem isQuiet_of_bare {h : Heap} (globals : (h.table Fixed.globals).metatable = none)
    (library : ∀ t, (h.table Fixed.globals).get (.text "debug") = .table t → (h.table t).metatable = none) : IsQuiet h := by
  have raw {t : Nat} (bare : (h.table t).metatable = none) (k : Value) : h.index (.table t) k = .value (h.rawGet t k) :=
    Heap.index_eq_raw (Heap.metamethod_of_bare bare _) k
  exact ⟨_, raw globals _, fun t is => ⟨_, raw (library t is) _⟩⟩

/-- How the arguments of a call reach the function. -/
structure Passes (function : String) (args : List Datum) (table : Value) (first : Nat) (vm : Vm) : Prop where
  /-- They do, whatever is called to find the trace function, if they and the metatable of lists are as
  before after that. -/
  searched : ∀ handler st, traceHandler vm.idle = .ok handler st → st.heap.PlainLists →
    Encoded st.heap first (.list args) table →
      ∃ vs, Received st.heap first args vs ∧ called function table args.length vm = calledWith function vs vm
  /-- They do if nothing is called for that. -/
  quiet : IsQuiet vm.heap →
    ∃ vs, Received vm.heap first args vs ∧ called function table args.length vm = calledWith function vs vm

theorem passes_of_encoded {table : Value} (function : String) (plain : vm.heap.PlainLists)
    (entered : Encoded vm.heap first (.list ds) table) (few : (ds.length : Int) ≤ Tables.maxResults) :
    Passes function ds table first vm where
  searched := fun _ _ searched plain entered => called_eq function searched plain entered few
  quiet := by
    intro (quiet : IsQuiet vm.idle.heap)
    obtain ⟨handler, searched⟩ := traceHandler_of_isQuiet quiet
    exact called_eq function searched plain entered few

/-! #### The result -/

/-- The first of some results as a structured value, and null if there is none. -/
def answer (limit : Int) : List Value → VmM Datum
  | [] => return .null
  | v :: _ => decode limit v

theorem decode_nil (limit : Int) (vm : Vm) : decode limit .nil vm = .ok .null vm := by
  change decodeNested limit limit.toNat vm.heap .nil vm = _
  cases limit.toNat <;> rfl

theorem answer_eq (limit : Int) (rs : List Value) (vm : Vm) : answer limit rs vm = decode limit (rs.headD .nil) vm := by
  cases rs with
  | nil => exact (decode_nil limit vm).symm
  | cons => rfl

theorem ofError_ne_result {st st' : State} {e v : Value} : Outcome.ofError e st ≠ .ok (.result v) st' := by
  intro came
  unfold Outcome.ofError at came
  split at came
  next t =>
    change (if ((st.heap.table t).get Reporting.mark).truthy then _ else _ : M Outcome) st = _ at came
    split at came
    · obtain ⟨_, _, _, came⟩ := bind_eq_ok.mp came
      obtain ⟨_, _, _, came⟩ := bind_eq_ok.mp came
      cases came
    · cases came
  next => cases came

/-- What the function gave is the result of a call that went well, and nothing else is. -/
theorem ofResults_eq_result {st st' : State} {v : Value} :
    Outcome.ofResults vs st = .ok (.result v) st' ↔ (∃ rs, vs = .bool true :: rs ∧ rs.headD .nil = v) ∧ st' = st := by
  constructor
  · intro came
    unfold Outcome.ofResults at came
    split at came
    next rs =>
      cases came
      exact ⟨⟨rs, rfl, rfl⟩, rfl⟩
    next => exact absurd came ofError_ne_result
  · rintro ⟨⟨rs, rfl, rfl⟩, rfl⟩
    rfl

theorem outcomeOf_eq_result {r : Except Failure (List Value)} {v : Value} :
    outcomeOf r vm = .ok (.ok (.result v)) vm' ↔ (∃ rs, r = .ok (.bool true :: rs) ∧ rs.headD .nil = v) ∧ vm' = vm := by
  constructor
  · intro came
    cases r with
    | error f => cases came
    | ok vs =>
      replace came : run (Outcome.ofResults vs) vm = .ok (.ok (.result v)) vm' := came
      unfold run at came
      split at came
      next done =>
        cases came
        obtain ⟨⟨rs, rfl, is⟩, rfl⟩ := ofResults_eq_result.mp done
        exact ⟨⟨rs, rfl, is⟩, rfl⟩
      next => cases came
  · rintro ⟨⟨rs, rfl, rfl⟩, rfl⟩
    rfl

/-- A string that is no text is no result. -/
theorem isText_of_decode {limit : Int} {v : Value} {d : Datum} (done : decode limit v vm = .ok d vm') : isText v = true := by
  cases v with
  | str b =>
    have done : decodeNested limit limit.toNat vm.heap (.str b) vm = .ok d vm' := done
    cases text : b.toText? with
    | some s => rw [isText, text]; rfl
    | none =>
      have fault : leaf vm.heap (.str b) = .error textFault := by
        rw [leaf, scalar?, text]
        rfl
      have done : VmM.ofExcept (leaf vm.heap (.str b)) vm = .ok d vm' := by
        cases is : limit.toNat <;> rw [is] at done <;> exact done
      rw [fault] at done
      cases done
  | _ => rfl

/-- A call has a result exactly when the function came back, with its first result. -/
theorem invoke_eq_ok {function : String} {table v : Value} {n : Nat} : invoke function table n vm = .ok v vm' ↔
    ∃ rs, called function table n vm = .ok (.ok (.bool true :: rs)) vm' ∧ rs.headD .nil = v ∧ isText v = true := by
  rw [invoke_eq, bind_eq_ok]
  constructor
  · rintro ⟨r, vm₁, ran, later⟩
    obtain ⟨o, vm₂, came, done⟩ := bind_eq_ok.mp later
    rcases o with f | w | ⟨w, trace⟩
    · dsimp only at done
      cases text : failureText f <;> rw [text] at done <;> cases done
    · obtain ⟨⟨rs, rfl, rfl⟩, rfl⟩ := outcomeOf_eq_result.mp came
      dsimp only at done
      split at done
      next text =>
        cases done
        exact ⟨rs, ran, rfl, text⟩
      next => cases done
    · dsimp only at done
      split at done
      next =>
        obtain ⟨body, vm₃, _, thrown⟩ := bind_eq_ok.mp done
        cases thrown
      next => cases done
  · rintro ⟨rs, ran, rfl, text⟩
    refine ⟨_, _, ran, bind_eq_ok.mpr ⟨_, _, outcomeOf_eq_result.mpr ⟨⟨rs, rfl, rfl⟩, rfl⟩, ?_⟩⟩
    dsimp only
    rw [if_pos text]
    rfl

end Vm

/-! ### Devices -/

namespace Device

open Codec

variable {device : Device} {key request : Datum} {es : List (Datum × Datum)} {fleet fleet' : Fleet} {n : Nat} {vm vm' : Vm}
  {function : String} {args : List Datum} {r : Computed}

/-- A call has a result exactly when its arguments enter, the function comes back, and the first of its
results has a structured form. -/
theorem call_eq_ok {d : Datum} : device.call function args vm = .ok d vm' ↔
    ∃ table vm₁ rs vm₂, encode (.list args) vm = .ok table vm₁ ∧
      Vm.called function table args.length vm₁ = .ok (.ok (.bool true :: rs)) vm₂ ∧
      Vm.answer device.settings.maxDecodeDepth rs vm₂ = .ok d vm' := by
  rw [call, bind_eq_ok]
  constructor
  · rintro ⟨table, vm₁, entered, done⟩
    obtain ⟨v, vm₂, invoked, decoded⟩ := bind_eq_ok.mp done
    obtain ⟨rs, ran, rfl, _⟩ := Vm.invoke_eq_ok.mp invoked
    exact ⟨table, vm₁, rs, vm₂, entered, ran, (Vm.answer_eq _ rs vm₂).trans decoded⟩
  · rintro ⟨table, vm₁, rs, vm₂, entered, ran, answered⟩
    rw [Vm.answer_eq] at answered
    exact ⟨table, vm₁, entered, bind_eq_ok.mpr ⟨_, vm₂, Vm.invoke_eq_ok.mpr ⟨rs, ran, rfl, Vm.isText_of_decode answered⟩, answered⟩⟩

section Live

variable (known : device.state? (.mapping es) = .ok (some (.live n))) (asks : Request.Asks key es (Request.normalize request) function args)

include known asks

/-- A computation on a context that has an interpreter is the call that is asked for, in that
interpreter. -/
theorem compute_eq_within (fleet : Fleet) : device.compute key (.mapping es) request fleet =
    (DeviceM.within (.live n) (device.call function args) >>= fun value => do
      return ⟨value, ← DeviceM.ofExcept (successor value ⟨.mapping es, true⟩)⟩ : DeviceM Computed) fleet := by
  obtain ⟨named, params, given, rfl⟩ := Request.asks_iff.mp asks
  have stays {α β : Type} {e : Except Fault α} {a : α} {next : α → DeviceM β} (is : e = .ok a) :
      (DeviceM.ofExcept e >>= next) fleet = next a fleet := by
    rw [is]
    rfl
  rw [compute_eq, bind_of_ok (ensureLive_eq (isInitialized_eq known) fleet), serve, stays known, stays named, stays given]
  rfl

variable (here : fleet[n]? = some vm)

include here

theorem compute_eq_ok_iff : device.compute key (.mapping es) request fleet = .ok r fleet' ↔
    ∃ vm', device.call function args vm = .ok r.value vm' ∧ successor r.value ⟨.mapping es, true⟩ = .ok r.next ∧
      fleet' = fleet.setIfInBounds n vm' := by
  rw [compute_eq_within known asks, bind_eq_ok]
  constructor
  · rintro ⟨value, fleet₁, called, done⟩
    obtain ⟨next, is, done⟩ := DeviceM.ofExcept_bind_eq_ok.mp done
    cases done
    rw [DeviceM.within_live, here] at called
    dsimp only at called
    split at called
    next vm' came =>
      cases called
      exact ⟨vm', came, is, rfl⟩
    next => cases called
  · rintro ⟨vm', called, is, rfl⟩
    refine ⟨r.value, fleet.setIfInBounds n vm', ?_, DeviceM.ofExcept_bind_eq_ok.mpr ⟨r.next, is, rfl⟩⟩
    rw [DeviceM.within_live, here]
    dsimp only
    rw [called]

theorem compute_of_error {f : Fault} (failed : device.call function args vm = .error f vm') :
    device.compute key (.mapping es) request fleet = .error f (fleet.setIfInBounds n vm') := by
  have within : DeviceM.within (.live n) (device.call function args) fleet = .error f (fleet.setIfInBounds n vm') := by
    rw [DeviceM.within_live, here]
    dsimp only
    rw [failed]
  rw [compute_eq_within known asks]
  change EStateM.bind (DeviceM.within (.live n) (device.call function args)) _ fleet = _
  rw [EStateM.bind, within]

end Live

/-- How an interpreter serves a request: it is given the arguments, and the function is called with them. -/
structure Serves (device : Device) (key : Datum) (es : List (Datum × Datum)) (request : Datum) (fleet : Fleet) (n : Nat)
    (vm : Vm) (function : String) (args : List Datum) : Prop where
  /-- Arguments that have no form in the language are not passed, and nothing is called. -/
  refused : isEncodable (.list args) = false → ∃ f vm₁, encode (.list args) vm = .error f vm₁ ∧
    device.compute key (.mapping es) request fleet = .error f (fleet.setIfInBounds n vm₁)
  /-- All others are passed, and the result is that of the function. -/
  answered : isEncodable (.list args) = true → ∃ table vm₁, encode (.list args) vm = .ok table vm₁ ∧
    ((args.length : Int) ≤ Tables.maxResults → Vm.Passes function args table vm.heap.tables.size vm₁) ∧
    ∀ r fleet', device.compute key (.mapping es) request fleet = .ok r fleet' ↔
      ∃ rs vm₂ vm₃, Vm.called function table args.length vm₁ = .ok (.ok (.bool true :: rs)) vm₂ ∧
        Vm.answer device.settings.maxDecodeDepth rs vm₂ = .ok r.value vm₃ ∧
        successor r.value ⟨.mapping es, true⟩ = .ok r.next ∧ fleet' = fleet.setIfInBounds n vm₃

/-- A program with a function that says how many arguments it gets. -/
def tally : String := "function tally(...) return select('#', ...) end"

def tallyEntries : List (Datum × Datum) :=
  [(.text "script", .text tally), (Private.key, .mapping [(.text "state", .live 0)])]

def tallyRequest : Datum := .mapping [(.text "parameters", .list [.null, .int 1, .null])]

def tallyVm : Vm :=
  match tamperingDevice.start tally (.bool false) with
  | .ok vm => vm
  | .error _ => ⟨Lua.Fixed.heap, none⟩

/-- Do neither the global table nor its library for debugging have a metatable? -/
def isBare (h : Heap) : Bool :=
  decide ((h.table Fixed.globals).metatable = none) &&
    match (h.table Fixed.globals).get (.text "debug") with
    | .ref (.table t) => decide ((h.table t).metatable = none)
    | _ => true

theorem isQuiet_of_isBare {h : Heap} (bare : isBare h = true) : Vm.IsQuiet h := by
  obtain ⟨globals, library⟩ := Bool.and_eq_true_iff.mp bare
  refine Vm.isQuiet_of_bare (of_decide_eq_true globals) fun t is => ?_
  rw [is] at library
  exact of_decide_eq_true library

set_option maxRecDepth 100000 in
theorem bare_tally : (match Codec.encode (.list [.null, .int 1, .null]) tallyVm with
    | .ok _ vm₁ => isSilent tallyVm.heap && isBare vm₁.heap
    | .error _ _ => false) = true := by decide +kernel

/-- Is the result of a computation an integer? -/
def gives (i : Int) : EStateM.Result Fault Fleet Computed → Bool
  | .ok r _ => (match r.value with | .int j => i == j | _ => false)
  | .error _ _ => false

set_option maxRecDepth 100000 in
theorem gives_tally : gives 3 (tamperingDevice.compute (.text "tally") (.mapping tallyEntries) tallyRequest #[tallyVm]) = true := by
  decide +kernel

end Device

end LuaCapsule
