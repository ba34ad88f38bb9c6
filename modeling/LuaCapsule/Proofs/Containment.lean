import LuaCapsule.Proofs.Escapes
import LuaCapsule.Proofs.Noninterference

/-! What a device lets through. An operation on a context has a result or ends with a fault of the
device, unless one of a few things is in the way: a program that cannot be used or that ends with
bytes, a policy that gets stuck, a slot that holds no interpreter, or arguments that an interpreter
has no room for. -/

namespace LuaCapsule

open Lua

/-! ### Arguments -/

namespace Codec

mutual

/-- Is a value made of scalars, lists, tuples and mappings with texts as keys? -/
def IsPlain : Datum → Prop
  | .list ds => ArePlain ds
  | .tuple ds => ArePlain ds
  | .mapping es => ArePlainFields es
  | .host _ => False
  | .live _ => False
  | _ => True

def ArePlain : List Datum → Prop
  | [] => True
  | d :: ds => IsPlain d ∧ ArePlain ds

def ArePlainFields : List (Datum × Datum) → Prop
  | [] => True
  | (k, d) :: es => (∃ s, k = .text s) ∧ IsPlain d ∧ ArePlainFields es

end

mutual

/-- Nothing but the size of an integer is wrong with a plain value. -/
theorem faultsAre_of_isPlain : ∀ {d : Datum}, IsPlain d → FaultsAre (· = .overflow) d
  | .list _, plain => ⟨allFaultsAre_of_arePlain plain, .inr rfl⟩
  | .tuple _, plain => ⟨allFaultsAre_of_arePlain plain, .inr rfl⟩
  | .mapping _, plain => fieldFaultsAre_of_arePlainFields plain
  | .int i, _ => fun f refused => by
    cases inside : isInt64 i with
    | true => simp [scalar, inside] at refused
    | false =>
      rw [scalar, inside] at refused
      exact (Except.error.inj refused).symm
  | .bool _, _ => nofun
  | .float _, _ => nofun
  | .text _, _ => nofun
  | .bytes _, _ => nofun
  | .null, _ => nofun

theorem allFaultsAre_of_arePlain : ∀ {ds : List Datum}, ArePlain ds → AllFaultsAre (· = .overflow) ds
  | [], _ => trivial
  | _ :: _, ⟨plain, each⟩ => ⟨faultsAre_of_isPlain plain, allFaultsAre_of_arePlain each⟩

theorem fieldFaultsAre_of_arePlainFields : ∀ {es : List (Datum × Datum)}, ArePlainFields es →
    FieldFaultsAre (· = .overflow) es
  | [], _ => trivial
  | _ :: _, ⟨named, plain, each⟩ => ⟨.inl (exists_key?_of_text named), faultsAre_of_isPlain plain, fieldFaultsAre_of_arePlainFields each⟩

end

variable {vm : Vm} {d : Datum}

/-- Plain values enter an interpreter whose lists answer for themselves, unless an integer in them
is beyond 64 bits. -/
theorem escapes_encode (silent : vm.heap.PlainLists) (plain : IsPlain d) : Escapes (encode d vm) ↔ isEncodable d = false := by
  have leaves := encode_spec silent d
  have refused := encode_refuses silent (faultsAre_of_isPlain plain)
  cases done : encode d vm with
  | ok v vm' =>
    rw [done] at leaves
    exact iff_of_false escapes_ok (by simp [leaves.2.2.1])
  | error f vm' =>
    rw [done] at leaves refused
    obtain rfl : f = .overflow := refused
    exact iff_of_true (escapes_error.mpr rfl) leaves.2.2

/-- A plain value that fits becomes an item that has a value. -/
theorem exists_item (silent : vm.heap.PlainLists) (fits : isEncodable d = true) :
    ∃ it vm', item d vm = .ok it vm' ∧ vm.heap.Grows [] vm'.heap ∧ ∃ v, it.value = .ok v := by
  have leaves := item_spec d vm silent
  cases done : item d vm with
  | ok it vm' =>
    rw [done] at leaves
    obtain ⟨grows, _, is⟩ := leaves
    refine ⟨it, vm', rfl, grows, ?_⟩
    cases value : it.value with
    | ok v => exact ⟨v, rfl⟩
    | error f =>
      rw [Item.Is, value] at is
      cases fits.symm.trans is
  | error f vm' =>
    rw [done] at leaves
    cases fits.symm.trans leaves.2.2

/-! ### Results -/

/-- A value that has no structured form is a fault of the device. -/
theorem not_fails_decodeFrom {h : Heap} {limit : Int} {fuel : Nat} {v : Value} : ¬Fails (decodeFrom h limit fuel v) := by
  have leaf (v : Value) : ¬Fails (leaf h v) := by
    unfold Codec.leaf
    split
    · exact fails_ok
    · exact fun fails => by cases fails_error.mp fails
    · exact fun fails => by cases fails_error.mp fails
  induction fuel generalizing v with
  | zero =>
    unfold decodeFrom
    split
    · exact fun fails => by cases fails_error.mp fails
    · exact leaf v
  | succ fuel ih =>
    unfold decodeFrom
    split
    next id =>
      intro fails
      rcases fails_bind.mp fails with fails | ⟨_, _, fails⟩
      · rw [checkEntries] at fails
        split at fails
        · cases fails_error.mp fails
        · split at fails
          · cases fails_error.mp fails
          · exact fails_ok fails
      · split at fails
        · rcases fails_bind.mp fails with fails | ⟨_, _, fails⟩
          · obtain ⟨e, _, fails⟩ := Sandbox.fails_mapM fails
            exact ih fails
          · exact fails_ok fails
        · rcases fails_bind.mp fails with fails | ⟨_, _, fails⟩
          · obtain ⟨e, _, fails⟩ := Sandbox.fails_mapM fails
            rcases fails_bind.mp fails with fails | ⟨_, _, fails⟩
            · exact ih fails
            · exact fails_ok fails
          · exact fails_ok fails
    next => exact leaf v

/-- A value in which a disguised table is met, and from which some other fault comes when the table
is asked about. -/
def Deceives (limit : Int) (v : Value) (vm : Vm) : Prop :=
  ¬Candid vm.heap limit.toNat v ∧ Escapes (decode limit v vm)

/-- Only a value that deceives is not decoded and has no fault of the device either. -/
theorem escapes_decode {limit : Int} {v : Value} : Escapes (decode limit v vm) ↔ Deceives limit v vm := by
  refine ⟨fun escapes => ⟨fun candid => ?_, escapes⟩, And.right⟩
  have follows := decode_follows candid
  have fine : ¬Fails (decodeIn vm.heap limit v) := not_fails_decodeFrom
  cases done : decodeIn vm.heap limit v with
  | ok d =>
    rw [done] at follows
    rw [follows] at escapes
    exact escapes_ok escapes
  | error f =>
    rw [done] at follows fine
    obtain ⟨f', vm', is, same⟩ := follows
    rw [is] at escapes
    cases same with
    | same => exact fine (fails_error.mpr (escapes_error.mp escapes))
    | coroutine => cases escapes_error.mp escapes

end Codec

/-! ### Entries of a policy -/

namespace Sandbox

/-- An entry that no function of a program hears of, with a replacement that can enter. -/
structure Unheard (e : Entry) (vm : Vm) : Prop where
  silent : vm.heap.PlainLists
  fits : Codec.isEncodable e.replacement = true
  named : e.path ≠ []
  index : "__index" ∉ e.path
  newItem : "__newindex" ∉ e.path
  direct : ∀ it vm', Codec.item e.replacement vm = .ok it vm' → vm'.heap.DirectAlong Fixed.globals e.path.dropLast

/-- Such an entry gets stuck at bytes on its path only. -/
theorem escapes_overwrite {e : Entry} {vm : Vm} (unheard : Unheard e vm) : Escapes (overwrite e vm) ↔
    ∃ it vm', Codec.item e.replacement vm = .ok it vm' ∧ Vm.Meets vm'.heap Fixed.globals e.path.dropLast := by
  obtain ⟨it, vm', made, _, v, value⟩ := Codec.exists_item unheard.silent unheard.fits
  have entered : ¬Fails it.value := by
    rw [value]
    exact fails_ok
  unfold overwrite
  rw [escapes_bind_of_ok made, Vm.escapes_setPath unheard.named unheard.index unheard.newItem (unheard.direct it vm' made)]
  constructor
  · rintro (meets | ⟨_, fails⟩)
    · exact ⟨it, vm', made, meets⟩
    · exact absurd fails entered
  · rintro ⟨_, _, made', meets⟩
    cases made.symm.trans made'
    exact .inl meets

end Sandbox

/-! ### Calls -/

namespace Vm

variable {vm : Vm}

/-- The text that a value has without a function that gives it one. -/
def plainText : Value → String
  | .ref r => s!"<Lua {(Value.ref r).typeName} at {r.address}>"
  | v => s!"<Lua {v.typeName}>"

theorem describe_eq (v : Value) (vm : Vm) : describe v vm =
    match vm.heap.metamethod v "__tostring" with
    | .nil => .ok (plainText v) vm
    | f => (run (Machine.asHost none (Machine.begin' Machine.callFunction none false true f [v])) >>= fun r =>
      match r with
      | .ok vs =>
        match stringOf? (vs.headD .nil) with
        | some b => return (b.toText?).getD b.latin1
        | none => return plainText v
      | .error _ => return plainText v : VmM String) vm := by
  cases v <;> cases is : vm.heap.metamethod _ "__tostring" <;> simp only [describe, getHeap_bind, is, plainText] <;> rfl

/-- The text of a value is always found. -/
theorem exists_describe (v : Value) (vm : Vm) : ∃ s vm', describe v vm = .ok s vm' := by
  rw [describe_eq]
  split
  · exact ⟨_, _, rfl⟩
  · obtain ⟨r, vm₁, ran⟩ := run_eq_ok (Machine.asHost none (Machine.begin' Machine.callFunction none false true
      (vm.heap.metamethod v "__tostring") [v])) vm
    rw [bind_of_ok ran]
    cases r with
    | error f => exact ⟨_, _, rfl⟩
    | ok vs =>
      dsimp only
      cases stringOf? (vs.headD .nil) <;> exact ⟨_, _, rfl⟩

/-- The error of a call has a structured form or a text, unless it deceives. -/
theorem escapes_errorBody {v : Value} : Escapes (errorBody v vm) ↔ Codec.Deceives Codec.maxDepth v vm := by
  rw [← Codec.escapes_decode]
  change Escapes (EStateM.tryCatch (Codec.decode Codec.maxDepth v) _ vm) ↔ _
  unfold EStateM.tryCatch
  cases Codec.decode Codec.maxDepth v vm with
  | ok d vm₁ => exact Iff.rfl
  | error f vm₁ =>
    dsimp only
    cases own : f.isDecode with
    | false => exact Iff.rfl
    | true =>
      obtain ⟨s, vm₂, described⟩ := exists_describe (held vm.heap v) vm₁
      change Escapes ((describe (held vm.heap v) >>= fun s => pure (Datum.text s)) vm₁) ↔ _
      rw [escapes_bind_of_ok described]
      refine iff_of_false escapes_ok fun escapes => ?_
      rw [escapes_error, isDevice_of_isDecode own] at escapes
      cases escapes

theorem invoke_eq (function : String) (args : Value) (n : Nat) : invoke function args n =
    (called function args n >>= fun r => outcomeOf r >>= fun o =>
      match o with
      | .ok (.result v) => if Codec.isText v then return v else throw Codec.textFault
      | .ok (.error v trace) =>
        if Codec.isText v && Codec.isText trace then
          errorBody v >>= fun body => throw (.compute function body ((Codec.scalar? trace).getD .null))
        else throw Codec.textFault
      | .error f =>
        match failureText f with
        | .ok s => throw (.compute function (.text (reverseTrace s)) .null)
        | .error _ => throw Codec.textFault) := rfl

/-- A protected call always has an outcome. -/
theorem exists_outcome (r : Except Failure (List Value)) (vm : Vm) : ∃ o vm', outcomeOf r vm = .ok o vm' := by
  cases r with
  | error f => exact ⟨.error f, vm, rfl⟩
  | ok vs => exact run_eq_ok (Outcome.ofResults vs) vm

/-- The error of a function, which leaves it in an interpreter with a trace. Neither is a string that is no
text. -/
def Raises (function : String) (args : Value) (n : Nat) (vm : Vm) (v : Value) (vm' : Vm) : Prop :=
  ∃ r vm₁ trace, called function args n vm = .ok r vm₁ ∧ outcomeOf r vm₁ = .ok (.ok (.error v trace)) vm' ∧
    (Codec.isText v && Codec.isText trace) = true

/-- A call has a result or ends with a fault of the device, unless its error deceives. -/
theorem escapes_invoke {function : String} {args : Value} {n : Nat} : Escapes (invoke function args n vm) ↔
    ∃ v vm', Raises function args n vm v vm' ∧ Codec.Deceives Codec.maxDepth v vm' := by
  obtain ⟨r, vm₁, ran⟩ : ∃ r vm₁, called function args n vm = .ok r vm₁ := run_eq_ok _ vm
  obtain ⟨o, vm₂, came⟩ := exists_outcome r vm₁
  have own {f : Fault} (device : f.isDevice = true) : ¬Escapes ((throw f : VmM Value) vm₂) := fun escapes => by
    cases device.symm.trans (escapes_error.mp escapes)
  have only {v : Value} {vm' : Vm} (raised : Raises function args n vm v vm') :
      vm' = vm₂ ∧ ∃ trace, o = .ok (.error v trace) ∧ (Codec.isText v && Codec.isText trace) = true := by
    obtain ⟨r', vm₁', trace, ran', came', text⟩ := raised
    cases ran.symm.trans ran'
    cases came.symm.trans came'
    exact ⟨rfl, trace, rfl, text⟩
  rw [invoke_eq, escapes_bind_of_ok ran, escapes_bind_of_ok came]
  rcases o with f | v | ⟨v, trace⟩
  · refine iff_of_false ?_ ?_
    · dsimp only
      cases failureText f <;> exact own rfl
    · rintro ⟨v, vm', raised, _⟩
      cases (only raised).2.choose_spec.1
  · refine iff_of_false ?_ ?_
    · dsimp only
      split
      · exact escapes_ok
      · exact own rfl
    · rintro ⟨v', vm', raised, _⟩
      cases (only raised).2.choose_spec.1
  · dsimp only
    cases text : Codec.isText v && Codec.isText trace with
    | false =>
      refine iff_of_false (own rfl) ?_
      rintro ⟨v', vm', raised, _⟩
      obtain ⟨_, _, ⟨⟩, text'⟩ := only raised
      cases text.symm.trans text'
    | true =>
      refine Iff.trans (b := Codec.Deceives Codec.maxDepth v vm₂) ?_
        ⟨fun deceives => ⟨v, vm₂, ⟨r, vm₁, trace, ran, came, text⟩, deceives⟩, ?_⟩
      · rw [← escapes_errorBody, if_pos rfl, escapes_bind]
        refine or_iff_left ?_
        rintro ⟨body, vm₃, _, escapes⟩
        cases escapes_error.mp escapes
      · rintro ⟨v', vm', raised, deceives⟩
        obtain ⟨rfl, _, ⟨⟩, _⟩ := only raised
        exact deceives

end Vm

/-! ### Requests -/

namespace Codec

theorem isPlain_of_lookup {k v : Datum} {es : List (Datum × Datum)} (plain : ArePlainFields es)
    (found : Datum.lookup k es = some v) : IsPlain v := by
  induction es with
  | nil => cases found
  | cons e es ih =>
    obtain ⟨_, one, others⟩ := plain
    rw [Datum.lookup] at found
    split at found
    · exact Option.some.inj found ▸ one
    · exact ih others found

theorem isPlain_of_follow {segments : List String} {d v : Datum} (plain : IsPlain d)
    (found : Path.follow segments d = some v) : IsPlain v := by
  induction segments generalizing d with
  | nil => exact Option.some.inj found ▸ plain
  | cons segment rest ih =>
    cases d with
    | mapping es =>
      rw [Path.follow] at found
      split at found
      · cases found
      · obtain ⟨inner, here, found⟩ := Option.bind_eq_some_iff.mp found
        exact ih (isPlain_of_lookup plain here) found
    | _ => cases found

theorem isPlain_arguments {params : Datum} (plain : IsPlain params) : IsPlain (.list (Request.arguments params)) := by
  cases params with
  | list => exact plain
  | tuple => exact plain
  | _ => exact ⟨plain, trivial⟩

end Codec

namespace Request

open Codec

theorem first?_text (container : Datum) (s : String) (l : List (Datum × Datum)) :
    Path.first? ((container, .text s) :: l) =
      match Path.follow (Path.parts (· == '/') s) container with
      | some d => .ok (some d)
      | none => Path.first? l := rfl

/-- Values are always found by texts, or not; what is found is a part of one of the containers. -/
theorem exists_first? {l : List (Datum × Datum)} (texts : ∀ p ∈ l, ∃ s, p.2 = .text s) : ∃ r, Path.first? l = .ok r ∧
    ∀ v, r = some v → ∃ p ∈ l, ∃ segments, Path.follow segments p.1 = some v := by
  induction l with
  | nil => exact ⟨none, rfl, fun v is => by cases is⟩
  | cons p l ih =>
    obtain ⟨container, path⟩ := p
    obtain ⟨s, rfl⟩ : ∃ s, path = .text s := texts _ (List.mem_cons_self ..)
    obtain ⟨r, others, part⟩ := ih fun p mem => texts p (List.mem_cons_of_mem _ mem)
    rw [first?_text]
    cases found : Path.follow (Path.parts (· == '/') s) container with
    | some d =>
      refine ⟨some d, rfl, ?_⟩
      rintro _ ⟨⟩
      exact ⟨_, List.mem_cons_self .., _, found⟩
    | none =>
      refine ⟨r, others, fun v is => ?_⟩
      obtain ⟨p, mem, segments, follows⟩ := part v is
      exact ⟨p, List.mem_cons_of_mem _ mem, segments, follows⟩

variable {es : List (Datum × Datum)} {request : Datum}

theorem exists_find? (field : String) (es : List (Datum × Datum)) (request : Datum) :
    ∃ r, find? field (.mapping es) request = .ok r ∧ ∀ v, r = some v →
      ∃ d segments, (d = request ∨ d = .mapping (Datum.erase Private.key es)) ∧ Path.follow segments d = some v := by
  obtain ⟨r, found, part⟩ := exists_first? (l := [(request, .text ("body/" ++ field)), (request, .text field),
    (.mapping (Datum.erase Private.key es), .text field)]) (by simp)
  refine ⟨r, found, fun v is => ?_⟩
  obtain ⟨p, mem, segments, follows⟩ := part v is
  refine ⟨p.1, segments, ?_, follows⟩
  simp only [List.mem_cons, List.not_mem_nil, or_false] at mem
  rcases mem with rfl | rfl | rfl
  · exact .inl rfl
  · exact .inl rfl
  · exact .inr rfl

theorem exists_functionName (key : Datum) (es : List (Datum × Datum)) (request : Datum) :
    ∃ f, functionName key (.mapping es) request = .ok f := by
  obtain ⟨r, found, _⟩ := exists_find? "function" es request
  exact ⟨_, by rw [functionName, found]; rfl⟩

/-- The parameters of a plain request on a plain context are plain. -/
theorem exists_parameters (es : List (Datum × Datum)) (request : Datum) : ∃ params, parameters (.mapping es) request = .ok params ∧
    (IsPlain (.mapping (Datum.erase Private.key es)) → IsPlain request → IsPlain params) := by
  obtain ⟨r, found, part⟩ := exists_find? "parameters" es request
  refine ⟨r.getD (.list [.mapping (Datum.erase Private.key es), request, .mapping []]), ?_, fun context plain => ?_⟩
  · change (find? "parameters" (.mapping es) request).map
      (·.getD (.list [.mapping (Datum.erase Private.key es), request, .mapping []])) = _
    rw [found]
    rfl
  · cases r with
    | none => exact ⟨context, plain, trivial, trivial⟩
    | some v =>
      obtain ⟨d, segments, rfl | rfl, follows⟩ := part v rfl
      · exact isPlain_of_follow plain follows
      · exact isPlain_of_follow context follows

theorem isPlain_normalize (plain : IsPlain request) : IsPlain (normalize request) := by
  cases request with
  | null => trivial
  | text s => exact ⟨⟨_, rfl⟩, trivial, trivial⟩
  | _ => exact plain

end Request

/-! ### Devices -/

/-- The interpreter that a value names. -/
def Names (fleet : Fleet) (d : Datum) (vm : Vm) : Prop := ∃ n, d = .live n ∧ fleet[n]? = some vm

/-- What an operation did to an interpreter stays done. -/
theorem DeviceM.escapes_replace {α : Type} (d : Datum) (fleet : Fleet) (r : EStateM.Result Fault Vm α) :
    Escapes ((match r with
      | .ok a vm => do within.replace d vm; return a
      | .error f vm => do within.replace d vm; throw f : DeviceM α) fleet) ↔ Escapes r := by
  cases r with
  | ok a vm' => cases d <;> exact iff_of_false escapes_ok escapes_ok
  | error f vm' => cases d <;> exact escapes_error.trans escapes_error.symm

theorem DeviceM.escapes_within {α : Type} {fleet : Fleet} {d : Datum} {act : VmM α} : Escapes (within d act fleet) ↔
    (∀ vm, ¬Names fleet d vm) ∨ ∃ vm, Names fleet d vm ∧ Escapes (act vm) := by
  unfold within
  have missing (other : ∀ vm, ¬Names fleet d vm) : Escapes (vmOf d fleet) := by
    cases d with
    | live n =>
      rw [vmOf_live]
      cases here : fleet[n]? with
      | none => exact escapes_error.mpr rfl
      | some vm => exact absurd ⟨n, rfl, here⟩ (other vm)
    | _ => exact escapes_error.mpr rfl
  by_cases named : ∃ vm, Names fleet d vm
  · obtain ⟨vm, n, rfl, here⟩ := named
    have found : vmOf (.live n) fleet = .ok vm fleet := by rw [vmOf_live, here]
    have only {vm' : Vm} (named : Names fleet (.live n) vm') : vm' = vm := by
      obtain ⟨_, ⟨⟩, there⟩ := named
      exact Option.some.inj (there.symm.trans here)
    refine (escapes_bind_of_ok found).trans ((escapes_replace _ fleet _).trans ⟨?_, ?_⟩)
    · exact fun escapes => .inr ⟨vm, ⟨n, rfl, here⟩, escapes⟩
    · rintro (none | ⟨vm', named, escapes⟩)
      · exact absurd ⟨n, rfl, here⟩ (none vm)
      · exact only named ▸ escapes
  · rw [not_exists] at named
    exact iff_of_true (escapes_bind.mpr (.inl (missing named))) (.inl named)

namespace Device

variable {device : Device} {es : List (Datum × Datum)} {fleet : Fleet}

theorem fails_state {r : EStateM.Result Fault Vm Unit} : Fails (match r with
    | .ok _ vm => .ok vm
    | .error f _ => .error f : Except Fault Vm) ↔ Escapes r := by
  cases r with
  | ok a vm => exact iff_of_false fails_ok escapes_ok
  | error f vm => exact fails_error.trans escapes_error.symm

/-- A start without a limit of memory fails for the program or for the policy. -/
theorem fails_start {program : String} {policy : Datum} (noCap : device.settings.maxMemory = none) :
    Fails (device.start program policy) ↔ (∃ end', Vm.Ends program ⟨Fixed.heap, none⟩ end' ∧ Vm.Garbled end') ∨
      ∃ vm, Vm.load program ⟨Fixed.heap, none⟩ = .ok () vm ∧ Sandbox.Stuck device.defaults policy vm := by
  have fresh : Vm.fresh device.settings.maxMemory = .ok ⟨Fixed.heap, none⟩ := by
    rw [noCap]
    rfl
  rw [start_of_fresh fresh]
  refine fails_state.trans ?_
  rw [escapes_bind, Vm.escapes_load]
  refine or_congr_right ⟨?_, ?_⟩
  · rintro ⟨⟨⟩, vm, loaded, escapes⟩
    rcases escapes_bind.mp escapes with escapes | ⟨_, _, _, escapes⟩
    · exact ⟨vm, loaded, Sandbox.escapes_enforce.mp escapes⟩
    · exact absurd escapes escapes_ok
  · rintro ⟨vm, loaded, stuck⟩
    exact ⟨⟨⟩, vm, loaded, escapes_bind.mpr (.inl (Sandbox.escapes_enforce.mpr stuck))⟩

/-- The policy of a context. -/
def policy (es : List (Datum × Datum)) : Datum :=
  (Path.field? "sandbox" (.mapping (Datum.erase Private.key es))).getD (.bool false)

/-- What keeps an interpreter from being started for a context: its program cannot be used, or it ends
with bytes, or its policy gets stuck. -/
inductive Hindered (device : Device) (es : List (Datum × Datum)) : Prop
  | program (unusable : Script.Unusable (.mapping (Datum.erase Private.key es)) device.store)
  | bytes {program : String} {end' : Except Failure (List Value)} (found : Script.find (.mapping es) device.store = .ok program)
    (ends : Vm.Ends program ⟨Fixed.heap, none⟩ end') (garbled : Vm.Garbled end')
  | policy {program : String} {vm : Vm} (found : Script.find (.mapping es) device.store = .ok program)
    (loaded : Vm.load program ⟨Fixed.heap, none⟩ = .ok () vm) (stuck : Sandbox.Stuck device.defaults (policy es) vm)

/-- The interpreter that functions are called in: the one that a context has, or a new one. -/
inductive Runs (device : Device) (es : List (Datum × Datum)) (fleet : Fleet) : Vm → Prop
  | held {d : Datum} {vm : Vm} (found : device.state? (.mapping es) = .ok (some d)) (named : Names fleet d vm) :
    Runs device es fleet vm
  | started {program : String} {vm : Vm} (cold : device.state? (.mapping es) = .ok none)
    (found : Script.find (.mapping es) device.store = .ok program) (started : device.start program (policy es) = .ok vm) :
    Runs device es fleet vm

/-- What comes out of a call and deceives the device: a result, or an error. -/
inductive Deceived (device : Device) (function : String) (args : List Datum) (vm : Vm) : Prop
  | result {table v : Value} {vm₁ vm₂ : Vm} (entered : Codec.encode (.list args) vm = .ok table vm₁)
    (answered : Vm.invoke function table args.length vm₁ = .ok v vm₂)
    (deceives : Codec.Deceives device.settings.maxDecodeDepth v vm₂)
  | error {table v : Value} {vm₁ vm₂ : Vm} (entered : Codec.encode (.list args) vm = .ok table vm₁)
    (raised : Vm.Raises function table args.length vm₁ v vm₂) (deceives : Codec.Deceives Codec.maxDepth v vm₂)

/-- What keeps a function from being called once there is a program, or its answer from being read: the
slot holds no interpreter, an integer among the arguments is beyond 64 bits, the program hears of new
items of lists, or it answers with a table that deceives. -/
inductive Misled (device : Device) (key : Datum) (es : List (Datum × Datum)) (request : Datum) (fleet : Fleet) : Prop
  | foreign {d : Datum} (found : device.state? (.mapping es) = .ok (some d)) (none : ∀ vm, ¬Names fleet d vm)
  | arguments {vm : Vm} {params : Datum} (runs : Runs device es fleet vm)
    (given : Request.parameters (.mapping es) (Request.normalize request) = .ok params) (silent : vm.heap.PlainLists)
    (wide : Codec.isEncodable (.list (Request.arguments params)) = false)
  | heard {vm : Vm} {params : Datum} (runs : Runs device es fleet vm)
    (given : Request.parameters (.mapping es) (Request.normalize request) = .ok params) (heard : ¬vm.heap.PlainLists)
    (refused : Escapes (Codec.encode (.list (Request.arguments params)) vm))
  | deceived {vm : Vm} {params : Datum} {function : String} (runs : Runs device es fleet vm)
    (named : Request.functionName key (.mapping es) (Request.normalize request) = .ok function)
    (given : Request.parameters (.mapping es) (Request.normalize request) = .ok params)
    (deceived : device.Deceived function (Request.arguments params) vm)

theorem isInitialized_eq {state : Option Datum} {context : Datum} (known : device.state? context = .ok state) :
    device.isInitialized context = .ok state.isSome := by
  rw [isInitialized, known]
  rfl

theorem exists_state? (device : Device) (es : List (Datum × Datum)) : ∃ state, device.state? (.mapping es) = .ok state :=
  ⟨_, state?_of_slot rfl⟩

/-- The entries of a context that was given an interpreter. -/
def given (device : Device) (es : List (Datum × Datum)) (n : Nat) : List (Datum × Datum) :=
  Datum.insert Private.key (.mapping (Datum.insert (.text device.settings.stateKey) (.live n) (Private.slotOf es))) es

theorem state?_given (device : Device) (es : List (Datum × Datum)) (n : Nat) :
    device.state? (.mapping (device.given es n)) = .ok (some (.live n)) := by
  have known : Private.slot (.mapping (device.given es n)) =
      .ok (Datum.insert (.text device.settings.stateKey) (.live n) (Private.slotOf es)) :=
    congrArg Except.ok (Private.slotOf_insert _ es)
  rw [state?_of_slot known, Private.lookup_insert_text]
  rfl

/-- A context without an interpreter is given that of its program. -/
theorem ensureLive_cold_eq (cold : device.state? (.mapping es) = .ok none) : device.ensureLive (.mapping es) fleet =
    match Script.find (.mapping es) device.store >>= fun program => device.start program (policy es) with
    | .ok vm => .ok ⟨.mapping (device.given es fleet.size), false⟩ (fleet.push vm)
    | .error f => .error f fleet := by
  rw [ensureLive, isInitialized_eq cold]
  change (DeviceM.ofExcept (Script.find (.mapping es) device.store) >>= fun program =>
    DeviceM.ofExcept (device.start program (policy es)) >>= fun vm => DeviceM.add vm >>= fun handle =>
      DeviceM.ofExcept (device.withState (.mapping es) handle) >>= fun context =>
        (return ⟨context, false⟩ : DeviceM Successor)) fleet = _
  cases Script.find (.mapping es) device.store with
  | error f => rfl
  | ok program =>
    change (DeviceM.ofExcept (device.start program (policy es)) >>= fun vm => DeviceM.add vm >>= fun handle =>
      DeviceM.ofExcept (device.withState (.mapping es) handle) >>= fun context =>
        (return ⟨context, false⟩ : DeviceM Successor)) fleet =
      match device.start program (policy es) with
      | .ok vm => .ok ⟨.mapping (device.given es fleet.size), false⟩ (fleet.push vm)
      | .error f => .error f fleet
    cases device.start program (policy es) <;> rfl

/-- A start is hindered or it goes well, or it ends with a fault of the device. -/
theorem escapes_ensureLive (noCap : device.settings.maxMemory = none) : Escapes (device.ensureLive (.mapping es) fleet) ↔
    device.state? (.mapping es) = .ok none ∧ device.Hindered es := by
  obtain ⟨state, known⟩ := device.exists_state? es
  cases state with
  | some d =>
    rw [ensureLive_eq (isInitialized_eq known)]
    refine iff_of_false escapes_ok ?_
    rintro ⟨cold, _⟩
    cases known.symm.trans cold
  | none =>
    have same {r : Except Fault Vm} : Escapes (match r with
        | .ok vm => .ok ⟨.mapping (device.given es fleet.size), false⟩ (fleet.push vm)
        | .error f => .error f fleet : EStateM.Result Fault Fleet Successor) ↔ Fails r := by
      cases r with
      | ok vm => exact iff_of_false escapes_ok fails_ok
      | error f => exact escapes_error.trans fails_error.symm
    rw [ensureLive_cold_eq known, same, fails_bind, Script.fails_find]
    simp only [known, true_and]
    constructor
    · rintro (unusable | ⟨program, found, fails⟩)
      · exact .program unusable
      · rcases (fails_start noCap).mp fails with ⟨end', ends, garbled⟩ | ⟨vm, loaded, stuck⟩
        · exact .bytes found ends garbled
        · exact .policy found loaded stuck
    · intro hindered
      cases hindered with
      | program unusable => exact .inl unusable
      | bytes found ends garbled => exact .inr ⟨_, found, (fails_start noCap).mpr (.inl ⟨_, ends, garbled⟩)⟩
      | policy found loaded stuck => exact .inr ⟨_, found, (fails_start noCap).mpr (.inr ⟨_, loaded, stuck⟩)⟩

/-- Once its arguments have entered, a call has a result or ends with a fault of the device, unless its
answer deceives. -/
theorem escapes_call {function : String} {args : List Datum} {vm : Vm} : Escapes (device.call function args vm) ↔
    Escapes (Codec.encode (.list args) vm) ∨ device.Deceived function args vm := by
  unfold call
  rw [escapes_bind]
  refine or_congr_right ?_
  constructor
  · rintro ⟨table, vm₁, entered, escapes⟩
    rcases escapes_bind.mp escapes with escapes | ⟨result, vm₂, answered, escapes⟩
    · obtain ⟨v, vm₂, raised, deceives⟩ := Vm.escapes_invoke.mp escapes
      exact .error entered raised deceives
    · exact .result entered answered (Codec.escapes_decode.mp escapes)
  · intro deceived
    cases deceived with
    | result entered answered deceives =>
      exact ⟨_, _, entered, escapes_bind.mpr (.inr ⟨_, _, answered, Codec.escapes_decode.mpr deceives⟩)⟩
    | error entered raised deceives =>
      exact ⟨_, _, entered, escapes_bind.mpr (.inl (Vm.escapes_invoke.mpr ⟨_, _, raised, deceives⟩))⟩

/-- A context that has an interpreter, or something in its place, serves a request unless that is none,
the arguments cannot enter it, or the answer deceives. -/
theorem escapes_serve {key request d params : Datum} {function : String} {isSame : Bool}
    (known : device.state? (.mapping es) = .ok (some d))
    (named : Request.functionName key (.mapping es) (Request.normalize request) = .ok function)
    (given : Request.parameters (.mapping es) (Request.normalize request) = .ok params) :
    Escapes (device.serve key request ⟨.mapping es, isSame⟩ fleet) ↔ (∀ vm, ¬Names fleet d vm) ∨
      ∃ vm, Names fleet d vm ∧ Escapes (device.call function (Request.arguments params) vm) := by
  have passes {α β : Type} {e : Except Fault α} {a : α} {next : α → DeviceM β} (is : e = .ok a) :
      Escapes ((DeviceM.ofExcept e >>= next) fleet) ↔ Escapes (next a fleet) := by
    rw [DeviceM.escapes_ofExcept_bind, is]
    simp
  have next (value : Datum) : ∃ after, successor value ⟨.mapping es, isSame⟩ = .ok after := by
    cases value <;> exact ⟨_, rfl⟩
  unfold serve
  rw [passes known, passes named, passes given, escapes_bind, DeviceM.escapes_within]
  simp only [Option.getD_some]
  refine or_iff_left ?_
  rintro ⟨value, fleet', _, escapes⟩
  obtain ⟨after, is⟩ := next value
  rw [is] at escapes
  exact escapes_ok escapes

section Plain

variable {key request params : Datum} {function : String} (context : Codec.IsPlain (.mapping (Datum.erase Private.key es)))
  (plain : Codec.IsPlain request)

include context plain in
theorem misled_iff (named : Request.functionName key (.mapping es) (Request.normalize request) = .ok function)
    (given : Request.parameters (.mapping es) (Request.normalize request) = .ok params) :
    device.Misled key es request fleet ↔
      (∃ d, device.state? (.mapping es) = .ok (some d) ∧ ∀ vm, ¬Names fleet d vm) ∨
      ∃ vm, device.Runs es fleet vm ∧ Escapes (device.call function (Request.arguments params) vm) := by
  have args : Codec.IsPlain (.list (Request.arguments params)) := by
    obtain ⟨_, given', parts⟩ := Request.exists_parameters es (Request.normalize request)
    cases given.symm.trans given'
    exact Codec.isPlain_arguments (parts context (Request.isPlain_normalize plain))
  constructor
  · intro misled
    cases misled with
    | foreign found none => exact .inl ⟨_, found, none⟩
    | arguments runs given' silent wide =>
      cases given.symm.trans given'
      exact .inr ⟨_, runs, escapes_call.mpr (.inl ((Codec.escapes_encode silent args).mpr wide))⟩
    | heard runs given' heard refused =>
      cases given.symm.trans given'
      exact .inr ⟨_, runs, escapes_call.mpr (.inl refused)⟩
    | deceived runs named' given' deceived =>
      cases named.symm.trans named'
      cases given.symm.trans given'
      exact .inr ⟨_, runs, escapes_call.mpr (.inr deceived)⟩
  · rintro (⟨d, found, none⟩ | ⟨vm, runs, escapes⟩)
    · exact .foreign found none
    · rcases escapes_call.mp escapes with refused | deceived
      · by_cases silent : vm.heap.PlainLists
        · exact .arguments runs given silent ((Codec.escapes_encode silent args).mp refused)
        · exact .heard runs given silent refused
      · exact .deceived runs named given deceived

include context plain in
/-- A computation is hindered or misled, or it has a result, or it ends with a fault of the device. -/
theorem escapes_compute (noCap : device.settings.maxMemory = none) (key : Datum) :
    Escapes (device.compute key (.mapping es) request fleet) ↔
      device.state? (.mapping es) = .ok none ∧ device.Hindered es ∨ device.Misled key es request fleet := by
  obtain ⟨params, given, _⟩ := Request.exists_parameters es (Request.normalize request)
  obtain ⟨function, named⟩ := Request.exists_functionName key es (Request.normalize request)
  rw [compute_eq, escapes_bind, escapes_ensureLive noCap, misled_iff context plain named given]
  refine or_congr_right ?_
  obtain ⟨state, known⟩ := device.exists_state? es
  cases state with
  | some d =>
    rw [ensureLive_eq (isInitialized_eq known)]
    have runs {vm : Vm} : device.Runs es fleet vm ↔ Names fleet d vm := by
      refine ⟨fun runs => ?_, .held known⟩
      cases runs with
      | held known' named =>
        cases known.symm.trans known'
        exact named
      | started cold => cases known.symm.trans cold
    simp only [runs]
    constructor
    · rintro ⟨_, _, ⟨⟩, escapes⟩
      exact ((escapes_serve known named given).mp escapes).imp_left fun none => ⟨d, known, none⟩
    · rintro escapes
      refine ⟨_, _, rfl, (escapes_serve known named given).mpr (escapes.imp_left ?_)⟩
      rintro ⟨d', known', none⟩
      cases known.symm.trans known'
      exact none
  | none =>
    have runs {vm : Vm} : device.Runs es fleet vm ↔
        (Script.find (.mapping es) device.store >>= fun program => device.start program (policy es)) = .ok vm := by
      constructor
      · intro runs
        cases runs with
        | held known' => cases known.symm.trans known'
        | started _ found started => exact (congrArg (· >>= _) found).trans started
      · intro started
        cases found : Script.find (.mapping es) device.store with
        | error f =>
          rw [found] at started
          cases started
        | ok program =>
          rw [found] at started
          exact .started known found started
    have fresh {vm vm' : Vm} : Names (fleet.push vm) (.live fleet.size) vm' ↔ vm' = vm := by
      constructor
      · rintro ⟨_, ⟨⟩, there⟩
        exact Option.some.inj (there.symm.trans Array.getElem?_push_size)
      · rintro rfl
        exact ⟨_, rfl, Array.getElem?_push_size⟩
    have shared : Private.publicView (.mapping (device.given es fleet.size)) = Private.publicView (.mapping es) :=
      Private.publicView_insert _ es
    have named' := (Request.functionName_congr shared key (Request.normalize request)).trans named
    have given' := (Request.parameters_congr shared (Request.normalize request)).trans given
    rw [ensureLive_cold_eq known]
    simp only [runs, known]
    cases (Script.find (.mapping es) device.store >>= fun program => device.start program (policy es)) with
    | error f => simp
    | ok vm =>
      have served : Escapes (device.serve key request ⟨.mapping (device.given es fleet.size), false⟩ (fleet.push vm)) ↔ _ :=
        escapes_serve (device.state?_given es fleet.size) named' given'
      simp only [fresh] at served
      simp [served]

theorem resolve_mapping (key : String) : device.resolve (.text key) (.mapping es) request =
    match Datum.lookup (.text key) (Datum.erase Private.key es) with
    | some v => if isReserved (.text key) then device.compute (.text key) (.mapping es) request
      else return ⟨v, ⟨.mapping es, true⟩⟩
    | none => device.compute (.text key) (.mapping es) request := rfl

include context plain in
/-- What is there under a key that is not reserved is found without a computation. -/
theorem escapes_resolve (noCap : device.settings.maxMemory = none) (key : String) :
    Escapes (device.resolve (.text key) (.mapping es) request fleet) ↔
      (Datum.lookup (.text key) (Datum.erase Private.key es) = none ∨ isReserved (.text key) = true) ∧
      (device.state? (.mapping es) = .ok none ∧ device.Hindered es ∨ device.Misled (.text key) es request fleet) := by
  rw [resolve_mapping, ← escapes_compute context plain noCap (.text key)]
  cases Datum.lookup (.text key) (Datum.erase Private.key es) with
  | none => simp
  | some v =>
    cases isReserved (.text key) with
    | true => simp
    | false => exact iff_of_false escapes_ok (by simp)

end Plain

/-- A program with a function that gives back what it is given. -/
def echoing : String := "function echo(x) return x end"

def echoingEntries : List (Datum × Datum) := [(.text "script", .text echoing)]

/-- A program that is no text. -/
def garbledEntries : List (Datum × Datum) := [(.text "script", .bytes ⟨#[255]⟩)]

/-- A request with an integer beyond 64 bits. -/
def wideRequest : Datum := .mapping [(.text "parameters", .list [.int 9223372036854775808])]

/-- Does a heap answer for lists itself? -/
def isSilent (h : Heap) : Bool :=
  decide ((h.table Fixed.sequence).get (.text "__index") = .nil) &&
    decide ((h.table Fixed.sequence).get (.text "__newindex") = .nil) &&
    decide ((h.table Fixed.sequence).get (.text "__len") = .nil)

theorem plainLists_of_isSilent {h : Heap} (silent : isSilent h = true) : h.PlainLists := by
  simp only [isSilent, Bool.and_eq_true, decide_eq_true_eq] at silent
  exact ⟨silent.1.1, silent.1.2, silent.2⟩

set_option maxRecDepth 100000 in
theorem start_echoing : (match Script.find (.mapping echoingEntries) none with
    | .ok program => match grabbingDevice.start program (policy echoingEntries) with
      | .ok vm => isSilent vm.heap
      | .error _ => false
    | .error _ => false) = true := by decide +kernel

theorem parameters_wide : (match Request.parameters (.mapping echoingEntries) (Request.normalize wideRequest) with
    | .ok params => !Codec.isEncodable (.list (Request.arguments params))
    | .error _ => false) = true := by decide +kernel

/-- A device whose store has an artifact with a number as its data. -/
def numberDevice : Device :=
  ⟨.standard, some (.memory [(.text "one", .mapping [(.text "data", .int 1)])]), Sandbox.defaults⟩

end Device

end LuaCapsule
