import LuaCapsule.Device.Compute
import LuaCapsule.Proofs.Mappings

/-! What a computation makes of the private slot. The private entries of the context that was
called are kept, whatever a function returns. They are the only ones exactly when the result has
no private entry under a key of its own: a result that has one adds it to the slot. -/

namespace LuaCapsule

variable {α β : Type}

namespace DeviceM

variable {fleet fleet' : Fleet}

theorem ofExcept_eq_ok {e : Except Fault α} {a : α} : ofExcept e fleet = .ok a fleet' ↔ e = .ok a ∧ fleet' = fleet := by
  cases e with
  | ok b =>
    constructor
    · intro done
      cases done
      exact ⟨rfl, rfl⟩
    · rintro ⟨⟨⟩, rfl⟩
      rfl
  | error f =>
    constructor
    · exact nofun
    · rintro ⟨⟨⟩, _⟩

theorem ofExcept_bind_eq_ok {e : Except Fault α} {next : α → DeviceM β} {b : β} :
    (ofExcept e >>= next) fleet = .ok b fleet' ↔ ∃ a, e = .ok a ∧ next a fleet = .ok b fleet' := by
  rw [bind_eq_ok]
  constructor
  · rintro ⟨a, fleet₁, known, done⟩
    obtain ⟨is, rfl⟩ := ofExcept_eq_ok.mp known
    exact ⟨a, is, done⟩
  · rintro ⟨a, is, done⟩
    exact ⟨a, fleet, ofExcept_eq_ok.mpr ⟨is, rfl⟩, done⟩

end DeviceM

namespace Device

variable {device : Device} {context : Datum}

/-- A context that has an interpreter is left as it is. -/
theorem ensureLive_eq (live : device.isInitialized context = .ok true) (fleet : Fleet) :
    device.ensureLive context fleet = .ok ⟨context, true⟩ fleet := by
  rw [ensureLive, live]
  rfl

/-- The private entries that a result brings along. -/
def brought : Datum → List (Datum × Datum)
  | .mapping es => Private.slotOf es
  | _ => []

/-- The slot after a result: the private entries of the context before, and those that the result
brings under other keys. -/
theorem slot_successor {value : Datum} {slot : List (Datum × Datum)} {before after : Successor}
    (known : Private.slot before.context = .ok slot) (distinct : Datum.Distinct slot)
    (done : successor value before = .ok after) : ∃ slot', Private.slot after.context = .ok slot' ∧
      ∀ k, Datum.lookup k slot' = (Datum.lookup k slot).or (Datum.lookup k (brought value)) := by
  cases value with
  | mapping es =>
    rw [successor, known] at done
    cases done
    refine ⟨Datum.insertAll (Private.slotOf es) slot, ?_, fun k => Datum.lookup_insertAll distinct k _⟩
    exact congrArg Except.ok (Private.slotOf_insert _ es)
  | _ =>
    cases done
    exact ⟨slot, known, fun k => (Option.or_none ..).symm⟩

theorem successor_of_compute {key request : Datum} {r : Computed} {fleet fleet' : Fleet}
    (live : device.isInitialized context = .ok true) (done : device.compute key context request fleet = .ok r fleet') :
    successor r.value ⟨context, true⟩ = .ok r.next := by
  rw [compute] at done
  obtain ⟨before, _, ensured, done⟩ := bind_eq_ok.mp done
  rw [ensureLive_eq live] at ensured
  cases ensured
  obtain ⟨_, _, _, done⟩ := bind_eq_ok.mp done
  obtain ⟨_, _, _, done⟩ := bind_eq_ok.mp done
  obtain ⟨_, _, _, done⟩ := bind_eq_ok.mp done
  obtain ⟨value, _, _, done⟩ := bind_eq_ok.mp done
  obtain ⟨after, _, next, done⟩ := bind_eq_ok.mp done
  cases done
  exact (DeviceM.ofExcept_eq_ok.mp next).1

/-- A computation keeps every private entry of the context that was called. It adds none exactly
when the result brings none under a key that the slot did not have. -/
theorem slot_compute {key request : Datum} {slot : List (Datum × Datum)} {r : Computed} {fleet fleet' : Fleet}
    (live : device.isInitialized context = .ok true) (known : Private.slot context = .ok slot)
    (distinct : Datum.Distinct slot) (done : device.compute key context request fleet = .ok r fleet') :
    ∃ slot', Private.slot r.next.context = .ok slot' ∧
      (∀ k v, Datum.lookup k slot = some v → Datum.lookup k slot' = some v) ∧
      ((∀ k, Datum.lookup k slot' = Datum.lookup k slot) ↔
        ∀ k, Datum.lookup k slot = none → Datum.lookup k (brought r.value) = none) := by
  obtain ⟨slot', known', merged⟩ := slot_successor known distinct (successor_of_compute live done)
  refine ⟨slot', known', fun k v here => by rw [merged, here]; rfl, ?_⟩
  constructor
  · intro same k absent
    have here := same k
    rw [merged, absent] at here
    exact here
  · intro none k
    rw [merged]
    cases here : Datum.lookup k slot with
    | some v => rfl
    | none => exact none k here

/-! ### Results with private entries -/

/-- A program with two functions whose results have private entries: one under the key of the
interpreter, and one under another key. -/
def tampering : String :=
  "function override() return {priv = {state = 1}} end function forge() return {priv = {forged = 1}} end"

def tamperingDevice : Device := ⟨.standard, none, Sandbox.defaults⟩

def tamperingVm : Vm :=
  match tamperingDevice.start tampering (.bool false) with
  | .ok vm => vm
  | .error _ => ⟨Lua.Fixed.heap, none⟩

def tamperingSlot : List (Datum × Datum) := [(.text "state", .live 0)]

def tamperingContext : Datum :=
  .mapping [(.text "script", .text tampering), (Private.key, .mapping tamperingSlot)]

/-- A call of a function of the program. -/
def tamper (function : String) : EStateM.Result Fault Fleet Computed :=
  tamperingDevice.compute (.text function) tamperingContext .null #[tamperingVm]

/-- Does a call succeed with a result that brings private entries, all under one key? -/
def brings (key : String) : EStateM.Result Fault Fleet Computed → Bool
  | .ok r _ => !(brought r.value).isEmpty && (brought r.value).all fun e => e.1.sameKey (.text key)
  | .error _ _ => false

set_option maxRecDepth 100000 in
theorem brings_state : brings "state" (tamper "override") = true := by decide +kernel

set_option maxRecDepth 100000 in
theorem brings_forged : brings "forged" (tamper "forge") = true := by decide +kernel

theorem isInitialized_tampering : tamperingDevice.isInitialized tamperingContext = .ok true := rfl

theorem distinct_tampering : Datum.Distinct tamperingSlot := List.pairwise_singleton ..

theorem exists_of_brings {key : String} {result : EStateM.Result Fault Fleet Computed} (here : brings key result = true) :
    ∃ r fleet, result = .ok r fleet ∧ brought r.value ≠ [] ∧ ∀ e ∈ brought r.value, e.1 = .text key := by
  cases result with
  | error => cases here
  | ok r fleet =>
    obtain ⟨some, all⟩ := Bool.and_eq_true_iff.mp here
    refine ⟨r, fleet, rfl, by simpa using some, fun e mem => ?_⟩
    have same := List.all_eq_true.mp all e mem
    rw [Datum.sameKey_comm] at same
    exact Datum.eq_of_sameKey_text same

/-- A result that has something else under the key of the interpreter changes nothing. -/
theorem slot_override : ∃ slot' r fleet, tamperingDevice.isInitialized tamperingContext = .ok true ∧
    Private.slot tamperingContext = .ok tamperingSlot ∧ Datum.Distinct tamperingSlot ∧
    tamper "override" = .ok r fleet ∧ Private.slot r.next.context = .ok slot' ∧
    ∀ k, Datum.lookup k slot' = Datum.lookup k tamperingSlot := by
  obtain ⟨r, fleet, done, _, all⟩ := exists_of_brings brings_state
  obtain ⟨slot', known, _, same⟩ := slot_compute isInitialized_tampering rfl distinct_tampering done
  refine ⟨slot', r, fleet, isInitialized_tampering, rfl, distinct_tampering, done, known, same.mpr fun k absent => ?_⟩
  refine Datum.lookup_eq_none.mpr fun e mem => ?_
  rw [all e mem]
  by_contra found
  have present : Datum.lookup k tamperingSlot = some (.live 0) := if_pos (by simpa using found)
  cases absent.symm.trans present

/-- A result that has something under another key adds it to the slot. -/
theorem slot_forged : ∃ slot' r fleet, tamperingDevice.isInitialized tamperingContext = .ok true ∧
    Private.slot tamperingContext = .ok tamperingSlot ∧ tamper "forge" = .ok r fleet ∧
    Private.slot r.next.context = .ok slot' ∧
    Datum.lookup (.text "forged") tamperingSlot = none ∧ Datum.lookup (.text "forged") slot' ≠ none := by
  obtain ⟨r, fleet, done, some, all⟩ := exists_of_brings brings_forged
  obtain ⟨slot', known, merged⟩ :=
    slot_successor rfl distinct_tampering (successor_of_compute isInitialized_tampering done)
  refine ⟨slot', r, fleet, isInitialized_tampering, rfl, done, known, rfl, ?_⟩
  obtain ⟨⟨k, v⟩, rest, is⟩ := List.exists_cons_of_ne_nil some
  obtain rfl : k = .text "forged" := all _ (is ▸ List.mem_cons_self ..)
  rw [merged, is]
  exact nofun

end Device

end LuaCapsule
