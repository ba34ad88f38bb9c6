import LuaCapsule.Proofs.NestedEntries
import LuaCapsule.Proofs.Noninterference
import LuaCapsule.Proofs.RoundTrip

/-! Snapshots that are stored in their contexts. A context whose interpreter was listed, and is given
up then, gets the interpreter of the listing back from the place where it was stored, unless the
place is named like the private slot. Two devices find their own snapshots in one context, unless
one of them has the name under which a device without a name stores its own. -/

namespace LuaCapsule.Device

variable {device : Device} {es : List (Datum × Datum)} {context : Datum}

/-! ### Places -/

/-- The name that a context gives its device, if it gives one. -/
def deviceKey? (es : List (Datum × Datum)) : Option String :=
  ((Datum.lookup (.text "device-key") es).filter fun d => !d.isNull).map Datum.display

/-- Where a device stores snapshots that has a name or none. -/
def pathFor (device : Device) (name : Option String) : List String :=
  device.settings.snapshotKey :: (name.toList ++ ["body"])

theorem pathFor_ne_nil (device : Device) (name : Option String) : device.pathFor name ≠ [] := List.cons_ne_nil _ _

theorem snapshotPath_eq_match (device : Device) (es : List (Datum × Datum)) : device.snapshotPath (.mapping es) =
    .ok ((match Script.present? "device-key" (.mapping (Datum.erase Private.key es)) with
      | some key => [device.settings.snapshotKey, key.display]
      | none => [device.settings.snapshotKey]) ++ ["body"]) := rfl

theorem snapshotPath_mapping (device : Device) (es : List (Datum × Datum)) :
    device.snapshotPath (.mapping es) = .ok (device.pathFor (deviceKey? es)) := by
  have seen : Script.present? "device-key" (.mapping (Datum.erase Private.key es)) =
      (Datum.lookup (.text "device-key") es).filter fun d => !d.isNull := by
    rw [Script.present?, Path.field?, Path.follow_erase_key (List.cons_ne_nil _ _), Path.follow_mapping, if_neg (by decide)]
    cases Datum.lookup (.text "device-key") es <;> rfl
  rw [snapshotPath_eq_match, seen, pathFor, deviceKey?]
  cases (Datum.lookup (.text "device-key") es).filter fun d => !d.isNull <;> rfl

theorem attachSnapshot_mapping (device : Device) (es : List (Datum × Datum)) (blob : Datum) :
    device.attachSnapshot (.mapping es) blob = .ok ⟨.mapping (storeAt blob (device.pathFor (deviceKey? es)) es), false⟩ := by
  rw [attachSnapshot, snapshotPath_mapping]
  rfl

/-- Nothing that is stored changes the name of a device. -/
theorem deviceKey?_congr {es es' : List (Datum × Datum)}
    (same : Datum.lookup (.text "device-key") es = Datum.lookup (.text "device-key") es') : deviceKey? es = deviceKey? es' := by
  rw [deviceKey?, deviceKey?, same]

/-! ### Going cold and coming back -/

/-- What the public view of a context names no interpreter. -/
theorem carries_publicView {cold : Datum} (view : Private.publicView context = .ok cold) : device.Carries none cold := by
  cases context with
  | mapping es =>
    cases view
    have none : Private.slotOf (Datum.erase Private.key es) = [] := by
      rw [Private.slotOf, Private.lookup_erase_self]
    exact ⟨[], congrArg Except.ok none, .nil, rfl⟩
  | _ => cases view

/-- A public view has no private slot to lose. -/
theorem publicView_publicView {cold : Datum} (view : Private.publicView context = .ok cold) :
    Private.publicView cold = .ok cold := by
  cases context with
  | mapping es =>
    cases view
    show Except.ok (Datum.mapping (Datum.erase Private.key (Datum.erase Private.key es))) = _
    simp [Datum.erase, List.filter_filter]
  | _ => cases view

/-- How a context gets an interpreter that was read, or does not. -/
def Attaches (device : Device) (cold : Datum) (read : Except Fault Vm) (fleet : Fleet)
    (r : EStateM.Result Fault Fleet Successor) : Prop :=
  match read with
  | .ok vm => ∃ context, r = .ok ⟨context, false⟩ (fleet.push vm) ∧
      device.state? context = .ok (some (.live fleet.size)) ∧ Private.publicView context = .ok cold
  | .error f => r = .error f fleet

section Restore

variable {cold blob : Datum} {path : List String} (view : Private.publicView context = .ok cold)
  (place : device.snapshotPath cold = .ok path)
include view place

/-- A context without an interpreter gets the one that it has a snapshot of, if it has one. -/
theorem restore_cold_eq (fleet : Fleet) : device.restore cold fleet =
    (match (Path.follow path cold).filter fun d => !d.isNull with
    | none => throw (.snapshotNotFound path)
    | some blob => do
      let vm ← DeviceM.ofExcept (Snapshot.loads blob device.settings.maxMemory)
      return ⟨← DeviceM.ofExcept (device.withState cold (← DeviceM.add vm)), false⟩ : DeviceM Successor) fleet := by
  have carries : device.Carries none cold := carries_publicView view
  rw [restore, carries.isInitialized_eq, place, publicView_publicView view]
  rfl

theorem restore_stored (stored : Path.follow path cold = some blob) (real : blob.isNull = false) (fleet : Fleet) :
    Attaches device cold (Snapshot.loads blob device.settings.maxMemory) fleet (device.restore cold fleet) := by
  have carries : device.Carries none cold := carries_publicView view
  rw [restore_cold_eq view place, stored, show (some blob).filter (fun d => !d.isNull) = some blob by simp [real]]
  dsimp only
  cases Snapshot.loads blob device.settings.maxMemory with
  | error f => rfl
  | ok vm =>
    obtain ⟨context', attached⟩ := carries.exists_withState (.live fleet.size)
    refine ⟨context', ?_, (carries.withState attached).state?_eq, ?_⟩
    · show ((DeviceM.ofExcept (device.withState cold (.live fleet.size)) >>= fun c => return ⟨c, false⟩ : DeviceM Successor)
        (fleet.push vm)) = _
      rw [attached]
      rfl
    · rw [publicView_withState attached, publicView_publicView view]

theorem restore_missing (missing : Path.follow path cold = none) (fleet : Fleet) :
    device.restore cold fleet = .error (.snapshotNotFound path) fleet := by
  rw [restore_cold_eq view place, missing]
  rfl

end Restore

/-- A listed interpreter is stored, and is listed under the same place when it has been given up. -/
theorem checkpoint_mapping {n : Nat} {vm vm₁ : Vm} {blob : Bytes} {fleet : Fleet}
    (live : device.state? (.mapping es) = .ok (some (.live n))) (here : fleet[n]? = some vm)
    (taken : Snapshot.dumps vm = .ok blob vm₁) : device.checkpoint (.mapping es) fleet =
      .ok ⟨.mapping (storeAt (.bytes blob) (device.pathFor (deviceKey? es)) es), false⟩ (fleet.setIfInBounds n vm₁) := by
  have listed : device.snapshot (.mapping es) fleet = .ok blob (fleet.setIfInBounds n vm₁) := by
    rw [snapshot, live]
    show DeviceM.within (.live n) Snapshot.dumps fleet = _
    rw [DeviceM.within_live, here]
    simp only [taken]
  show EStateM.bind (device.snapshot (.mapping es)) _ fleet = _
  rw [EStateM.bind, listed]
  dsimp only
  rw [attachSnapshot_mapping]
  rfl

section Standard

variable (standard : device.settings = .standard)
include standard

theorem pathFor_standard (name : Option String) : device.pathFor name = "snapshot" :: (name.toList ++ ["body"]) := by
  rw [pathFor, standard]
  rfl

theorem private_mem_pathFor (name : Option String) : "priv" ∈ device.pathFor name ↔ name = some "priv" := by
  rw [pathFor_standard standard]
  cases name with
  | none => decide
  | some name => simp [eq_comm]

/-- A device keeps its name when a snapshot is stored. -/
theorem deviceKey?_storeAt (blob : Datum) (name : Option String) (es : List (Datum × Datum)) :
    deviceKey? (storeAt blob (device.pathFor name) es) = deviceKey? es := by
  refine deviceKey?_congr ?_
  rw [pathFor_standard standard, lookup_storeAt_of_ne (by decide)]

/-- The name is found again in what is public after that. -/
theorem snapshotPath_cold (blob : Datum) (es : List (Datum × Datum)) :
    device.snapshotPath (.mapping (Datum.erase Private.key (storeAt blob (device.pathFor (deviceKey? es)) es))) =
      .ok (device.pathFor (deviceKey? es)) := by
  have same : deviceKey? (Datum.erase Private.key (storeAt blob (device.pathFor (deviceKey? es)) es)) = deviceKey? es := by
    refine (deviceKey?_congr ?_).trans (deviceKey?_storeAt standard blob (deviceKey? es) es)
    rw [Datum.lookup_erase, if_neg (by decide)]
  rw [snapshotPath_mapping, same]

/-- What is stored is found in what is public, but for one name. -/
theorem follow_cold (blob : Datum) (name : Option String) (es : List (Datum × Datum)) :
    Path.follow (device.pathFor name) (.mapping (Datum.erase Private.key (storeAt blob (device.pathFor name) es))) =
      if name = some "priv" then none else some blob := by
  rw [Path.follow_erase_key (pathFor_ne_nil device name), Path.follow_storeAt (pathFor_ne_nil device name)]
  exact if_congr (private_mem_pathFor standard name) rfl rfl

end Standard

/-- A device with a name, and an interpreter that can be listed. -/
def named (name : String) : List (Datum × Datum) :=
  [(.text "device-key", .text name), (Private.key, .mapping [(.text "state", .live 0)])]

def plainDevice : Device := ⟨.standard, none, Sandbox.defaults⟩

/-- A context that names its device anew, or no more. -/
def renamed (name : Option String) (es : List (Datum × Datum)) : List (Datum × Datum) :=
  match name with
  | some name => Datum.insert (.text "device-key") (.text name) es
  | none => Datum.erase (.text "device-key") es

theorem lookup_renamed_of_ne {k : Datum} (other : Datum.sameKey (.text "device-key") k = false) (name : Option String)
    (es : List (Datum × Datum)) : Datum.lookup k (renamed name es) = Datum.lookup k es := by
  cases name with
  | none => rw [renamed, Datum.lookup_erase, other, if_neg (by simp)]
  | some name => rw [renamed, Datum.lookup_insert, other, if_neg (by simp)]

theorem deviceKey?_renamed (name : Option String) (es : List (Datum × Datum)) : deviceKey? (renamed name es) = name := by
  cases name with
  | none => rw [deviceKey?, renamed, Datum.lookup_erase, if_pos (by decide)]; rfl
  | some name => rw [deviceKey?, renamed, Private.lookup_insert_text]; rfl

/-- What a device of a name finds in a context at the place of its snapshots. -/
def stored? (device : Device) (name : Option String) (es : List (Datum × Datum)) : Except Fault (Option Datum) := do
  let path ← device.snapshotPath (.mapping (renamed name es))
  return Path.follow path (← Private.publicView (.mapping (renamed name es)))

/-- The name under which a device stores its snapshots among those of others. -/
def place (name : Option String) : String := name.getD "body"

/-- Two names with one place are none at all and the name of the leaf. -/
theorem body_of_place_eq {name name' : Option String} (differ : name ≠ name') (same : place name = place name') :
    name = none ∧ name' = some "body" ∨ name = some "body" ∧ name' = none := by
  cases name <;> cases name' <;> simp_all [place, eq_comm]

/-- Can two devices read what both of them store in one context? -/
def Clear (name name' : Option String) : Prop :=
  name ≠ some "priv" ∧ name' ≠ some "priv" ∧ place name ≠ place name'

instance (name name' : Option String) : Decidable (Clear name name') := inferInstanceAs (Decidable (_ ∧ _ ∧ _))

section Both

variable (standard : device.settings = .standard)
include standard

theorem stored?_eq (name : Option String) (es : List (Datum × Datum)) :
    device.stored? name es = .ok (Path.follow (device.pathFor name) (.mapping es)) := by
  show (device.snapshotPath (.mapping (renamed name es)) >>= fun path =>
    .ok (Path.follow path (.mapping (Datum.erase Private.key (renamed name es))))) = _
  rw [snapshotPath_mapping, deviceKey?_renamed]
  show Except.ok (Path.follow (device.pathFor name) (.mapping (Datum.erase Private.key (renamed name es)))) = _
  rw [Path.follow_erase_key (pathFor_ne_nil device name), pathFor_standard standard, Path.follow_mapping, Path.follow_mapping,
    lookup_renamed_of_ne (by decide)]

/-- Devices whose places have different names store apart from each other. -/
theorem apart_pathFor {name name' : Option String} (differ : place name ≠ place name') :
    Path.Apart (device.pathFor name) (device.pathFor name') := by
  rw [pathFor_standard standard, pathFor_standard standard]
  cases name <;> cases name' <;> simp_all [Path.Apart, place, eq_comm]

/-- Among the snapshots of others, those stay whose place has another name. -/
theorem lookup_under_storeAt {name : Option String} {k : Datum} (other : Datum.sameKey (.text (place name)) k = false)
    (blob : Datum) (es : List (Datum × Datum)) :
    Datum.lookup k (under "snapshot" (storeAt blob (device.pathFor name) es)) = Datum.lookup k (under "snapshot" es) := by
  rw [pathFor_standard standard]
  cases name with
  | none => exact (congrArg _ (under_storeAt ..)).trans (lookup_storeAt_of_ne other ..)
  | some name => exact (congrArg _ (under_storeAt ..)).trans (lookup_storeAt_of_ne other ..)

/-- The first of two snapshots is found after the second was stored just when the devices are clear of
each other. -/
theorem follow_first {name name' : Option String} (differ : name ≠ name') (blob blob' : Bytes) {es es' : List (Datum × Datum)}
    (es'_eq : Path.follow (device.pathFor name) (.mapping es') =
      Path.follow (device.pathFor name) (.mapping (storeAt (.bytes blob) (device.pathFor name) es))) :
    Path.follow (device.pathFor name) (.mapping (storeAt (.bytes blob') (device.pathFor name') es')) = some (.bytes blob) ↔
      name ≠ some "priv" ∧ place name ≠ place name' := by
  have path := pathFor_standard standard
  constructor
  · refine fun found => ⟨fun named => ?_, fun same => ?_⟩
    · rw [Path.follow_of_private ((private_mem_pathFor standard name).mpr named)] at found
      cases found
    · obtain ⟨rfl, rfl⟩ | ⟨rfl, rfl⟩ := body_of_place_eq differ same
      · rw [path, path] at found
        have under : Path.follow ["snapshot", "body"]
          (.mapping (storeAt (.bytes blob') (["snapshot", "body"] ++ ["body"]) es')) = some (.bytes blob) := found
        cases Path.isMapping_of_follow (by simp) (by simp) under
      · have path' : ["snapshot", "body"] ≠ [] := by simp
        have lost := Path.follow_storeAt_append path' ["body"] (.bytes blob') es'
        rw [path, path] at found
        rw [show ["snapshot", "body"] ++ ["body"] = "snapshot" :: ((some "body").toList ++ ["body"]) from rfl] at lost
        cases lost.symm.trans found
  · rintro ⟨unnamed, differ⟩
    have reachable : "priv" ∉ device.pathFor name := mt (private_mem_pathFor standard name).mp unnamed
    rw [Path.follow_storeAt_of_apart (apart_pathFor standard differ), es'_eq,
      Path.follow_storeAt (pathFor_ne_nil device name), if_neg reachable]

/-- What stays when a snapshot is stored under a name that the context was given for it. -/
theorem lookup_storeAt_renamed {k : Datum} (outside : Datum.sameKey (.text "snapshot") k = false)
    (other : Datum.sameKey (.text "device-key") k = false) (blob : Datum) (name : Option String) (es : List (Datum × Datum)) :
    Datum.lookup k (storeAt blob (device.pathFor name) (renamed name es)) = Datum.lookup k es := by
  rw [pathFor_standard standard, lookup_storeAt_of_ne outside, lookup_renamed_of_ne other]

theorem lookup_under_storeAt_renamed {name : Option String} {k : Datum}
    (other : Datum.sameKey (.text (place name)) k = false) (blob : Datum) (es : List (Datum × Datum)) :
    Datum.lookup k (under "snapshot" (storeAt blob (device.pathFor name) (renamed name es))) =
      Datum.lookup k (under "snapshot" es) := by
  rw [lookup_under_storeAt standard other, under_congr (lookup_renamed_of_ne (by decide) name es)]

end Both

/-- Two devices with different names store their snapshots in one context, one after the other. Both
of the snapshots are read again under their names just when no device is named like the private
slot, and none of them is named like the leaf at which a device without a name stores, the other
device being one. What is outside of the place for snapshots stays, and so does, within it, what
other names have. -/
theorem stored_both (standard : device.settings = .standard) {name name' : Option String} (differ : name ≠ name')
    (es : List (Datum × Datum)) (blob blob' : Bytes) : ∃ one two,
      device.attachSnapshot (.mapping (renamed name es)) (.bytes blob) = .ok ⟨.mapping one, false⟩ ∧
      device.attachSnapshot (.mapping (renamed name' one)) (.bytes blob') = .ok ⟨.mapping two, false⟩ ∧
      (device.stored? name two = .ok (some (.bytes blob)) ∧ device.stored? name' two = .ok (some (.bytes blob')) ↔
        Clear name name') ∧
      (∀ k, Datum.sameKey (.text "snapshot") k = false → Datum.sameKey (.text "device-key") k = false →
        Datum.lookup k two = Datum.lookup k es) ∧
      ∀ k, Datum.sameKey (.text (place name)) k = false → Datum.sameKey (.text (place name')) k = false →
        Datum.lookup k (under "snapshot" two) = Datum.lookup k (under "snapshot" es) := by
  have attach (name : Option String) (es : List (Datum × Datum)) (blob : Bytes) :
      device.attachSnapshot (.mapping (renamed name es)) (.bytes blob) =
        .ok ⟨.mapping (storeAt (.bytes blob) (device.pathFor name) (renamed name es)), false⟩ := by
    rw [attachSnapshot_mapping, deviceKey?_renamed]
  refine ⟨_, _, attach name es blob, attach name' _ blob', ?_, fun k outside other => ?_, fun k other other' => ?_⟩
  · have kept : Path.follow (device.pathFor name)
        (.mapping (renamed name' (storeAt (.bytes blob) (device.pathFor name) (renamed name es)))) =
          Path.follow (device.pathFor name) (.mapping (storeAt (.bytes blob) (device.pathFor name) (renamed name es))) := by
      rw [pathFor_standard standard, Path.follow_mapping, Path.follow_mapping, lookup_renamed_of_ne (by decide)]
    have first := follow_first standard differ blob blob' kept
    have second := Path.follow_storeAt (pathFor_ne_nil device name') (.bytes blob')
      (renamed name' (storeAt (.bytes blob) (device.pathFor name) (renamed name es)))
    rw [stored?_eq standard, stored?_eq standard, Except.ok.injEq, Except.ok.injEq, first, second]
    rw [if_congr (private_mem_pathFor standard name') rfl rfl]
    simp only [Clear, ite_eq_right_iff, reduceCtorEq, imp_false]
    tauto
  · rw [lookup_storeAt_renamed standard outside other, lookup_storeAt_renamed standard outside other]
  · rw [lookup_under_storeAt_renamed standard other', lookup_under_storeAt_renamed standard other]

/-- A device without a name and another one. -/
theorem stored_both_second : plainDevice.settings = .standard ∧ (none : Option String) ≠ some "a" ∧ ∃ one two,
    plainDevice.attachSnapshot (.mapping (renamed none [])) (.bytes "first".toUTF8) = .ok ⟨.mapping one, false⟩ ∧
    plainDevice.attachSnapshot (.mapping (renamed (some "a") one)) (.bytes "second".toUTF8) = .ok ⟨.mapping two, false⟩ ∧
    plainDevice.stored? none two = .ok (some (.bytes "first".toUTF8)) ∧ plainDevice.stored? (some "a") two = .ok (some (.bytes "second".toUTF8)) := by
  have standard : plainDevice.settings = .standard := rfl
  have differ : (none : Option String) ≠ some "a" := by decide
  obtain ⟨one, two, first, second, both, _⟩ := stored_both standard differ [] "first".toUTF8 "second".toUTF8
  exact ⟨standard, differ, one, two, first, second, both.mpr (by decide)⟩

/-- A device without a name stores where a device of the name of the leaf has stored. -/
theorem stored_first_lost : ∃ one two,
    plainDevice.attachSnapshot (.mapping (renamed (some "body") [])) (.bytes "first".toUTF8) = .ok ⟨.mapping one, false⟩ ∧
    plainDevice.attachSnapshot (.mapping (renamed none one)) (.bytes "second".toUTF8) = .ok ⟨.mapping two, false⟩ ∧
    plainDevice.stored? (some "body") two = .ok none := by
  refine ⟨_, _, rfl, rfl, ?_⟩
  rfl

end LuaCapsule.Device
