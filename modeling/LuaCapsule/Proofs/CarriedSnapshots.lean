import LuaCapsule.Proofs.ContentAddress
import LuaCapsule.Proofs.EncodedReading
import LuaCapsule.Proofs.Passage
import LuaCapsule.Proofs.StoredSnapshots

/-! Snapshots that go through an interpreter in the contexts that carry them. A snapshot is text in spite of
all the strings in it, and for an interpreter bytes that are text and the text itself are one string. So a
context comes back from an interpreter with the text in the place of the bytes, and what is loaded from
the one is what is loaded from the other. -/

namespace LuaCapsule

open Lua

namespace Datum

variable {d d' : Datum} {es es' : List (Datum × Datum)}

/-! ### Entries of nested mappings -/

/-- The value that keys lead to through nested mappings. -/
def at? : List String → Datum → Option Datum
  | [], d => some d
  | k :: path, .mapping es => (lookup (.text k) es).bind (at? path)
  | _ :: _, _ => none

theorem at?_cons (k : String) (path : List String) (es : List (Datum × Datum)) :
    at? (k :: path) (.mapping es) = (lookup (.text k) es).bind (at? path) := rfl

theorem at?_reading : ∀ (path : List String) (d : Datum), at? path (reading d) = (at? path d).map reading
  | [], _ => rfl
  | k :: path, d => by
    cases d with
    | mapping es =>
      rw [reading, at?_cons, at?_cons, entryReadings_eq_map, lookup_map]
      cases lookup (.text k) es with
      | none => rfl
      | some d => exact at?_reading path d
    | _ => rfl

/-- The clean form of a mapping has what is found in it but null. -/
theorem lookup_cleanedFields (distinct : Distinct es) (k : Datum) :
    lookup k (cleanedFields es) = ((lookup k es).filter fun d => !d.isNull).map cleaned := by
  induction es with
  | nil => rfl
  | cons e es ih =>
    obtain ⟨k', d⟩ := e
    obtain ⟨apart, distinct⟩ := List.pairwise_cons.mp distinct
    rw [cleanedFields, lookup]
    by_cases same : sameKey k' k = true
    · rw [if_pos same]
      cases null : d.isNull with
      | true =>
        have absent : lookup k es = none := lookup_eq_none.mpr fun e mem => by
          rw [sameKey_comm, ← sameKey_congr same]
          exact apart e mem
        rw [if_pos rfl, ih distinct, absent]
        simp [Option.filter, null]
      | false =>
        rw [if_neg Bool.false_ne_true, lookup, if_pos same]
        simp [Option.filter, null]
    · rw [if_neg same]
      split
      · exact ih distinct
      · rw [lookup, if_neg same]
        exact ih distinct

theorem FieldsAgree.lookup_rel (agree : FieldsAgree es es') (k : Datum) : Option.Rel Agrees (lookup k es) (lookup k es') := by
  induction es generalizing es' with
  | nil =>
    obtain rfl := agree
    exact .none
  | cons e es ih =>
    obtain ⟨k', d⟩ := e
    obtain ⟨d', rest, rfl, one, others⟩ := agree
    rw [lookup, lookup]
    split
    · exact .some one
    · exact ih others

/-- What is found in a mapping of the clean form is what became of what is found in the mapping itself. -/
theorem lookup_of_agrees (distinct : Distinct es) (agrees : Agrees (cleaned (.mapping es)) (.mapping es')) (k : Datum) :
    Option.Rel (fun d d' => Agrees (cleaned d) d') ((lookup k es).filter fun d => !d.isNull) (lookup k es') := by
  obtain ⟨fs, _, is, agree, perm⟩ := agrees
  cases is
  have beside := agree.lookup_rel k
  rw [← lookup_perm (agree.distinct (distinct_cleanedFields distinct)) perm, lookup_cleanedFields distinct] at beside
  generalize (lookup k es).filter _ = found, lookup k es' = found' at beside ⊢
  cases found with
  | none =>
    cases beside
    exact .none
  | some d =>
    cases beside with
    | some one => exact .some one

theorem isNull_of_at? {path : List String} (there : at? path d = some d') (real : d'.isNull = false) : d.isNull = false := by
  cases path with
  | nil => exact Option.some.inj there ▸ real
  | cons k path =>
    cases d with
    | null => cases there
    | _ => rfl

/-- What keys lead to in a tree, they lead to in its clean form. -/
theorem exists_at?_of_agrees {path : List String} {e e' : Datum} (tree : IsTree e) (there : at? path e = some d)
    (real : d.isNull = false) (agrees : Agrees (cleaned e) e') : ∃ d', at? path e' = some d' ∧ Agrees (cleaned d) d' := by
  induction path generalizing e e' with
  | nil => exact ⟨e', rfl, Option.some.inj there ▸ agrees⟩
  | cons k path ih =>
    cases e with
    | mapping es =>
      obtain ⟨inner, found, there⟩ := Option.bind_eq_some_iff.mp there
      obtain ⟨_, es', rfl, _⟩ := id agrees
      have beside := lookup_of_agrees tree.2 agrees (.text k)
      rw [found, Option.filter_some_pos (by rw [isNull_of_at? there real]; rfl)] at beside
      generalize is : lookup (.text k) es' = found' at beside
      cases beside with
      | some one =>
        rw [at?_cons, is]
        exact ih (tree.value found) there one
    | _ => cases there

/-! ### Readings -/

mutual

theorem depth_reading : ∀ d : Datum, depth (reading d) = depth d
  | .list ds => congrArg (· + 1) (depths_readings ds)
  | .tuple ds => congrArg (· + 1) (depths_readings ds)
  | .mapping es => congrArg (· + 1) (fieldDepths_entryReadings es)
  | .null => rfl
  | .bool _ => rfl
  | .int _ => rfl
  | .float _ => rfl
  | .text _ => rfl
  | .bytes _ => rfl
  | .host _ => rfl
  | .live _ => rfl

theorem depths_readings : ∀ ds : List Datum, depths (readings ds) = depths ds
  | [] => rfl
  | d :: ds => congrArg₂ max (depth_reading d) (depths_readings ds)

theorem fieldDepths_entryReadings : ∀ es : List (Datum × Datum), fieldDepths (entryReadings es) = fieldDepths es
  | [] => rfl
  | (_, d) :: es => congrArg₂ max (depth_reading d) (fieldDepths_entryReadings es)

end

mutual

/-- Content holds nothing of the host. -/
theorem holdsForeign_reading : ∀ {d : Datum}, IsContent d → holdsForeign (reading d) = false
  | .list _, contents => holdForeign_readings contents
  | .tuple _, contents => holdForeign_readings contents
  | .mapping _, ⟨members, _⟩ => fieldsHoldForeign_entryReadings members
  | .null, _ => rfl
  | .bool _, _ => rfl
  | .int _, _ => rfl
  | .float _, _ => rfl
  | .text _, _ => rfl
  | .bytes _, _ => rfl

theorem holdForeign_readings : ∀ {ds : List Datum}, AreContents ds → holdForeign (readings ds) = false
  | [], _ => rfl
  | _ :: _, ⟨one, others⟩ => by rw [readings, holdForeign, holdsForeign_reading one, holdForeign_readings others, Bool.or_self]

theorem fieldsHoldForeign_entryReadings : ∀ {es : List (Datum × Datum)}, AreMembers es → fieldsHoldForeign (entryReadings es) = false
  | [], _ => rfl
  | (_, _) :: _, ⟨⟨_, is⟩, one, others⟩ => by
    rw [entryReadings, fieldsHoldForeign, holdsForeign_reading one, fieldsHoldForeign_entryReadings others, is]
    rfl

end

end Datum

namespace Codec

open Datum

variable {α : Type} {d d' : Datum}

/-! ### Bytes and texts in an interpreter -/

theorem bind_item (same : Item.value <$> item d = Item.value <$> item d') (next : Except Fault Value → VmM α) :
    (item d >>= fun it => next it.value) = (item d' >>= fun it => next it.value) := by
  rw [← bind_map_left Item.value (item d) next, same, bind_map_left]

mutual

/-- An interpreter is given the same for content as for its reading. -/
theorem item_reading : ∀ {d : Datum}, IsContent d → Item.value <$> item (reading d) = Item.value <$> item d
  | .bytes b, ⟨s, is⟩ => by
    rw [reading, is]
    show pure (Except.ok (Value.text s)) = (pure (Except.ok (Value.str b)) : VmM (Except Fault Value))
    rw [← Bytes.ofString_toText? is]
    rfl
  | .list ds, contents => by
    rw [reading, item, item]
    simp only [listItems_readings contents]
  | .tuple ds, contents => by
    rw [reading, item, item]
    simp only [listItems_readings contents]
  | .mapping es, ⟨members, _⟩ => by
    rw [reading, item, item]
    simp only [fields_entryReadings members]
  | .null, _ => rfl
  | .bool _, _ => rfl
  | .int _, _ => rfl
  | .float _, _ => rfl
  | .text _, _ => rfl

theorem listItems_readings : ∀ {ds : List Datum}, AreContents ds → ∀ t i, listItems t i (readings ds) = listItems t i ds
  | [], _, _, _ => rfl
  | _ :: ds, ⟨one, others⟩, t, i => by
    rw [readings, listItems, listItems]
    simp only [listItems_readings others]
    exact bind_item (item_reading one) fun v => do
      let k ← VmM.ofExcept (scalar (.int i))
      let v ← VmM.ofExcept v
      Vm.store (.table t) k v
      listItems t (i + 1) ds

theorem fields_entryReadings : ∀ {es : List (Datum × Datum)}, AreMembers es → ∀ t, fields t (entryReadings es) = fields t es
  | [], _, _ => rfl
  | (k, _) :: es, ⟨_, one, others⟩, t => by
    rw [entryReadings, fields, fields]
    simp only [fields_entryReadings others]
    exact bind_item (item_reading one) fun v => do
      if let some f := keyFault? k then throw f
      let k ← VmM.ofExcept (scalar k)
      let v ← VmM.ofExcept v
      Vm.store (.table t) k v
      fields t es

end

theorem encode_reading (content : IsContent d) : encode (reading d) = encode d := bind_item (item_reading content) VmM.ofExcept

/-- Content comes back from an interpreter as its reading, in the clean form. -/
theorem exists_passage (vm : Vm) (plain : vm.heap.PlainLists) (content : IsContent d) (tree : IsTree (reading d))
    (deep : (depth d : Int) ≤ maxDepth) :
    ∃ v vm' d', encode d vm = .ok v vm' ∧ decode maxDepth v vm' = .ok d' vm' ∧ Agrees (cleaned (reading d)) d' := by
  obtain ⟨v, vm', encoded, _, decoded⟩ := exists_encode plain tree (holdsForeign_reading content)
  have back := decoded maxDepth
  rw [depth_reading, if_pos (Int.le_toNat (by decide) |>.mpr deep)] at back
  obtain ⟨d', decoded, agrees⟩ := back
  exact ⟨v, vm', d', encode_reading content ▸ encoded, decoded, agrees⟩

end Codec

namespace Snapshot

variable {vm vm₁ : Vm} {blob : Bytes} {s : String}

/-! ### Snapshots as texts -/

/-- Whatever strings an interpreter holds, its snapshot is text. -/
theorem exists_text_of_dumps (done : dumps vm = .ok blob vm₁) : ∃ s, blob.toText? = some s := by
  obtain ⟨listed, vm', _, done⟩ := bind_eq_ok.mp done
  cases records : Envelope.records (some listed) with
  | error n =>
    rw [records] at done
    cases done
  | ok heap =>
    rw [records] at done
    dsimp only at done
    cases written : write? ⟨Vm.version, rootPlace, heap⟩ with
    | none =>
      rw [written] at done
      cases done
    | some b =>
      rw [written] at done
      cases done
      obtain ⟨s, _, rfl⟩ := Option.map_eq_some_iff.mp written
      have joined : Bytes.ofString ("LUASNAP\n" ++ s) = mark ++ Bytes.ofString s := String.toByteArray_append
      exact ⟨_, joined ▸ Bytes.toText?_ofString _⟩

theorem loads_text (text : blob.toText? = some s) (memory : Option Int) : loads (.text s) memory = loads (.bytes blob) memory := by
  have same : bytesOf? (.text s) = bytesOf? (.bytes blob) := congrArg some (Bytes.ofString_toText? text)
  rw [loads, loads, same]

end Snapshot

namespace Device

open Datum

variable {es es' : List (Datum × Datum)} {blob : Bytes} {s : String}

/-! ### Contexts that carry a snapshot -/

/-- A device that is named by a text, or not at all, has its name in what comes back. -/
theorem deviceKey?_of_agrees (distinct : Distinct (entryReadings es)) (agrees : Agrees (cleaned (reading (.mapping es))) (.mapping es'))
    (named : ∀ k, lookup (.text "device-key") es = some k → k = .null ∨ ∃ name, k = .text name) : deviceKey? es' = deviceKey? es := by
  have beside := lookup_of_agrees distinct agrees (.text "device-key")
  rw [entryReadings_eq_map, lookup_map] at beside
  rw [deviceKey?, deviceKey?]
  generalize lookup (.text "device-key") es = found, lookup (.text "device-key") es' = found' at beside named ⊢
  cases found with
  | none =>
    cases beside
    rfl
  | some k =>
    obtain rfl | ⟨name, rfl⟩ := named k rfl
    · cases beside
      rfl
    · cases beside with
      | some one =>
        cases one
        rfl

/-- A snapshot is text, from which is loaded what is loaded from its bytes. A context that carries it where its
device stores snapshots comes back from a fresh interpreter with the text in the place of the bytes, and else as
it was but for null in containers, which is left out there. If the name of the device is a text or null, the
device finds the text where it had stored the bytes. -/
theorem carried_through {vm vm₁ : Vm} (done : Snapshot.dumps vm = .ok blob vm₁) : ∃ s, blob.toText? = some s ∧
    (∀ memory, Snapshot.loads (.text s) memory = Snapshot.loads (.bytes blob) memory) ∧
    ∀ (device : Device) (context : Datum) (path : List String), device.snapshotPath context = .ok path →
      context.at? path = some (.bytes blob) → IsContent context → IsTree (reading context) → (depth context : Int) ≤ Codec.maxDepth →
      ∀ memory fresh, Vm.fresh memory = .ok fresh → ∃ v vm' d, Codec.encode context fresh = .ok v vm' ∧
        Codec.decode Codec.maxDepth v vm' = .ok d vm' ∧ Agrees (cleaned (reading context)) d ∧ d.at? path = some (.text s) ∧
        ((∀ k, context.at? ["device-key"] = some k → k = .null ∨ ∃ name, k = .text name) → device.snapshotPath d = .ok path) := by
  obtain ⟨s, text⟩ := Snapshot.exists_text_of_dumps done
  refine ⟨s, text, Snapshot.loads_text text, fun device context path stored there content tree deep memory fresh started => ?_⟩
  obtain rfl := Vm.fresh_eq_ok started
  obtain ⟨v, vm', d, encoded, decoded, agrees⟩ := Codec.exists_passage ⟨Fixed.heap, memory⟩ Codec.plainLists_fixed content tree deep
  have read : at? path (reading context) = some (.text s) := by
    rw [at?_reading, there, Option.map_some, reading, text, Option.getD_some]
  obtain ⟨_, found, rfl⟩ := exists_at?_of_agrees tree read rfl agrees
  refine ⟨v, vm', d, encoded, decoded, agrees, found, fun named => ?_⟩
  cases context with
  | mapping es =>
    obtain ⟨_, es', rfl, _⟩ := id agrees
    rw [snapshotPath_mapping] at stored ⊢
    rw [deviceKey?_of_agrees tree.2 agrees fun k is => named k (by rw [at?_cons, is]; rfl)]
    exact stored
  | _ => cases stored

/-- An interpreter with nothing in its global table. -/
def vacant : Vm := ⟨Fixed.heap.modifyTable Fixed.globals Table.cleared, none⟩

theorem isReady_vacant : Snapshot.isReady vacant.heap = true := by decide +kernel

/-- A context with null in it that carries a snapshot. -/
def carrier (blob : Bytes) : Datum :=
  .mapping [(.text "x", .null), (.text "snapshot", .mapping [(.text "body", .bytes blob)])]

theorem isContent_carrier (text : blob.toText? = some s) : IsContent (carrier blob) ∧ IsTree (reading (carrier blob)) := by
  have inner (d : Datum) : Distinct [(.text "body", d)] := List.pairwise_singleton ..
  have outer (d : Datum) : Distinct [(.text "x", .null), (.text "snapshot", d)] := by
    have names : ["x", "snapshot"].Nodup := by decide
    exact @distinct_texts [("x", .null), ("snapshot", d)] names
  refine ⟨⟨⟨⟨_, rfl⟩, trivial, ⟨_, rfl⟩, ⟨⟨⟨_, rfl⟩, ⟨s, text⟩, trivial⟩, inner _⟩, trivial⟩, outer _⟩, ?_⟩
  exact ⟨⟨.inl ⟨_, rfl⟩, trivial, .inl ⟨_, rfl⟩, ⟨⟨.inl ⟨_, rfl⟩, trivial, trivial⟩, inner _⟩, trivial⟩, outer _⟩

theorem deep_carrier (blob : Bytes) : (depth (carrier blob) : Int) ≤ Codec.maxDepth :=
  show (2 : Int) ≤ 64 by decide

/-- The snapshot of an empty interpreter is carried through a fresh one. -/
theorem carried_through_vacant : ∃ blob s v vm' d, Snapshot.dumps vacant = .ok blob vacant ∧ blob.toText? = some s ∧
    Codec.encode (carrier blob) ⟨Fixed.heap, none⟩ = .ok v vm' ∧ Codec.decode Codec.maxDepth v vm' = .ok d vm' ∧
    d.at? ["snapshot", "body"] = some (.text s) ∧ plainDevice.snapshotPath d = .ok ["snapshot", "body"] := by
  obtain ⟨blob, done⟩ := Snapshot.exists_dumps isReady_vacant
  obtain ⟨s, text, -, carried⟩ := carried_through done
  obtain ⟨content, tree⟩ := isContent_carrier text
  have path : plainDevice.snapshotPath (carrier blob) = .ok ["snapshot", "body"] := rfl
  obtain ⟨v, vm', d, encoded, decoded, -, found, again⟩ :=
    carried plainDevice (carrier blob) _ path rfl content tree (deep_carrier blob) none ⟨Fixed.heap, none⟩ rfl
  exact ⟨blob, s, v, vm', d, done, text, encoded, decoded, found, again nofun⟩

/-- Null in a context that carries a snapshot does not come back. -/
theorem null_not_carried : ∃ blob v vm' d, Snapshot.dumps vacant = .ok blob vacant ∧
    plainDevice.snapshotPath (carrier blob) = .ok ["snapshot", "body"] ∧
    (carrier blob).at? ["snapshot", "body"] = some (.bytes blob) ∧ (depth (carrier blob) : Int) ≤ Codec.maxDepth ∧
    Codec.encode (carrier blob) ⟨Fixed.heap, none⟩ = .ok v vm' ∧ Codec.decode Codec.maxDepth v vm' = .ok d vm' ∧
    (carrier blob).at? ["x"] = some .null ∧ d.at? ["x"] = none := by
  obtain ⟨blob, done⟩ := Snapshot.exists_dumps isReady_vacant
  obtain ⟨s, text⟩ := Snapshot.exists_text_of_dumps done
  obtain ⟨content, tree⟩ := isContent_carrier text
  obtain ⟨v, vm', d, encoded, decoded, agrees⟩ :=
    Codec.exists_passage ⟨Fixed.heap, none⟩ Codec.plainLists_fixed content tree (deep_carrier blob)
  refine ⟨blob, v, vm', d, done, rfl, rfl, deep_carrier blob, encoded, decoded, rfl, ?_⟩
  obtain ⟨_, es', rfl, _⟩ := id agrees
  have beside := lookup_of_agrees tree.2 agrees (.text "x")
  have missing : lookup (.text "x") es' = none := by
    generalize lookup (.text "x") es' = found at beside
    cases beside
    rfl
  rw [at?_cons, missing]
  rfl

end Device

end LuaCapsule
