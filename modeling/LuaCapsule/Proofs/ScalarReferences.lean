import LuaCapsule.Proofs.CanonicalText
import LuaCapsule.Proofs.CodePoints
import LuaCapsule.Proofs.Passage
import LuaCapsule.Proofs.RecordForm
import LuaCapsule.Proofs.UncheckedContents

/-! References to scalars on their whole way. A scalar is listed as a small table of named fields, which the
host takes as a mapping, writes as JSON, reads again and hands to another interpreter as a table. Each step
keeps the fields but for their order, and what is rebuilt from them is the scalar, bit for bit and byte for
byte. -/

namespace LuaCapsule

open Lua Codec

/-! ### Flat mappings -/

namespace Datum

/-- A scalar that is the same in a table, in JSON and among the values of the host. -/
inductive IsLeaf : Datum → Prop
  | bool (b : Bool) : IsLeaf (.bool b)
  | int {i : Int} (fits : isInt64 i = true) : IsLeaf (.int i)
  | text (s : String) : IsLeaf (.text s)

/-- Entries that name leaves, each by a text of its own. -/
structure IsFlat (es : List (Datum × Datum)) : Prop where
  texts : ∀ e ∈ es, ∃ s, e.1 = .text s
  leaves : ∀ e ∈ es, IsLeaf e.2
  distinct : Distinct es

/-- Is one mapping another one with its entries in some order? -/
def Reorders (d d' : Datum) : Prop := ∃ es es', d = .mapping es ∧ d' = .mapping es' ∧ es.Perm es'

variable {d d' : Datum} {es es' : List (Datum × Datum)}

namespace IsLeaf

theorem sorted_eq (leaf : IsLeaf d) : Json.sorted d = d := by cases leaf <;> rfl

theorem plain (leaf : IsLeaf d) (n : Nat) : Json.Plain n d := by
  cases leaf with
  | bool b => simp [Json.Plain]
  | int fits => simpa [Json.Plain] using Json.isLong_of_isInt64 fits
  | text s => simp [Json.Plain]

theorem isClean (leaf : IsLeaf d) : d.isNull = false ∧ IsClean 0 d := by
  cases leaf with
  | bool b => exact ⟨rfl, trivial⟩
  | int fits => exact ⟨rfl, fits⟩
  | text s => exact ⟨rfl, trivial⟩

theorem exists_scalar (leaf : IsLeaf d) : ∃ v, scalar d = .ok v ∧ ∀ h first, Encoded h first d v := by
  cases leaf with
  | bool b => exact ⟨_, rfl, fun _ _ => rfl⟩
  | @int i fits =>
    have entered : scalar (.int i) = .ok (.int (Int64.ofInt i)) := by simp [scalar, fits]
    exact ⟨_, entered, fun _ _ => entered⟩
  | text s => exact ⟨_, rfl, fun _ _ => rfl⟩

theorem eq_of_agrees (leaf : IsLeaf d) (agrees : Agrees d d') : d' = d := by
  cases leaf <;> exact agrees

end IsLeaf

namespace IsFlat

theorem perm (flat : IsFlat es) (perm : es.Perm es') : IsFlat es' where
  texts := fun e mem => flat.texts e (perm.mem_iff.mpr mem)
  leaves := fun e mem => flat.leaves e (perm.mem_iff.mpr mem)
  distinct := flat.distinct.perm perm

theorem isClean (flat : IsFlat es) : IsClean 1 (.mapping es) :=
  ⟨flat.distinct, fun e mem => ⟨flat.texts e mem, (flat.leaves e mem).isClean⟩⟩

/-! What JSON and the host make of them. -/

theorem texts_eq (flat : IsFlat es) : ∀ e ∈ es, e.1 = .text (Json.keyText e.1) := by
  intro e mem
  obtain ⟨s, is⟩ := flat.texts e mem
  rw [is]
  rfl

theorem plain (flat : IsFlat es) (n : Nat) : Json.Plain (n + 1) (.mapping es) := by
  have members : ∀ {es}, (∀ e ∈ es, e.1 = .text (Json.keyText e.1)) → (∀ e ∈ es, IsLeaf e.2) → Json.PlainMembers n es := by
    intro es
    induction es with
    | nil => exact fun _ _ => trivial
    | cons e es ih =>
      intro texts leaves
      obtain ⟨text, texts⟩ := List.forall_mem_cons.mp texts
      obtain ⟨leaf, leaves⟩ := List.forall_mem_cons.mp leaves
      rw [Json.PlainMembers]
      exact ⟨text, leaf.plain n, ih texts leaves⟩
  rw [Json.Plain]
  exact ⟨members flat.texts_eq flat.leaves, Json.nodup_keyText flat.texts flat.distinct⟩

theorem reorders_sorted (flat : IsFlat es) : Reorders (.mapping es) (Json.sorted (.mapping es)) := by
  have same : Json.sortedMembers es = es := by
    rw [Json.sortedMembers_eq_map]
    refine (List.map_congr_left fun e mem => ?_).trans (List.map_id es)
    exact Prod.ext rfl (flat.leaves e mem).sorted_eq
  refine ⟨es, _, rfl, rfl, ?_⟩
  rw [same]
  exact (List.mergeSort_perm ..).symm

theorem eq_of_fieldsAgree : ∀ {es es' : List (Datum × Datum)}, (∀ e ∈ es, IsLeaf e.2) → FieldsAgree es es' → es' = es
  | [], _, _, rfl => rfl
  | (k, d) :: es, _, leaves, ⟨d', rest, rfl, one, others⟩ => by
    obtain ⟨leaf, leaves⟩ := List.forall_mem_cons.mp leaves
    rw [leaf.eq_of_agrees one, eq_of_fieldsAgree leaves others]

theorem reorders_of_agrees (flat : IsFlat es) (agrees : Agrees (.mapping es) d) : Reorders (.mapping es) d := by
  obtain ⟨fs, es', rfl, agree, perm⟩ := agrees
  exact ⟨es, es', rfl, rfl, eq_of_fieldsAgree flat.leaves agree ▸ perm⟩

end IsFlat

end Datum

namespace Codec

open Datum

variable {es : List (Datum × Datum)} {h : Heap} {t : Nat}

/-! ### Flat mappings in an interpreter -/

/-- Leaves are stored in a table that no metatable answers for. -/
theorem fields_of_leaves {kvs : List (Key × Value)} {vm : Vm} (texts : ∀ e ∈ es, ∃ s, e.1 = .text s) (leaves : ∀ e ∈ es, IsLeaf e.2)
    (stands : Stands vm.heap t t none (lastAt kvs)) : ∃ vm' new, fields t es vm = .ok ⟨⟩ vm' ∧
      (∀ h first, EncodedFields h first es new) ∧ Stands vm'.heap t t none (lastAt (kvs ++ new)) := by
  induction es generalizing kvs vm with
  | nil => exact ⟨vm, [], rfl, fun _ _ => rfl, by rwa [List.append_nil]⟩
  | cons e es ih =>
    obtain ⟨k, d⟩ := e
    obtain ⟨⟨s, named⟩, texts'⟩ := List.forall_mem_cons.mp texts
    obtain ⟨leaf, leaves'⟩ := List.forall_mem_cons.mp leaves
    obtain rfl : k = .text s := named
    obtain ⟨v, entered, encoded⟩ := leaf.exists_scalar
    obtain ⟨f, stored⟩ := store_eq (Heap.metamethod_of_bare stands.metatable _) (.text s) v
    have stands' : Stands (vm.heap.rawSet t (.text s) v) t t none (lastAt (kvs ++ [(.text s, v)])) :=
      stands.rawSet fun k => lastAt_concat kvs (.text s) v k
    obtain ⟨vm', new, done, each, filled⟩ := @ih _ { vm with heap := vm.heap.rawSet t (.text s) v } texts' leaves' stands'
    refine ⟨vm', (.text s, v) :: new, ?_, fun h first => ⟨_, v, new, rfl, key?_text s, encoded h first, each h first⟩, ?_⟩
    · have item : item d vm = .ok (.scalar d) vm := by cases leaf <;> rfl
      rw [fields, bind_of_ok item]
      show ((VmM.ofExcept (Codec.scalar d) >>= fun v => do Vm.store (.table t) (.text s) v; fields t es) : VmM Unit) vm = _
      rw [entered]
      exact (bind_of_ok stored).trans done
    · rwa [List.append_assoc] at filled

/-- A flat mapping goes into any interpreter, as a new table. -/
theorem encode_flat (flat : IsFlat es) (vm : Vm) : ∃ vm', encode (.mapping es) vm = .ok (.table vm.heap.tables.size) vm' ∧
    ∃ kvs, (∀ h first, EncodedFields h first es kvs) ∧ Stands vm'.heap vm.heap.tables.size vm.heap.tables.size none (lastAt kvs) := by
  let begun : Vm := { vm with heap := (vm.heap.newTable {}).2 }
  have empty : Stands begun.heap vm.heap.tables.size vm.heap.tables.size none (lastAt []) := stands_newTable vm.heap none
  obtain ⟨vm', new, done, each, stands⟩ := fields_of_leaves flat.texts flat.leaves empty
  refine ⟨vm', ?_, new, each, stands⟩
  have made : item (.mapping es) vm = .ok (.made (.table vm.heap.tables.size)) vm' := by
    rw [item]
    show ((do fields vm.heap.tables.size es; return .made (.table vm.heap.tables.size)) : VmM Item) begun = _
    exact bind_of_ok done
  rw [encode, bind_of_ok made]
  rfl

/-- A table that stands for a flat mapping is decoded to it, but for the order of its entries. -/
theorem decode_flat {first : Nat} {v : Value} (memory : Option Int) (flat : IsFlat es) (encoded : Encoded h first (.mapping es) v)
    {limit : Int} (enough : 1 ≤ limit) : ∃ d, decode limit v ⟨h, memory⟩ = .ok d ⟨h, memory⟩ ∧ Reorders (.mapping es) d := by
  have settles := flat.isClean.settles
  have decoded := @decode_of_within ⟨h, memory⟩ limit _ _ _ (candid_of_encoded encoded _)
    (decodeFrom_spec encoded settles.tree limit.toNat)
  rw [if_pos (Nat.le_trans settles.deep (by omega)), settles.same] at decoded
  obtain ⟨d, done, agrees⟩ := decoded
  exact ⟨d, done, flat.reorders_of_agrees agrees⟩

end Codec

namespace Snapshot

open Datum

variable {r : Reference} {d : Datum} {v : Value} {st : State}

/-! ### The fields of a reference -/

theorem isFlat_tagged (tag : String) (leaf : IsLeaf d) : IsFlat [(.text "t", .text tag), (.text "v", d)] where
  texts := by
    simp only [List.forall_mem_cons]
    exact ⟨⟨_, rfl⟩, ⟨_, rfl⟩, List.forall_mem_nil _⟩
  leaves := by
    simp only [List.forall_mem_cons]
    exact ⟨.text tag, leaf, List.forall_mem_nil _⟩
  distinct := by
    have names : ["t", "v"].Nodup := by decide
    exact @distinct_texts [("t", .text tag), ("v", d)] names

theorem exists_isFlat (fits : fits r.toDatum = true) : ∃ es, r.toDatum = .mapping es ∧ IsFlat es := by
  cases r with
  | nil =>
    refine ⟨_, rfl, ⟨?_, ?_, List.pairwise_singleton ..⟩⟩
    · exact List.forall_mem_singleton.mpr ⟨_, rfl⟩
    · exact List.forall_mem_singleton.mpr (.text "nil")
  | bool b => exact ⟨_, rfl, isFlat_tagged "b" (.bool b)⟩
  | int i => exact ⟨_, rfl, isFlat_tagged "i" (.int (Binary64.isInt64_toInt i))⟩
  | float x => exact ⟨_, rfl, isFlat_tagged "f" (.text _)⟩
  | text s => exact ⟨_, rfl, isFlat_tagged "s" (.text s)⟩
  | bytes b => exact ⟨_, rfl, isFlat_tagged "x" (.text _)⟩
  | object place =>
    have small : isInt64 place = true := by simpa [Reference.toDatum, tagged, Snapshot.fits, fitsEntries] using fits
    exact ⟨_, rfl, isFlat_tagged "r" (.int small)⟩

theorem field?_of_reorders (fits : fits r.toDatum = true) (reorders : Reorders r.toDatum d) (name : String) :
    field? name d = field? name r.toDatum := by
  obtain ⟨es, is, flat⟩ := exists_isFlat fits
  obtain ⟨es', es'', is', rfl, perm⟩ := reorders
  obtain rfl := Datum.mapping.inj (is.symm.trans is')
  rw [is]
  exact lookup_perm flat.distinct perm (.text name)

/-- The fields of a reference are read as the reference in whatever order they stand. -/
theorem ofDatum?_of_reorders (fits : fits r.toDatum = true) (reorders : Reorders r.toDatum d) :
    Reference.ofDatum? d = some r.settled := by
  have plain := ofDatum?_reference rewrites_id fits
  unfold Reference.ofDatum? at plain ⊢
  rwa [field?_of_reorders fits reorders, field?_of_reorders fits reorders]

/-! ### Tables of named fields -/

/-- Is there memory enough for a new table? -/
def HasRoom (st : State) : Prop := ∀ cap ∈ st.cap, st.heap.tables.size * 14 ≤ cap

theorem newTable_eq (room : HasRoom st) (t : Table) :
    newTable t st = .ok st.heap.tables.size { st with heap := (st.heap.newTable t).2 } := by
  have checked : checkSize (st.heap.tables.size * 14) st = .ok ⟨⟩ st := by
    unfold checkSize
    rw [get_bind]
    cases capped : st.cap with
    | none => rfl
    | some cap =>
      dsimp only
      rw [if_neg (Nat.not_lt_of_le (room cap capped))]
      rfl
  unfold newTable
  rw [get_bind, bind_of_ok checked]
  rfl

/-- A table of named fields. -/
def namedFields (items : List (String × Value)) : Table := items.foldl (fun t (name, v) => t.set (.text name) v) {}

theorem namedFields_concat (items : List (String × Value)) (name : String) (v : Value) :
    namedFields (items ++ [(name, v)]) = (namedFields items).set (.text name) v := by
  rw [namedFields, List.foldl_append]
  rfl

theorem get_namedFields (items : List (String × Value)) (k : Key) :
    (namedFields items).get k = lastAt (items.map fun e => (.text e.1, e.2)) k := by
  induction items using List.reverseRecOn with
  | nil => exact Table.get_empty 0 0 k
  | append_singleton items e ih =>
    rw [List.map_append, List.map_singleton, lastAt_concat, ← ih, ← Table.get_set]
    exact congrArg (Table.get · k) (namedFields_concat items e.1 e.2)

theorem metatable_namedFields (items : List (String × Value)) : (namedFields items).metatable = none := by
  induction items using List.reverseRecOn with
  | nil => rfl
  | append_singleton items e ih =>
    exact (congrArg Table.metatable (namedFields_concat items e.1 e.2)).trans ((Table.metatable_set ..).trans ih)

/-- A table of named fields stands for the mapping of what the fields stand for. -/
theorem exists_fields_eq (room : HasRoom st) {items : List (String × Value)} {es : List (Datum × Datum)}
    (each : ∀ h first, EncodedFields h first es (items.map fun e => (.text e.1, e.2))) :
    ∃ h, Walk.fields items st = .ok (.table st.heap.tables.size) { st with heap := h } ∧
      Encoded h st.heap.tables.size (.mapping es) (.table st.heap.tables.size) := by
  have here : (st.heap.newTable (namedFields items)).2.table st.heap.tables.size = namedFields items := by
    rw [Heap.table_newTable, if_pos rfl]
  refine ⟨(st.heap.newTable (namedFields items)).2, ?_, _, _, rfl, each _ _, Nat.le_refl _, ?_, ?_, fun k => ?_⟩
  · unfold Walk.fields
    rw [bind_of_ok (newTable_eq room _)]
    rfl
  · simp [Heap.newTable]
  · rw [here, metatable_namedFields]
  · rw [here, get_namedFields]

theorem exists_value_eq (room : HasRoom st) (fits : fits r.toDatum = true) :
    ∃ h, Walk.Reference.value r st = .ok (.table st.heap.tables.size) { st with heap := h } ∧
      Encoded h st.heap.tables.size r.toDatum (.table st.heap.tables.size) := by
  have one {tag : String} {d : Datum} {v : Value} (entered : ∀ h first, Encoded h first d v) :
      ∃ h, Walk.fields [("t", .text tag), ("v", v)] st = .ok (.table st.heap.tables.size) { st with heap := h } ∧
        Encoded h st.heap.tables.size (tagged tag d) (.table st.heap.tables.size) :=
    exists_fields_eq room fun h first =>
      ⟨_, _, _, rfl, key?_text "t", rfl, _, _, _, rfl, key?_text "v", entered h first, rfl⟩
  cases r with
  | nil => exact exists_fields_eq room fun h first => ⟨_, _, _, rfl, key?_text "t", rfl, rfl⟩
  | bool b => exact one fun _ _ => rfl
  | int i =>
    refine one fun _ _ => ?_
    show scalar _ = _
    simp [scalar, Binary64.isInt64_toInt]
  | float x => exact one fun _ _ => rfl
  | text s => exact one fun _ _ => rfl
  | bytes b => exact one fun _ _ => rfl
  | object place =>
    have small : isInt64 place = true := by simpa [Reference.toDatum, tagged, Snapshot.fits, fitsEntries] using fits
    refine one fun _ _ => ?_
    show scalar _ = _
    simp [scalar, small, Value.ofNat, Int64.ofInt_eq_ofNat]

/-! ### Scalars -/

/-- Is a value another one again? All that is not a number is the same. -/
def IsAgain (v v' : Value) : Prop := v' = v ∨ ∃ x y, v = .float x ∧ v' = .float y ∧ x.isNaN = true ∧ y.isNaN = true

/-- What a scalar is listed as stands for it, whatever the objects are. -/
theorem refer_scalar (scalar : v.ref? = none) (s : Survey) : ∃ r, refer v s = .ok (r, s) ∧ fits r.toDatum = true ∧
    (∀ n, r.settled ≠ .object n) ∧ IsAgain v (r.settled.at []) := by
  cases v with
  | nil => exact ⟨.nil, rfl, rfl, (fun _ is => by cases is), .inl rfl⟩
  | bool b => exact ⟨.bool b, rfl, rfl, (fun _ is => by cases is), .inl rfl⟩
  | int i =>
    refine ⟨.int i, rfl, ?_, (fun _ is => by cases is), .inl rfl⟩
    simp [Reference.toDatum, tagged, Snapshot.fits, fitsEntries, Binary64.isInt64_toInt]
  | float x =>
    refine ⟨.float x, rfl, rfl, (fun _ is => by cases is), ?_⟩
    cases nan : x.isNaN with
    | true =>
      refine .inr ⟨x, .invalid, rfl, ?_, nan, by decide⟩
      rw [Reference.settled, if_pos nan]
      rfl
    | false =>
      refine .inl ?_
      rw [Reference.settled, if_neg (by rw [nan]; exact Bool.false_ne_true)]
      rfl
  | str b =>
    cases text : b.toText? with
    | some t =>
      refine ⟨.text t, ?_, rfl, (fun _ is => by cases is), .inl ?_⟩
      · rw [refer, text]
        rfl
      · exact congrArg Value.str (Bytes.ofString_toText? text)
    | none =>
      refine ⟨.bytes b, ?_, rfl, (fun _ is => by cases is), .inl rfl⟩
      rw [refer, text]
      rfl
  | ref r => cases scalar

/-- A string is listed as text exactly if it is one. -/
theorem tag_of_refer {b : Bytes} {s : Survey} (listed : refer (.str b) s = .ok (r, s)) :
    field? "t" r.toDatum = some (.text "s") ↔ ∃ t, b = Bytes.ofString t := by
  rw [refer] at listed
  cases text : b.toText? with
  | some t =>
    rw [text] at listed
    cases listed
    exact ⟨fun _ => ⟨t, (Bytes.ofString_toText? text).symm⟩, fun _ => rfl⟩
  | none =>
    rw [text] at listed
    cases listed
    refine ⟨fun is => ?_, ?_⟩
    · exact absurd (Datum.text.inj (Option.some.inj is)) (by decide : "x" ≠ "s")
    · rintro ⟨t, rfl⟩
      cases (Bytes.toText?_ofString t).symm.trans text

theorem at_of_ne_object (other : ∀ n, r ≠ .object n) (os : List Value) (objects : Array Ref) :
    r.at os = r.at [] ∧ valueOf? objects r = some (r.at []) := by
  cases r with
  | object n => exact absurd rfl (other n)
  | _ => exact ⟨rfl, rfl⟩

/-- A reference to a scalar comes through the host and JSON into another interpreter, and stands for the scalar
there: for the very same one, or for what is not a number if it is none. Both ways of listing and of rebuilding
agree about it. A string is listed as text exactly if it is one, which is what the library has to say of it. -/
theorem scalar_restored (scalar : v.ref? = none) (s : Survey) (room : HasRoom st) (memory : Option Int) (vm : Vm) :
    ∃ r t h d text d' t' vm' v', refer v s = .ok (r, s) ∧
      Walk.reference v s st = .ok (.table t, s) { st with heap := h } ∧
      decode maxDepth (.table t) ⟨h, memory⟩ = .ok d ⟨h, memory⟩ ∧ Reorders r.toDatum d ∧
      Json.write? false d = some text ∧ Json.read? limits text = some d' ∧
      encode d' vm = .ok (.table t') vm' ∧
      (∀ all st', st'.heap.table t' = vm'.heap.table t' → Unchecked.value all (.table t') st' = .ok v' st') ∧
      (∀ objects, (Reference.ofDatum? d').bind (valueOf? objects) = some v') ∧ IsAgain v v' ∧
      ∀ b, v = .str b → (field? "t" d = some (.text "s") ↔ ∃ t, b = Bytes.ofString t) ∧
        ∀ site : Site, site.arguments = [v] → ∃ rs, CodePoints.len site st = .ok rs st ∧
          ((rs.headD .nil).truthy = true ↔ field? "t" d = some (.text "s")) := by
  obtain ⟨r, listed, fits, other, again⟩ := refer_scalar scalar s
  obtain ⟨es, is, flat⟩ := exists_isFlat fits
  obtain ⟨h, made, stands⟩ := exists_value_eq room fits
  -- Out of the first interpreter.
  obtain ⟨d, decoded, reorders⟩ := decode_flat memory flat (is ▸ stands) (by decide : 1 ≤ maxDepth)
  obtain ⟨_, es', same, rfl, perm⟩ := id reorders
  cases same
  have flat' := flat.perm perm
  -- Through JSON.
  obtain ⟨text, written, read⟩ := Json.read_write false limits (flat'.plain 199)
  obtain ⟨_, es'', same, sorted, perm'⟩ := flat'.reorders_sorted
  cases same
  have flat'' := flat'.perm perm'
  rw [sorted] at read
  have names : Reorders r.toDatum (.mapping es'') := is ▸ ⟨es, es'', rfl, rfl, perm.trans perm'⟩
  have known := ofDatum?_of_reorders fits names
  -- Into the second one.
  obtain ⟨vm', encoded, kvs, each, filled⟩ := encode_flat flat'' vm
  refine ⟨r, _, h, _, text, _, _, vm', r.settled.at [], listed, ?_, decoded, is ▸ reorders, written, read, encoded, ?_, ?_, again, ?_⟩
  · have surveyed : Walk.survey (refer v) s st = .ok (r, s) st := by
      rw [Walk.survey, listed]
      rfl
    show ((Walk.survey (refer v) s >>= fun p => do return (← Walk.Reference.value p.1, p.2)) : M (Value × Survey)) st = _
    rw [bind_of_ok surveyed, bind_of_ok made]
    rfl
  · intro all st' kept
    have fields (name : String) : ∃ w, FieldOf vm'.heap 0 (field? name (.mapping es'')) w ∧
        st'.heap.index (.table vm.heap.tables.size) (.text name) = .value w :=
      ⟨_, fieldOf_lastAt (each vm'.heap 0) flat''.isClean.settles.tree name,
        filled.index_of_silent kept (Heap.metamethod_of_bare (kept ▸ filled.metatable) _) _⟩
    exact Unchecked.value_eq known fields fun n _ object => absurd object (other n)
  · intro objects
    rw [known]
    exact (at_of_ne_object other [] objects).2
  · rintro b rfl
    have tag : field? "t" (.mapping es') = some (.text "s") ↔ ∃ t, b = Bytes.ofString t :=
      (field?_of_reorders fits (is ▸ reorders) "t") ▸ tag_of_refer listed
    refine ⟨tag, fun site given => ?_⟩
    obtain ⟨rs, counted, answer⟩ := CodePoints.len_spec site given st
    exact ⟨rs, counted, answer.trans tag.symm⟩

/-- A byte that stands alone in no text. -/
def stray : Bytes := Bytes.ofList [0x80]

/-- It comes back from an interpreter into another one, though it was not listed as text. -/
theorem stray_restored : ∃ t h d text d' t' vm',
    Walk.reference (.str stray) {} { heap := Fixed.heap } = .ok (.table t, {}) { heap := h } ∧
      decode maxDepth (.table t) ⟨h, none⟩ = .ok d ⟨h, none⟩ ∧ field? "t" d ≠ some (.text "s") ∧
      Json.write? false d = some text ∧ Json.read? limits text = some d' ∧ encode d' ⟨Fixed.heap, none⟩ = .ok (.table t') vm' ∧
      Unchecked.value {} (.table t') { heap := vm'.heap } = .ok (.str stray) { heap := vm'.heap } := by
  have scalar : (Value.str stray).ref? = none := rfl
  have room : HasRoom { heap := Fixed.heap } := nofun
  obtain ⟨r, t, h, d, text, d', t', vm', v', -, made, decoded, -, written, read, encoded, rebuilt, -, again, tags⟩ :=
    scalar_restored scalar {} room none ⟨Fixed.heap, none⟩
  obtain ⟨tag, -⟩ := tags stray rfl
  have same : v' = .str stray := again.resolve_right fun ⟨_, _, number, _⟩ => nomatch number
  refine ⟨t, h, d, text, d', t', vm', made, decoded, fun is => ?_, written, read, encoded, same ▸ rebuilt {} _ rfl⟩
  obtain ⟨s, text⟩ := tag.mp is
  have none' : stray.toText? = none := by decide
  cases (text ▸ Bytes.toText?_ofString s : stray.toText? = some s).symm.trans none'

end Snapshot

end LuaCapsule
