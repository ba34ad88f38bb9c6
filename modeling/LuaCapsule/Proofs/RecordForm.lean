import LuaCapsule.Proofs.JsonRoundTrip
import LuaCapsule.Proofs.Mappings
import LuaCapsule.Proofs.Spelling
import LuaCapsule.Snapshot.Envelope

/-! A snapshot says all that its listing says: the records are read back from the bytes, each
as it was but for the bits of what is not a number. -/

namespace LuaCapsule

/-! ### Fields -/

namespace Json

theorem text_of_mem {n : Nat} {es : List (Datum × Datum)} (h : PlainMembers n es) {e : Datum × Datum}
    (mem : e ∈ es) : e.1 = .text (keyText e.1) := by
  induction es with
  | nil => cases mem
  | cons e' es ih =>
    obtain ⟨k, d⟩ := e'
    rw [PlainMembers] at h
    rcases List.mem_cons.mp mem with rfl | mem
    · exact h.1
    · exact ih h.2.2 mem

theorem distinct_of_plainMembers {n : Nat} {es : List (Datum × Datum)} (h : PlainMembers n es)
    (nodup : (es.map fun e => keyText e.1).Nodup) : Datum.Distinct es := by
  refine (List.pairwise_map.mp nodup).imp_of_mem fun {e e'} mem mem' other => ?_
  rw [text_of_mem h mem, text_of_mem h mem']
  exact beq_false_of_ne other

/-- The order of members does not matter to what is found under a key. -/
theorem lookup_sorted {n : Nat} {es : List (Datum × Datum)} (h : PlainMembers n es)
    (nodup : (es.map fun e => keyText e.1).Nodup) (k : String) :
    Datum.lookup (.text k) (inOrder (sortedMembers es)) = (Datum.lookup (.text k) es).map sorted := by
  have perm : (sortedMembers es).Perm (inOrder (sortedMembers es)) := (List.mergeSort_perm ..).symm
  have distinct : Datum.Distinct (sortedMembers es) := by
    rw [sortedMembers_eq_map]
    exact List.pairwise_map.mpr (distinct_of_plainMembers h nodup)
  rw [Datum.lookup_perm distinct perm, sortedMembers_eq_map, Datum.lookup_map]

end Json

namespace Snapshot

open Json

theorem field?_sorted {n : Nat} {d : Datum} (h : Plain n d) (name : String) :
    field? name (sorted d) = (field? name d).map sorted := by
  cases d with
  | mapping es =>
    cases n with
    | zero => simp [Plain] at h
    | succ n =>
      rw [Plain] at h
      exact lookup_sorted h.1 h.2 name
  | _ => simp [sorted, field?]

/-- A rewriting of values that leaves scalars alone and goes into lists and fields. -/
structure Rewrites (f : Datum → Datum) : Prop where
  bool : ∀ b, f (.bool b) = .bool b
  int : ∀ i, f (.int i) = .int i
  text : ∀ s, f (.text s) = .text s
  list : ∀ ds, f (.list ds) = .list (ds.map f)
  field : ∀ {n : Nat} {d : Datum}, Plain n d → ∀ name, field? name (f d) = (field? name d).map f

theorem rewrites_sorted : Rewrites sorted where
  bool := fun _ => rfl
  int := fun _ => rfl
  text := fun _ => rfl
  list := fun ds => by rw [sorted, sortedAll_eq_map]
  field := field?_sorted

theorem rewrites_id : Rewrites id where
  bool := fun _ => rfl
  int := fun _ => rfl
  text := fun _ => rfl
  list := fun ds => by simp
  field := fun _ name => by simp

variable {f : Datum → Datum}

/-! ### References -/

/-- A reference as it is read back: what is not a number is spelled in one way only. -/
def Reference.settled : Reference → Reference
  | .float x => .float (if x.isNaN then .invalid else x)
  | r => r

theorem plain_tagged {n : Nat} {d : Datum} (h : Plain n d) (tag : String) : Plain (n + 1) (tagged tag d) := by
  simp [tagged, Plain, PlainMembers, keyText, h]

theorem plain_reference {r : Reference} (fits : fits r.toDatum = true) (n : Nat) : Plain (n + 1) r.toDatum := by
  cases r with
  | nil => simp [Reference.toDatum, Plain, PlainMembers, keyText]
  | int i => exact plain_tagged (by rw [Plain]; exact isLong_of_isInt64 (Binary64.isInt64_toInt i)) _
  | object place =>
    refine plain_tagged ?_ _
    rw [Plain]
    refine isLong_of_isInt64 ?_
    simpa [Reference.toDatum, tagged, Snapshot.fits, fitsEntries] using fits
  | _ => exact plain_tagged (by simp [Plain]) _

theorem ofDatum?_reference (rewrites : Rewrites f) {r : Reference} (fits : fits r.toDatum = true) :
    Reference.ofDatum? (f r.toDatum) = some r.settled := by
  have plain := plain_reference fits 0
  rw [Reference.ofDatum?, rewrites.field plain, rewrites.field plain]
  cases r with
  | nil => simp [Reference.toDatum, field?, Datum.lookup, Datum.sameKey, rewrites.text, Reference.settled]
  | bool b => simp [Reference.toDatum, tagged, field?, Datum.lookup, Datum.sameKey, rewrites.text, rewrites.bool, Reference.settled]
  | int i =>
    simp [Reference.toDatum, tagged, field?, Datum.lookup, Datum.sameKey, rewrites.text, rewrites.int, readInt64?,
      Binary64.isInt64_toInt, Reference.settled]
  | float x =>
    simp [Reference.toDatum, tagged, field?, Datum.lookup, Datum.sameKey, rewrites.text, readDouble?_doubleText,
      Reference.settled]
  | text s => simp [Reference.toDatum, tagged, field?, Datum.lookup, Datum.sameKey, rewrites.text, Reference.settled]
  | bytes b =>
    simp [Reference.toDatum, tagged, field?, Datum.lookup, Datum.sameKey, rewrites.text, unhex?_hexText, Reference.settled]
  | object place =>
    simp [Reference.toDatum, tagged, field?, Datum.lookup, Datum.sameKey, rewrites.text, rewrites.int, Reference.settled]
    rfl

/-! ### Captured variables and entries -/

def Upvalue.settled : Upvalue → Upvalue
  | value r => .value r.settled
  | join owner index => .join owner index

theorem plain_upvalue {u : Upvalue} (fits : fits u.toDatum = true) (n : Nat) : Plain (n + 2) u.toDatum := by
  cases u with
  | value r =>
    have inner : Snapshot.fits r.toDatum = true := by
      simpa [Upvalue.toDatum, Snapshot.fits, fitsEntries] using fits
    simp [Upvalue.toDatum, Plain, PlainMembers, keyText, plain_reference inner n]
  | join owner index =>
    have inner : isInt64 owner = true ∧ isInt64 index = true := by
      simpa [Upvalue.toDatum, Snapshot.fits, fitsEntries, fitsAll] using fits
    simp [Upvalue.toDatum, Plain, PlainMembers, PlainAll, keyText, isLong_of_isInt64 inner.1, isLong_of_isInt64 inner.2]

theorem ofDatum?_upvalue (rewrites : Rewrites f) {u : Upvalue} (fits : fits u.toDatum = true) :
    Upvalue.ofDatum? (f u.toDatum) = some u.settled := by
  have plain := plain_upvalue fits 0
  rw [Upvalue.ofDatum?, rewrites.field plain, rewrites.field plain]
  cases u with
  | value r =>
    have inner : Snapshot.fits r.toDatum = true := by
      simpa [Upvalue.toDatum, Snapshot.fits, fitsEntries] using fits
    simp [Upvalue.toDatum, field?, Datum.lookup, Datum.sameKey, ofDatum?_reference rewrites inner, Upvalue.settled]
  | join owner index =>
    simp [Upvalue.toDatum, field?, Datum.lookup, Datum.sameKey, rewrites.list, rewrites.int, Upvalue.settled]

def settledEntry (e : Reference × Reference) : Reference × Reference := (e.1.settled, e.2.settled)

theorem plain_entry {e : Reference × Reference} (fits : fits (entryDatum e) = true) (n : Nat) :
    Plain (n + 2) (entryDatum e) := by
  have inner : Snapshot.fits e.1.toDatum = true ∧ Snapshot.fits e.2.toDatum = true := by
    simpa [entryDatum, Snapshot.fits, fitsAll] using fits
  simp [entryDatum, Plain, PlainAll, plain_reference inner.1 n, plain_reference inner.2 n]

theorem ofDatum?_entry (rewrites : Rewrites f) {e : Reference × Reference} (fits : fits (entryDatum e) = true) :
    entryOfDatum? (f (entryDatum e)) = some (settledEntry e) := by
  have inner : Snapshot.fits e.1.toDatum = true ∧ Snapshot.fits e.2.toDatum = true := by
    simpa [entryDatum, Snapshot.fits, fitsAll] using fits
  simp [entryDatum, rewrites.list, entryOfDatum?, ofDatum?_reference rewrites inner.1,
    ofDatum?_reference rewrites inner.2, settledEntry]

/-! ### Records -/

theorem fitsAll_iff {ds : List Datum} : fitsAll ds = true ↔ ∀ d ∈ ds, fits d = true := by
  induction ds with
  | nil => simp [fitsAll]
  | cons d ds ih => simp [fitsAll, ih]

theorem plainAll_iff {n : Nat} {ds : List Datum} : PlainAll n ds ↔ ∀ d ∈ ds, Plain n d := by
  induction ds with
  | nil => simp [PlainAll]
  | cons d ds ih => simp [PlainAll, ih]

/-- A list of things is read back when each of them is. -/
theorem mapM_rewritten {α β : Type} {write : α → Datum} {read : Datum → Option β} {settle : α → β} {xs : List α}
    (h : ∀ x ∈ xs, read (f (write x)) = some (settle x)) :
    ((xs.map write).map f).mapM read = some (xs.map settle) := by
  induction xs with
  | nil => rfl
  | cons x xs ih =>
    have first := h x (List.mem_cons_self ..)
    have others := ih fun x mem => h x (List.mem_cons_of_mem _ mem)
    rw [List.map_cons, List.map_cons, List.mapM_cons, first, others]
    rfl

def Record.settled : Record → Record
  | table path entries metatable =>
    .table path (entries.map settledEntry) (metatable.map Reference.settled)
  | native path => .native path
  | function code upvalues => .function code (upvalues.map Upvalue.settled)

theorem fits_table {path : Option String} {entries : List (Reference × Reference)} {metatable : Option Reference}
    (h : fits (Record.table path entries metatable).toDatum = true) :
    (∀ e ∈ entries, fits (entryDatum e) = true) ∧ ∀ r ∈ metatable, fits r.toDatum = true := by
  have all : fitsAll (entries.map entryDatum) = true ∧ ∀ r ∈ metatable, fits r.toDatum = true := by
    cases path <;> cases metatable <;>
      simpa [Record.toDatum, Snapshot.fits, fitsEntries] using h
  refine ⟨fun e mem => fitsAll_iff.mp all.1 _ (List.mem_map_of_mem mem), all.2⟩

theorem fits_function {code : Bytes} {upvalues : List Upvalue}
    (h : fits (Record.function code upvalues).toDatum = true) : ∀ u ∈ upvalues, fits u.toDatum = true := by
  have all : fitsAll (upvalues.map Upvalue.toDatum) = true := by
    simpa [Record.toDatum, Snapshot.fits, fitsEntries] using h
  exact fun u mem => fitsAll_iff.mp all _ (List.mem_map_of_mem mem)

theorem plain_record {r : Record} (fits : fits r.toDatum = true) (n : Nat) : Plain (n + 4) r.toDatum := by
  cases r with
  | table path entries metatable =>
    obtain ⟨each, named⟩ := fits_table fits
    have entriesPlain : PlainAll (n + 2) (entries.map entryDatum) := by
      rw [plainAll_iff]
      intro d mem
      obtain ⟨e, place, rfl⟩ := List.mem_map.mp mem
      exact plain_entry (each e place) n
    cases metatable with
    | none => cases path <;> simp [Record.toDatum, Plain, PlainMembers, keyText, entriesPlain]
    | some m =>
      have := plain_reference (named m rfl) (n + 2)
      cases path <;> simp [Record.toDatum, Plain, PlainMembers, keyText, entriesPlain, this]
  | native path => simp [Record.toDatum, Plain, PlainMembers, keyText]
  | function code upvalues =>
    have upvaluesPlain : PlainAll (n + 2) (upvalues.map Upvalue.toDatum) := by
      rw [plainAll_iff]
      intro d mem
      obtain ⟨u, place, rfl⟩ := List.mem_map.mp mem
      exact plain_upvalue (fits_function fits u place) n
    simp [Record.toDatum, Plain, PlainMembers, keyText, upvaluesPlain]

theorem ofDatum?_record (rewrites : Rewrites f) {r : Record} (fits : fits r.toDatum = true) :
    Record.ofDatum? (f r.toDatum) = some r.settled := by
  have plain := plain_record fits 0
  rw [Record.ofDatum?, rewrites.field plain, rewrites.field plain, rewrites.field plain, rewrites.field plain,
    rewrites.field plain, rewrites.field plain]
  cases r with
  | table path entries metatable =>
    obtain ⟨each, named⟩ := fits_table fits
    have entriesRead : ((entries.map entryDatum).map f).mapM entryOfDatum? = some (entries.map settledEntry) :=
      mapM_rewritten fun e mem => ofDatum?_entry rewrites (each e mem)
    cases metatable with
    | none =>
      cases path <;>
        simp [-List.map_map, -List.mapM_map, Record.toDatum, field?, Datum.lookup, Datum.sameKey, rewrites.text,
          rewrites.list, entriesRead, Record.settled]
    | some m =>
      have metaRead := ofDatum?_reference rewrites (named m rfl)
      cases path <;>
        simp [-List.map_map, -List.mapM_map, Record.toDatum, field?, Datum.lookup, Datum.sameKey, rewrites.text,
          rewrites.list, entriesRead, metaRead, Record.settled]
  | native path => simp [Record.toDatum, field?, Datum.lookup, Datum.sameKey, rewrites.text, Record.settled]
  | function code upvalues =>
    have upvaluesRead :
        ((upvalues.map Upvalue.toDatum).map f).mapM Upvalue.ofDatum? = some (upvalues.map Upvalue.settled) :=
      mapM_rewritten fun u mem => ofDatum?_upvalue rewrites (fits_function fits u mem)
    simp [-List.map_map, -List.mapM_map, Record.toDatum, field?, Datum.lookup, Datum.sameKey, rewrites.text, rewrites.list,
      unhex?_hexText, upvaluesRead, Record.settled]

/-- The records of a listing are read back. -/
theorem ofDatum?_listing (rewrites : Rewrites f) {l : Listing} (fits : fitsAll (l.map Record.toDatum) = true) :
    ((l.map Record.toDatum).map f).mapM Record.ofDatum? = some (l.map Record.settled) :=
  mapM_rewritten fun _ mem => ofDatum?_record rewrites (fitsAll_iff.mp fits _ (List.mem_map_of_mem mem))

/-! ### Snapshots -/

mutual

theorem fits_sorted : ∀ d : Datum, fits (sorted d) = fits d
  | .list ds => by rw [sorted, Snapshot.fits, Snapshot.fits, fitsAll_sorted ds]
  | .mapping es => by
    have perm (es es' : List (Datum × Datum)) (same : es.Perm es') : fitsEntries es = fitsEntries es' := by
      have iff (es : List (Datum × Datum)) : fitsEntries es = true ↔ ∀ e ∈ es, fits e.2 = true := by
        induction es with
        | nil => simp [fitsEntries]
        | cons e es ih => simp [fitsEntries, ih]
      rw [Bool.eq_iff_iff, iff, iff]
      simp only [same.mem_iff]
    rw [sorted, Snapshot.fits, Snapshot.fits, inOrder, perm _ _ (List.mergeSort_perm ..), fitsEntries_sorted es]
  | .null => rfl
  | .bool _ => rfl
  | .int _ => rfl
  | .float _ => rfl
  | .text _ => rfl
  | .bytes _ => rfl
  | .tuple _ => rfl
  | .host _ => rfl
  | .live _ => rfl

theorem fitsAll_sorted : ∀ ds : List Datum, fitsAll (sortedAll ds) = fitsAll ds
  | [] => rfl
  | d :: ds => by rw [sortedAll, fitsAll, fitsAll, fits_sorted d, fitsAll_sorted ds]

theorem fitsEntries_sorted : ∀ es : List (Datum × Datum), fitsEntries (sortedMembers es) = fitsEntries es
  | [] => rfl
  | (k, d) :: es => by rw [sortedMembers, fitsEntries, fitsEntries, fits_sorted d, fitsEntries_sorted es]

end

theorem isMapping_record (r : Record) : Envelope.isMapping (sorted r.toDatum) = true := by
  cases r <;> rfl

theorem startsWith_mark (b : Bytes) : (mark ++ b).startsWith mark = true := by
  rw [Bytes.startsWith, Bytes.matchesAt, ByteArray.extract_append_eq_left (Nat.zero_add _),
    ByteArray.size_append, Bool.and_eq_true, decide_eq_true_eq]
  exact ⟨by omega, rfl⟩

theorem slice_mark (b : Bytes) : (mark ++ b).slice mark.size (mark ++ b).size = b :=
  ByteArray.extract_append_eq_right rfl ByteArray.size_append

theorem plain_envelope {l : Listing} (fits : fitsAll (l.map Record.toDatum) = true) :
    Plain limits.depth (Envelope.toDatum ⟨Vm.version, rootPlace, l.map Record.toDatum⟩) := by
  have heap : PlainAll (194 + 4) (l.map Record.toDatum) := by
    rw [plainAll_iff]
    intro d mem
    obtain ⟨r, _, rfl⟩ := List.mem_map.mp mem
    exact plain_record (fitsAll_iff.mp fits _ mem) 194
  have root : isLong rootPlace = false := isLong_of_isInt64 rfl
  have version : isLong formatVersion = false := isLong_of_isInt64 rfl
  change Plain (198 + 1 + 1) (.mapping _)
  simp [Plain, PlainMembers, keyText, heap, root, version]

/-- The envelope of a listing is read back from the bytes behind the mark. -/
theorem readEnvelope_write {l : Listing} (fits : fitsAll (l.map Record.toDatum) = true) :
    ∃ s, write? ⟨Vm.version, rootPlace, l.map Record.toDatum⟩ = some (mark ++ Bytes.ofString s) ∧
      readEnvelope (Bytes.ofString s) = .ok ⟨Vm.version, rootPlace, sortedAll (l.map Record.toDatum)⟩ := by
  have plain := plain_envelope fits
  obtain ⟨s, written, read⟩ := read_write false limits plain
  refine ⟨s, by rw [write?, written]; rfl, ?_⟩
  rw [readEnvelope, Bytes.toText?_ofString]
  dsimp only
  rw [read]
  dsimp only
  change Plain (199 + 1) (.mapping _) at plain
  rw [Plain] at plain
  have found := lookup_sorted plain.1 plain.2
  rw [Envelope.toDatum, sorted, Envelope.ofDatum]
  simp only [Envelope.checkOptional, found]
  have mappings : (sortedAll (l.map Record.toDatum)).countP (fun d => !Envelope.isMapping d) = 0 := by
    rw [List.countP_eq_zero, sortedAll_eq_map]
    intro d mem
    obtain ⟨d', written, rfl⟩ := List.mem_map.mp mem
    obtain ⟨r, _, rfl⟩ := List.mem_map.mp written
    rw [isMapping_record]
    decide
  simp [Datum.lookup, Datum.sameKey, sorted, Envelope.records, mappings, Envelope.text?, Datum.asText?,
    Envelope.whole?, Whole.ofDatum, Envelope.isFormat, Envelope.isVersion, Datum.numeric?]

end Snapshot

end LuaCapsule
