import LuaCapsule.Proofs.DecodedShape
import LuaCapsule.Proofs.Passage

/-! Tables there and back. What a table is decoded to becomes a table again, which has the keys and values of
the first one at every level, whatever the order of its entries, but for two keys that are one in a mapping:
a truth value and the number that it counts as. -/

namespace LuaCapsule.Codec

open Lua Datum

/-! ### Keys that are one in a mapping -/

/-- The integer that a truth value counts as. -/
def bit (b : Bool) : Int64 := if b then 1 else 0

variable {h g : Heap} {first t : Nat} {limit : Int} {v w : Value} {vm : Vm} {k k' : Key} {d d' : Datum}

theorem toInt_bit (b : Bool) : (bit b).toInt = if b then 1 else 0 := by
  cases b
  · exact Int64.toInt_zero
  · exact Int64.toInt_one

/-- A double that is a key is no integer of 64 bits. -/
theorem toInt?_ne_of_isKey {x : Binary64} (own : x.isKey = true) (i : Int64) : x.toInt? ≠ some i.toInt := by
  intro is
  have number := Binary64.toInt64?_eq_some.mpr (Binary64.toInt?_eq_some.mp is)
  simp only [Binary64.isKey, Bool.and_eq_true, Option.isNone_iff_eq_none] at own
  cases own.2.symm.trans number

/-- The number that a double is in a mapping. -/
def floatNumber (x : Binary64) : Int ⊕ Binary64 :=
  match x.toInt? with
  | some i => .inl i
  | none => .inr x

/-- The number that a key is in a mapping. -/
def keyNumber : Key → Option (Int ⊕ Binary64)
  | .bool b => some (.inl (bit b).toInt)
  | .int i => some (.inl i.toInt)
  | .float x _ => some (floatNumber x)
  | _ => none

theorem numeric?_key (is : scalar? k.value = some d) : numeric? d = keyNumber k := by
  cases k with
  | bool b =>
    cases is
    exact congrArg (fun i => some (Sum.inl i)) (toInt_bit b).symm
  | str b =>
    obtain ⟨s, _, rfl⟩ := Option.map_eq_some_iff.mp is
    rfl
  | ref => cases is
  | _ =>
    cases is
    rfl

theorem sameNumber_float_int {x : Binary64} (own : x.isKey = true) (i : Int64) :
    sameNumber (some (floatNumber x)) (some (.inl i.toInt)) = false := by
  rw [floatNumber]
  cases is : x.toInt? with
  | none => rfl
  | some j =>
    refine beq_false_of_ne fun same => toInt?_ne_of_isKey own i ?_
    rw [is, same]

theorem eq_of_sameNumber_float {x y : Binary64} (own : x.isKey = true)
    (same : sameNumber (some (floatNumber x)) (some (floatNumber y)) = true) : x = y := by
  rw [floatNumber, floatNumber] at same
  cases left : x.toInt? with
  | none =>
    cases right : y.toInt? with
    | none =>
      rw [left, right] at same
      exact congrArg Binary64.mk (eq_of_beq same)
    | some j =>
      rw [left, right] at same
      cases same
  | some i =>
    cases right : y.toInt? with
    | none =>
      rw [left, right] at same
      cases same
    | some j =>
      rw [left, right] at same
      obtain rfl : i = j := eq_of_beq same
      exact Binary64.eq_of_units own ((Binary64.toInt?_eq_some.mp left).2.trans (Binary64.toInt?_eq_some.mp right).2.symm)

theorem bit_inj {b b' : Bool} (same : (bit b).toInt = (bit b').toInt) : b = b' := by
  rw [toInt_bit, toInt_bit] at same
  cases b <;> cases b' <;> first | rfl | cases same

/-- Two keys are one in a mapping only if one of them is a truth value and the other one what it counts as. -/
theorem eq_or_of_sameKey (is : scalar? k.value = some d) (is' : scalar? k'.value = some d') (same : sameKey d d' = true) :
    k = k' ∨ ∃ b, k = .bool b ∧ k' = .int (bit b) ∨ k = .int (bit b) ∧ k' = .bool b := by
  have left := numeric?_key is
  have right := numeric?_key is'
  have numbers (number : (numeric? d).isSome = true) : sameNumber (numeric? d) (numeric? d') = true :=
    sameKey_of_number (.inl number) ▸ same
  cases k with
  | ref => cases is
  | str b =>
    obtain ⟨s, text, rfl⟩ := Option.map_eq_some_iff.mp is
    obtain rfl := eq_of_sameKey_text same
    cases k' with
    | str b' =>
      obtain ⟨s', text', same⟩ := Option.map_eq_some_iff.mp is'
      obtain rfl := Datum.text.inj same
      rw [← Bytes.ofString_toText? text, ← Bytes.ofString_toText? text']
      exact .inl rfl
    | ref => cases is'
    | _ => cases is'
  | bool b =>
    have numbers := numbers (by rw [left]; rfl)
    rw [left, right] at numbers
    cases k' with
    | bool b' => exact .inl (congrArg Key.bool (bit_inj (eq_of_beq numbers)))
    | int j => exact .inr ⟨b, .inl ⟨rfl, congrArg Key.int (Int64.toInt_inj.mp (eq_of_beq numbers)).symm⟩⟩
    | float y own =>
      rw [sameNumber_comm] at numbers
      cases (sameNumber_float_int own (bit b)).symm.trans numbers
    | _ => cases (isSome_of_sameNumber numbers).2
  | int i =>
    have numbers := numbers (by rw [left]; rfl)
    rw [left, right] at numbers
    cases k' with
    | bool b' => exact .inr ⟨b', .inr ⟨congrArg Key.int (Int64.toInt_inj.mp (eq_of_beq numbers)), rfl⟩⟩
    | int j => exact .inl (congrArg Key.int (Int64.toInt_inj.mp (eq_of_beq numbers)))
    | float y own =>
      rw [sameNumber_comm] at numbers
      cases (sameNumber_float_int own i).symm.trans numbers
    | _ => cases (isSome_of_sameNumber numbers).2
  | float x own =>
    have numbers := numbers (by rw [left]; rfl)
    rw [left, right] at numbers
    cases k' with
    | bool b' => cases (sameNumber_float_int own (bit b')).symm.trans numbers
    | int j => cases (sameNumber_float_int own j).symm.trans numbers
    | float y own' =>
      obtain rfl := eq_of_sameNumber_float own numbers
      exact .inl rfl
    | _ => cases (isSome_of_sameNumber numbers).2

/-! ### Values that have a form in the language -/

theorem scalar_of_scalar? (is : scalar? v = some d) : scalar d = .ok v := by
  cases v with
  | str b =>
    obtain ⟨s, text, rfl⟩ := Option.map_eq_some_iff.mp is
    exact congrArg (fun b => Except.ok (Value.str b)) (Bytes.ofString_toText? text)
  | int i =>
    cases is
    rw [scalar, if_pos (Binary64.isInt64_toInt i), Int64.ofInt_toInt]
  | ref => cases is
  | _ =>
    cases is
    rfl

/-- What a scalar was decoded to becomes the scalar again. -/
theorem eq_of_encoded_scalar (is : scalar? v = some d) (encoded : Encoded g first d w) : w = v := by
  have back := scalar_of_scalar? is
  cases d with
  | list => cases back
  | tuple => cases back
  | mapping => cases back
  | _ =>
    change scalar _ = .ok w at encoded
    exact Except.ok.inj (encoded.symm.trans back)

theorem key?_keyDatum (is : scalar? k.value = some d) : key? (keyDatum k) = some k := by
  have back := scalar_of_scalar? is
  have named : keyFault? d = none := by
    cases k with
    | str b =>
      obtain ⟨s, _, rfl⟩ := Option.map_eq_some_iff.mp is
      rfl
    | ref => cases is
    | _ =>
      cases is
      rfl
  rw [keyDatum, is, Option.getD_some, key?, named, back]
  exact Key.ofValue?_value k

/-- Only nil comes out as null. -/
theorem Decodes.isNull_eq_false (decodes : Decodes h v d) (some : v ≠ .nil) : d.isNull = false := by
  cases decodes with
  | list => rfl
  | mapping => rfl
  | scalar is =>
    cases v with
    | nil => exact absurd rfl some
    | str b =>
      obtain ⟨s, _, rfl⟩ := Option.map_eq_some_iff.mp is
      rfl
    | ref => cases is
    | _ =>
      cases is
      rfl

theorem Encoded.ne_nil (encoded : Encoded g first d w) (some : d.isNull = false) : w ≠ .nil := by
  rintro rfl
  cases d with
  | list =>
    obtain ⟨_, _, is, _⟩ := encoded
    cases is
  | tuple =>
    obtain ⟨_, _, is, _⟩ := encoded
    cases is
  | mapping =>
    obtain ⟨_, _, is, _⟩ := encoded
    cases is
  | int i =>
    have entered : (if isInt64 i then .ok (.int (Int64.ofInt i)) else .error .overflow : Except Fault Value) = .ok .nil := encoded
    split at entered <;> cases entered
  | null => cases some
  | _ => cases encoded

/-! ### Mappings that went in -/

theorem EncodedFields.forall₂ {es : List (Datum × Datum)} {kvs : List (Key × Value)} (encoded : EncodedFields g first es kvs) :
    List.Forall₂ (fun e kv => key? e.1 = some kv.1 ∧ Encoded g first e.2 kv.2) es kvs := by
  induction es generalizing kvs with
  | nil =>
    obtain rfl := encoded
    exact .nil
  | cons e es ih =>
    obtain ⟨key, v, rest, rfl, known, one, others⟩ := encoded
    exact .cons ⟨known, one⟩ (ih others)

theorem EncodedAll.forall₂ {ds : List Datum} {vs : List Value} (encoded : EncodedAll g first ds vs) :
    List.Forall₂ (Encoded g first) ds vs := by
  induction ds generalizing vs with
  | nil =>
    obtain rfl := encoded
    exact .nil
  | cons d ds ih =>
    obtain ⟨v, rest, rfl, one, others⟩ := encoded
    exact .cons one (ih others)

/-- Keys that came out go in as the keys that they were. -/
theorem keys_of_encoded {ps : List (Key × Datum)} {kvs : List (Key × Value)}
    (keys : ∀ p ∈ ps, ∃ d, scalar? p.1.value = some d)
    (encoded : EncodedFields g first (ps.map fun p => (keyDatum p.1, p.2)) kvs) :
    List.Forall₂ (fun p kv => p.1 = kv.1 ∧ Encoded g first p.2 kv.2) ps kvs := by
  induction ps generalizing kvs with
  | nil =>
    obtain rfl := encoded
    exact .nil
  | cons p ps ih =>
    obtain ⟨⟨d, is⟩, others⟩ := List.forall_mem_cons.mp keys
    obtain ⟨key, v, rest, rfl, known, one, encoded⟩ := encoded
    exact .cons ⟨Option.some.inj ((key?_keyDatum is).symm.trans known), one⟩ (ih others encoded)

/-- Entries of different keys are the entries of the table that they became. -/
theorem entries_of_encoded {ps : List (Key × Datum)} (nodup : (ps.map Prod.fst).Nodup)
    (keys : ∀ p ∈ ps, ∃ d, scalar? p.1.value = some d)
    (encoded : Encoded g first (.mapping (ps.map fun p => (keyDatum p.1, p.2))) w) :
    ∃ u, w = .table u ∧ (g.table u).metatable = none ∧ (∀ p ∈ ps, Encoded g (u + 1) p.2 ((g.table u).get p.1)) ∧
      ∀ k, (g.table u).get k ≠ .nil → k ∈ ps.map Prod.fst := by
  obtain ⟨u, kvs, rfl, each, stands⟩ := encoded
  have each := keys_of_encoded keys each
  have same : ps.map Prod.fst = kvs.map Prod.fst := Snapshot.map_eq_of_forall₂ each fun _ _ both => both.1
  refine ⟨u, rfl, stands.metatable, fun p mem => ?_, fun k there => ?_⟩
  · obtain ⟨kv, mem', key, one⟩ := (Snapshot.exists_beside each).1 p mem
    rw [stands.get, key, lastAt_of_mem (same ▸ nodup) mem']
    exact one
  · rw [stands.get] at there
    exact same ▸ List.mem_map_of_mem (mem_of_lastAt there)

/-! ### Lists that went in -/

theorem add_le_of_ascending {is : List Int64} (ascending : is.Pairwise fun i j => i.toInt < j.toInt) {j m : Nat}
    (le : j ≤ m) (first : j < is.length) (bound : m < is.length) : is[j].toInt + (m - j : Nat) ≤ is[m].toInt := by
  induction m with
  | zero =>
    obtain rfl : j = 0 := by omega
    simp
  | succ m ih =>
    rcases Nat.lt_or_eq_of_le le with less | rfl
    · have earlier := ih (by omega) (by omega)
      have next := List.pairwise_iff_getElem.mp ascending m (m + 1) (by omega) bound (Nat.lt_succ_self m)
      omega
    · simp

/-- The keys of a table without the mark of lists that came out as a list are the first integers. -/
theorem ints_eq_positions {is : List Int64} (listed : Listed h t) (bare : h.isMarked t = false)
    (ascending : is.Pairwise fun i j => i.toInt < j.toInt) (all : Lists (is.map .int) (h.table t)) :
    isInt64 is.length = true ∧ is.map Key.int = positions is.length := by
  obtain ⟨n, some, range⟩ := listed.resolve_right fun marked => by
    rw [Heap.isMarked, marked.1, beq_self_eq_true] at bare
    cases bare
  have inside := (isRange_eq_true.mp ((isRange_iff all.1).mpr ⟨n, some, fun k => (all.2 k).trans (range k)⟩)).2
  have within {j : Nat} (bound : j < is.length) : 1 ≤ is[j].toInt ∧ is[j].toInt ≤ is.length := by
    obtain ⟨i, same, least, most⟩ := inside _ (List.mem_map_of_mem (List.getElem_mem bound))
    rw [Key.int.inj same]
    exact ⟨least, by simpa using most⟩
  have place {j : Nat} (bound : j < is.length) : is[j].toInt = 1 + j := by
    have low := add_le_of_ascending ascending (Nat.zero_le j) (by omega) bound
    have high := add_le_of_ascending ascending (Nat.le_sub_one_of_lt bound) bound (by omega)
    have first := within (j := 0) (by omega)
    have last := within (j := is.length - 1) (by omega)
    omega
  constructor
  · cases is with
    | nil => rfl
    | cons i is =>
      have last := place (j := is.length) (Nat.lt_succ_self _)
      have count : (((i :: is).length : Nat) : Int) = 1 + is.length := by simp [Int.add_comm]
      rw [count, ← last]
      exact Binary64.isInt64_toInt _
  · refine List.ext_getElem (by simp [positions]) fun j bound _ => ?_
    simp only [positions, List.getElem_map, List.getElem_range, ← place (by simpa using bound), Int64.ofInt_toInt]

/-- Nothing stands under other keys of a table of list items. -/
theorem mem_positions_of_itemAt {vs : List Value} (there : itemAt vs k ≠ .nil) : k ∈ positions vs.length := by
  unfold itemAt at there
  split at there
  next i =>
    split at there
    next positive =>
      have bound : i.toInt.toNat - 1 < vs.length := by
        by_contra beyond
        rw [List.getD_eq_getElem?_getD, List.getElem?_eq_none (Nat.le_of_not_lt beyond)] at there
        exact there rfl
      exact mem_positions positive (by omega)
    next => exact absurd rfl there
  next => exact absurd rfl there

/-- The items of a list are what stands under the first integers in the table that they became. -/
theorem items_of_encoded {is : List Int64} {ds : List Datum} (fits : isInt64 is.length = true)
    (first' : is.map Key.int = positions is.length) (size : ds.length = is.length) (encoded : Encoded g first (.list ds) w) :
    ∃ u, w = .table u ∧ g.isMarked u = true ∧
      (∀ (j : Nat) i d, is[j]? = some i → ds[j]? = some d → Encoded g (u + 1) d ((g.table u).get (.int i))) ∧
      ∀ k, (g.table u).get k ≠ .nil → k ∈ is.map Key.int := by
  obtain ⟨u, vs, rfl, each, stands⟩ := encoded
  have each := each.forall₂
  have size' : is.length = vs.length := size.symm.trans each.length_eq
  refine ⟨u, rfl, ?_, fun j i d here there => ?_, fun k there => ?_⟩
  · rw [Heap.isMarked, stands.metatable]
    rfl
  · obtain ⟨bound, rfl⟩ := List.getElem?_eq_some_iff.mp here
    obtain ⟨bound', rfl⟩ := List.getElem?_eq_some_iff.mp there
    have place : Key.int is[j] = .int (Int64.ofInt (1 + j)) := by
      have at' := congrArg (·[j]?) first'
      simpa [positions, bound] using at'
    have inside : j < vs.length := size' ▸ bound
    have small : isInt64 vs.length = true := size' ▸ fits
    have item : itemAt vs (.int (Int64.ofInt (1 + j))) = vs[j] := by
      have at' := congrArg (·[j]?) (map_itemAt small)
      simpa [inside] using at'
    rw [stands.get, place, item]
    exact (List.forall₂_iff_get.mp each).2 j bound' inside
  · rw [stands.get] at there
    rw [first', size']
    exact mem_positions_of_itemAt there

/-! ### Copies -/

/-- Is something so of all tables that are met? -/
def Throughout (h : Heap) (P : Nat → Prop) (v : Value) : Prop := ∀ t n, Met h v (.table t) n → P t

theorem Throughout.here {P : Nat → Prop} (all : Throughout h P (.table t)) : P t := all t 0 (.here _)

theorem Throughout.entry {P : Nat → Prop} (all : Throughout h P (.table t)) (there : (h.table t).get k ≠ .nil) :
    Throughout h P ((h.table t).get k) :=
  fun u n met => all u (n + 1) (.inside there met)

theorem throughout_table {P : Nat → Prop} (here : P t)
    (entries : ∀ k, (h.table t).get k ≠ .nil → Throughout h P ((h.table t).get k)) : Throughout h P (.table t) := by
  intro u n met
  cases met with
  | here => exact here
  | inside there met => exact entries _ there u _ met

theorem throughout_scalar {P : Nat → Prop} (is : scalar? v = some d) : Throughout h P v := by
  intro u n met
  cases met with
  | here => cases is
  | inside => cases is

/-- A table without the mark of lists. -/
def Bare (h : Heap) (t : Nat) : Prop := h.isMarked t = false

/-- A table that has no truth value as a key together with the integer that it counts as. -/
def Apart (h : Heap) (t : Nat) : Prop := ∀ b, (h.table t).get (.bool b) = .nil ∨ (h.table t).get (.int (bit b)) = .nil

/-- A value has the same keys and scalars as another one at every level. -/
inductive Copy (h g : Heap) : Value → Value → Prop
  | scalar {v : Value} {d : Datum} (is : scalar? v = some d) : Copy h g v v
  | table {t u : Nat} (keys : ∀ k, (g.table u).get k ≠ .nil ↔ (h.table t).get k ≠ .nil)
    (values : ∀ k, (h.table t).get k ≠ .nil → Copy h g ((h.table t).get k) ((g.table u).get k)) :
    Copy h g (.table t) (.table u)

/-- A copy in which the same tables are lists. -/
inductive Twin (h g : Heap) : Value → Value → Prop
  | scalar {v : Value} {d : Datum} (is : scalar? v = some d) : Twin h g v v
  | table {t u : Nat} (keys : ∀ k, (g.table u).get k ≠ .nil ↔ (h.table t).get k ≠ .nil)
    (listed : Listed g u ↔ Listed h t)
    (values : ∀ k, (h.table t).get k ≠ .nil → Twin h g ((h.table t).get k) ((g.table u).get k)) :
    Twin h g (.table t) (.table u)

theorem Twin.copy (twin : Twin h g v w) : Copy h g v w := by
  induction twin with
  | scalar is => exact .scalar is
  | table keys _ _ ih => exact .table keys ih

/-- Keys that are kept apart stay different in a mapping. -/
theorem distinct_of_apart {ps : List (Key × Datum)} (apart : Apart h t) (all : Lists (ps.map Prod.fst) (h.table t))
    (keys : ∀ p ∈ ps, ∃ d, scalar? p.1.value = some d) : Distinct (ps.map fun p => (keyDatum p.1, p.2)) := by
  refine List.pairwise_map.mpr ((List.pairwise_map.mp all.1).imp_of_mem fun {p q} mem mem' other => ?_)
  obtain ⟨d, is⟩ := keys p mem
  obtain ⟨d', is'⟩ := keys q mem'
  have there {p : Key × Datum} (mem : p ∈ ps) : (h.table t).get p.1 ≠ .nil := (all.2 p.1).mp (List.mem_map_of_mem mem)
  rw [keyDatum, is, keyDatum, is', Option.getD_some, Option.getD_some, Bool.eq_false_iff]
  intro same
  rcases eq_or_of_sameKey is is' same with equal | ⟨b, ⟨bool, int⟩ | ⟨int, bool⟩⟩
  · exact other equal
  · exact (apart b).elim (bool ▸ there mem) (int ▸ there mem')
  · exact (apart b).elim (bool ▸ there mem') (int ▸ there mem)

/-- A table that came out as a mapping, and the one that the mapping became. -/
theorem fields_of_encoded {ps : List (Key × Datum)} (apart : Apart h t) (all : Lists (ps.map Prod.fst) (h.table t))
    (keys : ∀ p ∈ ps, ∃ d, scalar? p.1.value = some d) (values : ∀ p ∈ ps, Decodes h ((h.table t).get p.1) p.2)
    (encoded : Encoded g first (.ofPairs (ps.map fun p => (keyDatum p.1, p.2))) w) :
    ∃ u, w = .table u ∧ (g.table u).metatable = none ∧ (∀ p ∈ ps, Encoded g (u + 1) p.2 ((g.table u).get p.1)) ∧
      ∀ k, (g.table u).get k ≠ .nil ↔ (h.table t).get k ≠ .nil := by
  rw [ofPairs_of_distinct (distinct_of_apart apart all keys)] at encoded
  obtain ⟨u, rfl, bare, each, only⟩ := entries_of_encoded all.1 keys encoded
  refine ⟨u, rfl, bare, each, fun k => ⟨fun there => (all.2 k).mp (only k there), fun there => ?_⟩⟩
  obtain ⟨p, mem, rfl⟩ := List.mem_map.mp ((all.2 k).mpr there)
  exact (each p mem).ne_nil ((values p mem).isNull_eq_false there)

/-- A table that came out as a list, and the one that the list became. -/
theorem list_of_encoded {is : List Int64} {ds : List Datum} (listed : Listed h t) (bare : Bare h t)
    (ascending : is.Pairwise fun i j => i.toInt < j.toInt) (all : Lists (is.map .int) (h.table t))
    (size : ds.length = is.length)
    (values : ∀ (j : Nat) i d, is[j]? = some i → ds[j]? = some d → Decodes h ((h.table t).get (.int i)) d)
    (encoded : Encoded g first (.list ds) w) :
    ∃ u, w = .table u ∧ g.isMarked u = true ∧
      (∀ (j : Nat) i d, is[j]? = some i → ds[j]? = some d → Encoded g (u + 1) d ((g.table u).get (.int i))) ∧
      ∀ k, (g.table u).get k ≠ .nil ↔ (h.table t).get k ≠ .nil := by
  obtain ⟨fits, first'⟩ := ints_eq_positions listed bare ascending all
  obtain ⟨u, rfl, marked, each, only⟩ := items_of_encoded fits first' size encoded
  refine ⟨u, rfl, marked, each, fun k => ⟨fun there => (all.2 k).mp (only k there), fun there => ?_⟩⟩
  obtain ⟨i, mem, rfl⟩ := List.mem_map.mp ((all.2 k).mpr there)
  obtain ⟨j, here⟩ := List.getElem?_of_mem mem
  have found := List.getElem?_eq_getElem (size ▸ (List.getElem?_eq_some_iff.mp here).1 : j < ds.length)
  exact (each j i _ here found).ne_nil ((values j i _ here found).isNull_eq_false there)

/-- What came out becomes a twin of what it came from as long as no keys are one in a mapping. -/
theorem twin_of_encoded (decodes : Decodes h v d) (bare : Throughout h (Bare h) v) (apart : Throughout h (Apart h) v)
    (encoded : Encoded g first d w) : Twin h g v w := by
  induction decodes generalizing w first with
  | scalar is =>
    obtain rfl := eq_of_encoded_scalar is encoded
    exact .scalar is
  | list listed ascending all size values ih =>
    obtain ⟨u, rfl, marked, each, same⟩ := list_of_encoded listed bare.here ascending all size values encoded
    have ints : Listed g u := .inr ⟨beq_iff_eq.mp marked, fun k there => listed.keys ((same k).mp there)⟩
    refine .table same (iff_of_true ints listed) fun k there => ?_
    obtain ⟨i, mem, rfl⟩ := List.mem_map.mp ((all.2 k).mpr there)
    obtain ⟨j, here⟩ := List.getElem?_of_mem mem
    have found := List.getElem?_eq_getElem (size ▸ (List.getElem?_eq_some_iff.mp here).1 : j < _)
    exact ih j i _ here found (bare.entry there) (apart.entry there) (each j i _ here found)
  | @mapping t ps unlisted all keys values ih =>
    obtain ⟨u, rfl, none, each, same⟩ := fields_of_encoded apart.here all keys values encoded
    have unlisted' : ¬Listed g u := by
      rintro (⟨n, some, range⟩ | ⟨marked, _⟩)
      · exact unlisted (.inl ⟨n, some, fun k => (same k).symm.trans (range k)⟩)
      · cases none.symm.trans marked
    refine .table same (iff_of_false unlisted' unlisted) fun k there => ?_
    obtain ⟨p, mem, rfl⟩ := List.mem_map.mp ((all.2 k).mpr there)
    exact ih p mem (bare.entry there) (apart.entry there) (each p mem)

/-! ### What a copy tells -/

theorem scalar_of_key? (known : key? d = some k) : ∃ v, scalar d = .ok v ∧ Key.ofValue? v = some k := by
  unfold key? at known
  split at known
  next v _ is => exact ⟨v, is, known⟩
  next => cases known

theorem ofValue?_float {x : Binary64} (known : Key.ofValue? (.float x) = some k) :
    (∃ own, k = .float x own) ∨ ∃ i, k = .int i ∧ x.toInt? = some i.toInt := by
  rw [Key.ofValue?] at known
  split at known
  next own => exact .inl ⟨own, (Option.some.inj known).symm⟩
  next =>
    obtain ⟨i, is, same⟩ := Option.map_eq_some_iff.mp known
    exact .inr ⟨i, same.symm, Binary64.toInt?_eq_some.mpr (Binary64.toInt64?_eq_some.mp is)⟩

theorem numeric?_of_key?_int {i : Int64} (known : key? d = some (.int i)) : numeric? d = some (.inl i.toInt) := by
  obtain ⟨v, entered, known⟩ := scalar_of_key? known
  cases d with
  | int j =>
    obtain ⟨fits, rfl⟩ := int_of_scalar entered
    obtain rfl := Key.int.inj (Option.some.inj known)
    exact congrArg (fun j => some (Sum.inl j)) (Binary64.toInt_ofInt_of_isInt64 fits).symm
  | float x =>
    cases entered
    rcases ofValue?_float known with ⟨_, is⟩ | ⟨j, is, number⟩
    · cases is
    · obtain rfl := Key.int.inj is
      rw [numeric?, number]
  | null | bool | text | bytes =>
    cases entered
    cases known
  | _ => cases entered

theorem eq_bool_of_key? {b : Bool} (known : key? d = some (.bool b)) : d = .bool b := by
  obtain ⟨v, entered, known⟩ := scalar_of_key? known
  cases d with
  | bool b' =>
    cases entered
    exact congrArg Datum.bool (Key.bool.inj (Option.some.inj known))
  | int j =>
    obtain ⟨_, rfl⟩ := int_of_scalar entered
    cases known
  | float x =>
    cases entered
    rcases ofValue?_float known with ⟨_, is⟩ | ⟨_, is, _⟩ <;> cases is
  | null | text | bytes =>
    cases entered
    cases known
  | _ => cases entered

/-- No table that a mapping became has two keys that are one in a mapping. -/
theorem apart_of_encoded {es : List (Datum × Datum)} {kvs : List (Key × Value)} (distinct : Distinct es)
    (encoded : EncodedFields g first es kvs) (b : Bool) : lastAt kvs (.bool b) = .nil ∨ lastAt kvs (.int (bit b)) = .nil := by
  by_contra both
  obtain ⟨bool, int⟩ := not_or.mp both
  have beside {k : Key} (there : lastAt kvs k ≠ .nil) : ∃ e ∈ es, key? e.1 = some k := by
    obtain ⟨e, mem, known, _⟩ := (Snapshot.exists_beside encoded.forall₂).2 _ (mem_of_lastAt there)
    exact ⟨e, mem, known⟩
  obtain ⟨e, mem, known⟩ := beside bool
  obtain ⟨e', mem', known'⟩ := beside int
  have same : sameKey e.1 e'.1 = true := by
    rw [sameKey_of_number (.inr (by rw [numeric?_of_key?_int known']; rfl)), numeric?_of_key?_int known',
      eq_bool_of_key? known, numeric?_key (k := .bool b) rfl]
    exact beq_self_eq_true _
  have other : e ≠ e' := by
    rintro rfl
    cases known.symm.trans known'
  cases (distinct.sameKey_eq_false mem mem' other).symm.trans same

theorem apart_of_copy (decodes : Decodes h v d) (bare : Throughout h (Bare h) v) (encoded : Encoded g first d w)
    (copy : Copy h g v w) : Throughout h (Apart h) v := by
  induction decodes generalizing w first with
  | scalar is => exact throughout_scalar is
  | list listed ascending all size values ih =>
    obtain ⟨u, rfl, _, each, _⟩ := list_of_encoded listed bare.here ascending all size values encoded
    cases copy with
    | scalar is => cases is
    | table keys copies =>
      refine throughout_table (fun b => ?_) fun k there => ?_
      · by_contra both
        obtain ⟨i, is⟩ := listed.keys (not_or.mp both).1
        cases is
      · obtain ⟨i, mem, rfl⟩ := List.mem_map.mp ((all.2 k).mpr there)
        obtain ⟨j, here⟩ := List.getElem?_of_mem mem
        have found := List.getElem?_eq_getElem (size ▸ (List.getElem?_eq_some_iff.mp here).1 : j < _)
        exact ih j i _ here found (bare.entry there) (each j i _ here found) (copies _ there)
  | @mapping t ps unlisted all keys values ih =>
    have apart : Apart h t := by
      obtain ⟨u, kvs, rfl, fields, stands⟩ := encoded
      cases copy with
      | scalar is => cases is
      | table same _ =>
        have gone {k : Key} (nil : lastAt kvs k = .nil) : (h.table t).get k = .nil := by
          by_contra there
          exact (same k).mpr there ((stands.get k).trans nil)
        exact fun b => (apart_of_encoded (distinct_insertAll .nil _) fields b).imp gone gone
    obtain ⟨u, rfl, _, each, _⟩ := fields_of_encoded apart all keys values encoded
    cases copy with
    | scalar is => cases is
    | table _ copies =>
      refine throughout_table apart fun k there => ?_
      obtain ⟨p, mem, rfl⟩ := List.mem_map.mp ((all.2 k).mpr there)
      exact ih p mem (bare.entry there) (each p mem) (copies _ there)

/-! ### What can be encoded -/

theorem areEncodable_iff {ds : List Datum} : areEncodable ds = true ↔ ∀ d ∈ ds, isEncodable d = true := by
  induction ds with
  | nil => simp [areEncodable]
  | cons d ds ih => rw [areEncodable, Bool.and_eq_true, ih, List.forall_mem_cons]

theorem areFields_iff {es : List (Datum × Datum)} :
    areFields es = true ↔ ∀ e ∈ es, isEncodable e.2 = true ∧ (key? e.1).isSome = true := by
  induction es with
  | nil => simp [areFields]
  | cons e es ih => rw [areFields, Bool.and_eq_true, Bool.and_eq_true, ih, List.forall_mem_cons]

theorem isEncodable_of_scalar? (is : scalar? v = some d) : isEncodable d = true := by
  have entered := scalar_of_scalar? is
  cases d with
  | list => cases entered
  | tuple => cases entered
  | mapping => cases entered
  | _ => exact congrArg Except.toBool entered

/-- What comes out of tables without the mark of lists can go in. -/
theorem Decodes.isEncodable (decodes : Decodes h v d) (bare : Throughout h (Bare h) v) : isEncodable d = true := by
  induction decodes with
  | scalar is => exact isEncodable_of_scalar? is
  | @list t is ds listed ascending all size values ih =>
    have fits := (ints_eq_positions listed bare.here ascending all).1
    rw [Codec.isEncodable, Bool.and_eq_true, areEncodable_iff, size]
    refine ⟨fun d mem => ?_, fits⟩
    obtain ⟨j, found⟩ := List.getElem?_of_mem mem
    have here := List.getElem?_eq_getElem (size ▸ (List.getElem?_eq_some_iff.mp found).1 : j < is.length)
    have there := (all.2 _).mp (List.mem_map_of_mem (List.mem_of_getElem? here))
    exact ih j _ d here found (bare.entry there)
  | @mapping t ps unlisted all keys values ih =>
    rw [ofPairs, Codec.isEncodable, areFields_iff]
    intro e mem
    constructor
    · obtain ⟨e', mem', same⟩ := value_of_mem_insertAll mem
      obtain ⟨p, inside, rfl⟩ := List.mem_map.mp mem'
      have there := (all.2 p.1).mp (List.mem_map_of_mem inside)
      exact same ▸ ih p inside (bare.entry there)
    · obtain ⟨e', mem', same⟩ := key_of_mem_insertAll mem
      obtain ⟨p, inside, rfl⟩ := List.mem_map.mp mem'
      obtain ⟨d, is⟩ := keys p inside
      rw [← same, key?_keyDatum is]
      rfl

/-! ### Twins are decoded alike -/

theorem agrees_scalar (is : scalar? v = some d) : Agrees d d := by
  have entered := scalar_of_scalar? is
  cases d with
  | list => cases entered
  | tuple => cases entered
  | mapping => cases entered
  | _ => rfl

theorem agree_of_forall₂ {ds ds' : List Datum} (each : List.Forall₂ Agrees ds ds') : Agree ds ds' := by
  induction each with
  | nil => rfl
  | cons one _ ih => exact ⟨_, _, rfl, one, ih⟩

theorem fieldsAgree_of_forall₂ {ps qs : List (Key × Datum)}
    (each : List.Forall₂ (fun p q => p.1 = q.1 ∧ Agrees p.2 q.2) ps qs) :
    FieldsAgree (ps.map fun p => (keyDatum p.1, p.2)) (qs.map fun q => (keyDatum q.1, q.2)) := by
  induction each with
  | nil => rfl
  | cons one _ ih => exact ⟨_, _, congrArg (fun k => (keyDatum k, _) :: _) one.1.symm, one.2, ih⟩

/-- Integers in ascending order are told by which they are. -/
theorem eq_of_ascending {is is' : List Int64} (ascending : is.Pairwise fun i j => i.toInt < j.toInt)
    (ascending' : is'.Pairwise fun i j => i.toInt < j.toInt) (same : ∀ i, i ∈ is' ↔ i ∈ is) : is' = is := by
  have distinct {is : List Int64} (ascending : is.Pairwise fun i j => i.toInt < j.toInt) : is.Nodup :=
    ascending.imp fun {i j} less equal => absurd (equal ▸ less) (Int.lt_irrefl _)
  refine List.Perm.eq_of_pairwise (fun i j _ _ less more => ?_) ascending' ascending
    ((List.perm_ext_iff_of_nodup (distinct ascending') (distinct ascending)).mpr same)
  omega

/-- A list of entries in the order of other ones with the same keys. -/
theorem exists_in_order {ps qs : List (Key × Datum)} (same : (ps.map Prod.fst).Perm (qs.map Prod.fst)) :
    ∃ rs, List.Forall₂ (fun p r => p.1 = r.1 ∧ p ∈ ps ∧ r ∈ qs) ps rs ∧ rs.Perm qs := by
  have beside : List.Forall₂ (fun k q => k = q.1) (qs.map Prod.fst) qs :=
    List.forall₂_map_left_iff.mpr (List.forall₂_same.mpr fun q _ => rfl)
  obtain ⟨rs, each, perm⟩ := List.perm_comp_forall₂ same beside
  obtain ⟨size, each⟩ := List.forall₂_iff_zip.mp (List.forall₂_map_left_iff.mp each)
  refine ⟨rs, List.forall₂_iff_zip.mpr ⟨size, fun {p r} mem => ?_⟩, perm⟩
  obtain ⟨inside, inside'⟩ := List.of_mem_zip mem
  exact ⟨each mem, inside, perm.mem_iff.mp inside'⟩

/-- Twins come out as values that agree. -/
theorem agrees_of_twin {d' : Datum} (decodes : Decodes h v d) (apart : Throughout h (Apart h) v) (twin : Twin h g v w)
    (decodes' : Decodes g w d') : Agrees d d' := by
  induction decodes generalizing w d' with
  | scalar is =>
    cases twin with
    | table => cases is
    | scalar =>
      cases decodes' with
      | scalar is' =>
        obtain rfl := Option.some.inj (is.symm.trans is')
        exact agrees_scalar is
      | _ => cases is
  | @list t is ds listed ascending all size values ih =>
    cases twin with
    | scalar is => cases is
    | @table _ u keys listed' twins =>
      cases decodes' with
      | scalar is => cases is
      | mapping unlisted => exact absurd (listed'.mpr listed) unlisted
      | @list _ is' ds' _ ascending' all' size' values' =>
        have same : is' = is := eq_of_ascending ascending ascending' fun i => by
          have both := (all'.2 (.int i)).trans ((keys _).trans (all.2 (.int i)).symm)
          simpa using both
        subst same
        refine ⟨ds', rfl, agree_of_forall₂ (List.forall₂_iff_get.mpr ⟨size.trans size'.symm, fun j bound bound' => ?_⟩)⟩
        have here := List.getElem?_eq_getElem (size ▸ bound : j < is'.length)
        have there := (all.2 _).mp (List.mem_map_of_mem (List.mem_of_getElem? here))
        exact ih j _ _ here (List.getElem?_eq_getElem bound) (apart.entry there) (twins _ there)
          (values' j _ _ here (List.getElem?_eq_getElem bound'))
  | @mapping t ps unlisted all scalars values ih =>
    cases twin with
    | scalar is => cases is
    | @table _ u keys listed' twins =>
      cases decodes' with
      | scalar is => cases is
      | list listed => exact absurd (listed'.mp listed) unlisted
      | @mapping _ qs _ all' scalars' values' =>
        have apart' : Apart g u := fun b => (apart.here b).imp
          (fun nil => not_not.mp fun there => (keys _).mp there nil) fun nil => not_not.mp fun there => (keys _).mp there nil
        have same : (ps.map Prod.fst).Perm (qs.map Prod.fst) :=
          (List.perm_ext_iff_of_nodup all.1 all'.1).mpr fun k => (all.2 k).trans ((keys k).symm.trans (all'.2 k).symm)
        obtain ⟨rs, beside, perm⟩ := exists_in_order same
        rw [ofPairs_of_distinct (distinct_of_apart apart.here all scalars),
          ofPairs_of_distinct (distinct_of_apart apart' all' scalars')]
        refine ⟨_, _, rfl, fieldsAgree_of_forall₂ (beside.imp fun p r both => ⟨both.1, ?_⟩), perm.map _⟩
        obtain ⟨key, mem, mem'⟩ := both
        have there := (all.2 p.1).mp (List.mem_map_of_mem mem)
        exact ih p mem (apart.entry there) (twins _ there) (key ▸ values' r mem')

theorem exists_met_of_twin {x : Value} {n : Nat} (met : Met g w x n) (twin : Twin h g v w) :
    ∃ y, Met h v y n ∧ Twin h g y x := by
  induction met generalizing v with
  | here => exact ⟨v, .here v, twin⟩
  | inside there _ ih =>
    cases twin with
    | scalar is => cases is
    | table keys _ twins =>
      have there' := (keys _).mp there
      obtain ⟨y, met, twin⟩ := ih (twins _ there')
      exact ⟨y, .inside there' met, twin⟩

/-- Twins can be decoded under the same limit. -/
theorem Decodable.of_twin {fuel : Nat} (decodable : Decodable h fuel v) (twin : Twin h g v w) : Decodable g fuel w := by
  constructor
  · intro u n met
    obtain ⟨y, met', twin'⟩ := exists_met_of_twin met twin
    cases twin' with
    | scalar is => cases is
    | table => exact decodable.shallow _ n met'
  · intro u n k met there
    obtain ⟨y, met', twin'⟩ := exists_met_of_twin met twin
    cases twin' with
    | scalar is => cases is
    | table keys => exact decodable.keys _ n k met' ((keys k).mp there)
  · intro x n met
    obtain ⟨y, met', twin'⟩ := exists_met_of_twin met twin
    cases twin' with
    | scalar is => exact .inl ⟨_, is⟩
    | table => exact .inr ⟨_, rfl⟩

/-! ### There and back -/

theorem exists_encode_of_decodes (plain : vm.heap.PlainLists) (bare : Throughout h (Bare h) v) (decodes : Decodes h v d) :
    ∃ w vm₁, encode d vm = .ok w vm₁ ∧ Encoded vm₁.heap vm.heap.tables.size d w := by
  have leaves := encode_spec plain d
  cases done : encode d vm with
  | ok w vm₁ =>
    rw [done] at leaves
    exact ⟨w, vm₁, rfl, leaves.2.2.2⟩
  | error f vm₁ =>
    rw [done] at leaves
    cases leaves.2.2.symm.trans (decodes.isEncodable bare)

/-- What comes out of tables without the mark of lists, in whatever order their entries are met, goes in
again. It becomes a copy exactly when no table has a truth value as a key together with the integer that it
counts as, and what comes out of that copy is the same. -/
theorem reencode_spec {d₀ : Datum} {vm' : Vm} (plain : vm.heap.PlainLists) (candid : Candid vm.heap limit.toNat v)
    (bare : Throughout vm.heap (Bare vm.heap) v) (decoded : decode limit v vm = .ok d₀ vm') :
    vm' = vm ∧ Decodes vm.heap v d₀ ∧ ∀ d, Decodes vm.heap v d → ∃ w vm₁, encode d vm = .ok w vm₁ ∧
      (Copy vm.heap vm₁.heap v w ↔ Throughout vm.heap (Apart vm.heap) v) ∧
      (Throughout vm.heap (Apart vm.heap) v → ∃ d', decode limit w vm₁ = .ok d' vm₁ ∧ Agrees d d') := by
  obtain ⟨rfl, contents⟩ := (decode_eq_ok candid).mp decoded
  refine ⟨rfl, decodes_of_decodeFrom contents, fun d decodes => ?_⟩
  obtain ⟨w, vm₁, done, encoded⟩ := exists_encode_of_decodes plain bare decodes
  have twin (apart : Throughout vm'.heap (Apart vm'.heap) v) : Twin vm'.heap vm₁.heap v w :=
    twin_of_encoded decodes bare apart encoded
  refine ⟨w, vm₁, done, ⟨apart_of_copy decodes bare encoded, fun apart => (twin apart).copy⟩, fun apart => ?_⟩
  have decodable : Decodable vm'.heap limit.toNat v := decodeFrom_isOk_iff.mp ⟨d₀, contents⟩
  obtain ⟨d', contents'⟩ := decodeFrom_isOk_iff.mpr (decodable.of_twin (twin apart))
  exact ⟨d', (decode_eq_ok (candid_of_encoded encoded _)).mpr ⟨rfl, contents'⟩,
    agrees_of_twin decodes apart (twin apart) (decodes_of_decodeFrom contents')⟩

/-! ### Programs -/

/-- Are lists left alone, and is no table marked as a list? -/
def isUnmarked (h : Heap) : Bool :=
  isFlat h && (["__index", "__newindex", "__len"].all fun name => (h.table Fixed.sequence).get (.text name) == .nil) &&
    h.tables.all fun table => table.metatable != some Fixed.sequence

theorem tame_of_isUnmarked (unmarked : isUnmarked h = true) (limit : Int) (v : Value) :
    h.PlainLists ∧ Candid h limit.toNat v ∧ Throughout h (Bare h) v := by
  simp only [isUnmarked, List.all_cons, List.all_nil, Bool.and_true, Bool.and_eq_true, beq_iff_eq,
    Array.all_eq_true_iff_forall_mem] at unmarked
  obtain ⟨⟨flat, index, newItem, length⟩, bare⟩ := unmarked
  refine ⟨⟨index, newItem, length⟩, candid_of_isFlat flat _ v, fun t n _ => ?_⟩
  have other := forall_table (P := fun table => (table.metatable != some Fixed.sequence) = true) rfl bare t
  rw [bne, Bool.not_eq_true'] at other
  exact other

/-- Does no table have a truth value as a key together with the integer that it counts as? -/
def isApart (h : Heap) : Bool :=
  h.tables.all fun table => [false, true].all fun b => table.get (.bool b) == .nil || table.get (.int (bit b)) == .nil

theorem apart_of_isApart (apart : isApart h = true) (v : Value) : Throughout h (Apart h) v := by
  rw [isApart, Array.all_eq_true_iff_forall_mem] at apart
  intro t n _ b
  have each := forall_table (P := fun table =>
    [false, true].all (fun b => table.get (.bool b) == .nil || table.get (.int (bit b)) == .nil) = true) rfl apart t
  have here := List.all_eq_true.mp each b (by cases b <;> simp)
  rwa [Bool.or_eq_true, beq_iff_eq, beq_iff_eq] at here

/-- A mapping with keys of all kinds and a list in it. -/
def varied : String := "t = \x7b[0] = 'zero', [true] = 'yes', [2.5] = \x7b'a', 'b'\x7d, ['1'] = 1.0, [-1] = \x7b\x7d\x7d"

set_option maxRecDepth 100000 in
theorem varied_facts : (isUnmarked (programmed varied).heap && isApart (programmed varied).heap &&
    (decodeIn (programmed varied).heap 2 (global (programmed varied) "t")).toBool) = true := by decide +kernel

/-- Keys of all kinds are kept apart. -/
theorem reencode_varied : ∃ d w vm₁ d', decode 2 (global (programmed varied) "t") (programmed varied) = .ok d (programmed varied) ∧
    encode d (programmed varied) = .ok w vm₁ ∧
    Copy (programmed varied).heap vm₁.heap (global (programmed varied) "t") w ∧
    decode 2 w vm₁ = .ok d' vm₁ ∧ Agrees d d' := by
  have facts := varied_facts
  generalize programmed varied = vm at facts ⊢
  rw [Bool.and_eq_true, Bool.and_eq_true] at facts
  obtain ⟨⟨unmarked, apart⟩, fine⟩ := facts
  obtain ⟨plain, candid, bare⟩ := tame_of_isUnmarked unmarked 2 (global vm "t")
  obtain ⟨d, contents⟩ := toBool_eq_true.mp fine
  have done := (decode_eq_ok candid).mpr ⟨rfl, contents⟩
  obtain ⟨_, decodes, each⟩ := reencode_spec plain candid bare done
  obtain ⟨w, vm₁, encoded, copy, back⟩ := each d decodes
  obtain ⟨d', done', agrees⟩ := back (apart_of_isApart apart _)
  exact ⟨d, w, vm₁, d', done, encoded, copy.mpr (apart_of_isApart apart _), done', agrees⟩

/-- A table with a truth value as a key, and the integer that it counts as. -/
def colliding : String := "t = \x7b'b', [true] = 'a'\x7d"

/-- Does a table have both of these keys, and can it be decoded? -/
def collides (vm : Vm) : Value → Bool
  | .table t =>
    (vm.heap.table t).get (.bool true) != .nil && (vm.heap.table t).get (.int 1) != .nil &&
      (decodeIn vm.heap 64 (.table t)).toBool
  | _ => false

set_option maxRecDepth 100000 in
theorem colliding_facts : (isUnmarked (programmed colliding).heap &&
    collides (programmed colliding) (global (programmed colliding) "t")) = true := by decide +kernel

/-- One of the two entries is lost. -/
theorem reencode_colliding : ∃ t d w vm₁, global (programmed colliding) "t" = .table t ∧
    Throughout (programmed colliding).heap (Bare (programmed colliding).heap) (.table t) ∧
    decode 64 (.table t) (programmed colliding) = .ok d (programmed colliding) ∧
    encode d (programmed colliding) = .ok w vm₁ ∧ ¬Copy (programmed colliding).heap vm₁.heap (.table t) w := by
  have facts := colliding_facts
  generalize programmed colliding = vm at facts ⊢
  obtain ⟨unmarked, both⟩ := Bool.and_eq_true_iff.mp facts
  unfold collides at both
  split at both
  next t is =>
    simp only [Bool.and_eq_true, bne_iff_ne] at both
    obtain ⟨⟨truth, one⟩, fine⟩ := both
    obtain ⟨plain, candid, bare⟩ := tame_of_isUnmarked unmarked 64 (.table t)
    obtain ⟨d, contents⟩ := toBool_eq_true.mp fine
    have decodes : Decodes vm.heap (.table t) d := decodes_of_decodeFrom contents
    obtain ⟨w, vm₁, done, encoded⟩ := exists_encode_of_decodes plain bare decodes
    refine ⟨t, d, w, vm₁, is, bare, (decode_eq_ok candid).mpr ⟨rfl, contents⟩, done, fun copy => ?_⟩
    exact ((apart_of_copy decodes bare encoded copy).here true).elim truth one
  next => cases both

end LuaCapsule.Codec
