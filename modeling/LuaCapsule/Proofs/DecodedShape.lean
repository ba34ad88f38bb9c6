import LuaCapsule.Proofs.Decoding
import LuaCapsule.Vm.Call

/-! What can be decoded, and what comes out. A value is decoded when no chain of tables in it is longer than
the limit and all that is met in it has a structured form; a cycle is a chain without end. What comes out is
told by the raw entries of the tables that are met, unless one of them is disguised. -/

namespace LuaCapsule.Codec

open Lua

/-! ### Values that can be decoded -/

/-- Has a value a structured form of its own, or is it a table? -/
def Plain (v : Value) : Prop := (∃ d, scalar? v = some d) ∨ ∃ t, v = .table t

/-- A value in which at most so many tables are nested in one another, all keys are scalars, all strings are
texts and all objects are tables. -/
structure Decodable (h : Heap) (limit : Nat) (v : Value) : Prop where
  shallow : ∀ t n, Met h v (.table t) n → n < limit
  keys : ∀ t n k, Met h v (.table t) n → (h.table t).get k ≠ .nil → ∃ d, scalar? k.value = some d
  values : ∀ w n, Met h v w n → Plain w

variable {h : Heap} {limit : Int} {fuel t : Nat} {v : Value} {vm : Vm} {α β : Type}

theorem decodable_of_ne_table (other : ∀ t, v ≠ .table t) : Decodable h fuel v ↔ ∃ d, scalar? v = some d := by
  have here {w : Value} {n : Nat} (met : Met h v w n) : w = v := by
    cases met with
    | here => rfl
    | inside => exact absurd rfl (other _)
  constructor
  · intro decodable
    exact (decodable.values v 0 (.here v)).resolve_right (not_exists.mpr other)
  · intro scalar
    exact ⟨fun t n met => absurd (here met).symm (other t), fun t n k met => absurd (here met).symm (other t),
      fun w n met => here met ▸ .inl scalar⟩

theorem not_decodable_zero : ¬Decodable h 0 (.table t) := fun decodable =>
  Nat.not_lt_zero 0 (decodable.shallow t 0 (.here _))

/-- A table is decodable when its keys are scalars and the values in it are decodable with one table less. -/
theorem decodable_table : Decodable h (fuel + 1) (.table t) ↔ ∀ k, (h.table t).get k ≠ .nil →
    (∃ d, scalar? k.value = some d) ∧ Decodable h fuel ((h.table t).get k) := by
  constructor
  · intro decodable k there
    exact ⟨decodable.keys t 0 k (.here _) there,
      fun u n met => Nat.lt_of_succ_lt_succ (decodable.shallow u (n + 1) (.inside there met)),
      fun u n k' met => decodable.keys u (n + 1) k' (.inside there met),
      fun w n met => decodable.values w (n + 1) (.inside there met)⟩
  · intro each
    refine ⟨fun u n met => ?_, fun u n k met there => ?_, fun w n met => ?_⟩
    · cases met with
      | here => exact Nat.succ_pos _
      | inside there met => exact Nat.succ_lt_succ ((each _ there).2.shallow u _ met)
    · cases met with
      | here => exact (each k there).1
      | inside there' met => exact (each _ there').2.keys u _ k met there
    · cases met with
      | here => exact .inr ⟨t, rfl⟩
      | inside there met => exact (each _ there).2.values w _ met

/-! ### Success -/

theorem exists_mapM {f : α → Except Fault β} {l : List α} (each : ∀ a ∈ l, ∃ b, f a = .ok b) : ∃ bs, l.mapM f = .ok bs := by
  induction l with
  | nil => exact ⟨[], rfl⟩
  | cons a l ih =>
    obtain ⟨⟨b, one⟩, others⟩ := List.forall_mem_cons.mp each
    obtain ⟨bs, all⟩ := ih others
    rw [List.mapM_cons, one, all]
    exact ⟨b :: bs, rfl⟩

theorem leaf_eq_ok {d : Datum} : leaf h v = .ok d ↔ scalar? v = some d := by
  rw [leaf]
  cases scalar? v with
  | some d' => simp
  | none => cases Vm.kind? h v <;> simp

theorem isText_of_scalar? {d : Datum} (is : scalar? v = some d) : isText v = true := (seen_of_scalar? is).2

/-- Only objects have no structured form, and strings that are no texts. -/
theorem scalar?_of_isText {k : Key} (text : isText k.value = true) (none : Vm.kind? h k.value = none) :
    ∃ d, scalar? k.value = some d := by
  cases k with
  | str b =>
    obtain ⟨s, is⟩ := Option.isSome_iff_exists.mp text
    exact ⟨.text s, congrArg (Option.map Datum.text) is⟩
  | ref r =>
    cases r with
    | thread u =>
      obtain ⟨kind, known⟩ := exists_kind? h u
      cases none.symm.trans known
    | _ => cases none
  | _ => exact ⟨_, rfl⟩

theorem kind?_of_scalar? {d : Datum} (is : scalar? v = some d) : Vm.kind? h v = none := by
  cases v with
  | ref => cases is
  | _ => rfl

theorem isText_of_decodable (decodable : Decodable h fuel v) : isText v = true := by
  rcases decodable.values v 0 (.here v) with ⟨d, is⟩ | ⟨t, rfl⟩
  · exact isText_of_scalar? is
  · rfl

/-- A value is decoded by its contents exactly when it is decodable. -/
theorem decodeFrom_isOk_iff : (∃ d, decodeFrom h limit fuel v = .ok d) ↔ Decodable h fuel v := by
  by_cases table : ∃ t, v = .table t
  case neg =>
    have other : ∀ t, v ≠ .table t := fun t is => table ⟨t, is⟩
    rw [decodable_of_ne_table other, decodeFrom_eq_leaf other]
    exact exists_congr fun d => leaf_eq_ok
  obtain ⟨t, rfl⟩ := table
  induction fuel generalizing t with
  | zero => exact iff_of_false (by rintro ⟨d, ⟨⟩⟩) not_decodable_zero
  | succ fuel ih =>
    have inside (w : Value) : (∃ d, decodeFrom h limit fuel w = .ok d) ↔ Decodable h fuel w := by
      by_cases table : ∃ t, w = .table t
      · obtain ⟨u, rfl⟩ := table
        exact ih u
      · have other : ∀ t, w ≠ .table t := fun t is => table ⟨t, is⟩
        rw [decodable_of_ne_table other, decodeFrom_eq_leaf other]
        exact exists_congr fun d => leaf_eq_ok
    rw [decodable_table]
    constructor
    · rintro ⟨d, done⟩ k there
      have mem := Table.mem_toList.mpr ⟨rfl, there⟩
      obtain ⟨checked, each⟩ := decodeFrom_table_eq_ok done
      obtain ⟨text, _, none⟩ := checkEntries_eq_ok.mp checked _ ((h.table t).enumerate_perm.mem_iff.mpr mem)
      refine ⟨scalar?_of_isText text none, (inside _).mp ?_⟩
      split at each
      · obtain ⟨ds, listed, _⟩ := each
        exact exists_of_mem_of_mapM listed (List.mem_map_of_mem (f := Prod.snd) mem)
      · obtain ⟨es, listed, _⟩ := each
        obtain ⟨field, is⟩ := exists_of_mem_of_mapM listed ((h.table t).enumerate_perm.mem_iff.mpr mem)
        exact ⟨_, (value_of_decodeField is).2⟩
    · intro each
      have entry {e : Key × Value} (mem : e ∈ (h.table t).toList) :
          (∃ d, scalar? e.1.value = some d) ∧ Decodable h fuel e.2 := by
        obtain ⟨is, there⟩ := Table.mem_toList.mp mem
        rw [← is] at there ⊢
        exact each e.1 there
      have checked : checkEntries h (h.table t).enumerate = .ok () := checkEntries_eq_ok.mpr fun e mem => by
        obtain ⟨⟨d, is⟩, decodable⟩ := entry ((h.table t).enumerate_perm.mem_iff.mp mem)
        exact ⟨isText_of_scalar? is, isText_of_decodable decodable, kind?_of_scalar? is⟩
      have items : ∃ ds, ((h.table t).toList.map Prod.snd).mapM (decodeFrom h limit fuel) = .ok ds := by
        refine exists_mapM fun w mem => ?_
        obtain ⟨e, here, rfl⟩ := List.mem_map.mp mem
        exact (inside _).mpr (entry here).2
      have fields : ∃ es, (h.table t).enumerate.mapM (decodeField h limit fuel) = .ok es := by
        refine exists_mapM fun e mem => ?_
        obtain ⟨d, is⟩ := (inside e.2).mpr (entry ((h.table t).enumerate_perm.mem_iff.mp mem)).2
        exact ⟨_, by rw [decodeField, is]; rfl⟩
      rw [decodeFrom_table, checked]
      cases isListed h t with
      | true =>
        obtain ⟨ds, is⟩ := items
        exact ⟨.list ds, by rw [is]; rfl⟩
      | false =>
        obtain ⟨es, is⟩ := fields
        exact ⟨.ofPairs es, by rw [is]; rfl⟩

/-! ### Failure -/

theorem checkEntries_error {entries : List (Key × Value)} {f : Fault} (failed : checkEntries h entries = .error f) :
    ∃ kind detail, f = .decode kind detail := by
  unfold checkEntries at failed
  split at failed
  · cases failed
    exact ⟨_, _, rfl⟩
  · split at failed
    · cases failed
      exact ⟨_, _, rfl⟩
    · cases failed

theorem leaf_error {f : Fault} (failed : leaf h v = .error f) : ∃ kind detail, f = .decode kind detail := by
  unfold leaf at failed
  split at failed
  · cases failed
  · cases failed
    exact ⟨_, _, rfl⟩
  · cases failed
    exact ⟨_, _, rfl⟩

/-- All that goes wrong is that something cannot be decoded. -/
theorem decodeFrom_error {f : Fault} (failed : decodeFrom h limit fuel v = .error f) :
    ∃ kind detail, f = .decode kind detail := by
  induction fuel generalizing v f with
  | zero =>
    by_cases table : ∃ t, v = .table t
    · obtain ⟨t, rfl⟩ := table
      cases failed
      exact ⟨_, _, rfl⟩
    · rw [decodeFrom_eq_leaf fun t is => table ⟨t, is⟩] at failed
      exact leaf_error failed
  | succ fuel ih =>
    by_cases table : ∃ t, v = .table t
    case neg =>
      rw [decodeFrom_eq_leaf fun t is => table ⟨t, is⟩] at failed
      exact leaf_error failed
    obtain ⟨t, rfl⟩ := table
    rw [decodeFrom_table] at failed
    cases checked : checkEntries h (h.table t).enumerate with
    | error f' =>
      rw [checked] at failed
      cases failed
      exact checkEntries_error checked
    | ok =>
      rw [checked] at failed
      change (if _ then _ else _ : Except Fault Datum) = _ at failed
      split at failed
      · cases items : ((h.table t).toList.map Prod.snd).mapM (decodeFrom h limit fuel) with
        | ok ds =>
          rw [items] at failed
          cases failed
        | error f' =>
          rw [items] at failed
          cases failed
          obtain ⟨w, _, is⟩ := exists_of_mapM_error items
          exact ih is
      · cases fields : (h.table t).enumerate.mapM (decodeField h limit fuel) with
        | ok es =>
          rw [fields] at failed
          cases failed
        | error f' =>
          rw [fields] at failed
          cases failed
          obtain ⟨e, _, is⟩ := exists_of_mapM_error fields
          rw [decodeField] at is
          cases value : decodeFrom h limit fuel e.2 with
          | ok d =>
            rw [value] at is
            cases is
          | error f'' =>
            rw [value] at is
            cases is
            exact ih value

theorem SameFault.decode {f f' : Fault} (same : SameFault f f') (is : ∃ kind detail, f = .decode kind detail) :
    ∃ kind detail, f' = .decode kind detail := by
  cases same with
  | same => exact is
  | coroutine detail => exact ⟨_, detail, rfl⟩

/-! ### Lists -/

/-- A table that is a list: its keys are the integers from 1 up to some number, or it has the metatable of
lists and all its keys are integers. -/
def Listed (h : Heap) (t : Nat) : Prop :=
  (∃ n : Nat, 1 ≤ n ∧ ∀ k, (h.table t).get k ≠ .nil ↔ ∃ i : Int64, k = .int i ∧ 1 ≤ i.toInt ∧ i.toInt ≤ n) ∨
    (h.table t).metatable = some Fixed.sequence ∧ ∀ k, (h.table t).get k ≠ .nil → ∃ i, k = .int i

theorem isInt_iff {k : Key} : isInt k = true ↔ ∃ i, k = .int i := by
  cases k <;> simp [isInt]

theorem isRange_eq_true {ks : List Key} : isRange ks = true ↔
    ks ≠ [] ∧ ∀ k ∈ ks, ∃ i : Int64, k = .int i ∧ 1 ≤ i.toInt ∧ i.toInt ≤ ks.length := by
  rw [isRange, Bool.and_eq_true, List.all_eq_true]
  refine and_congr (by simp) (forall₂_congr fun k _ => ?_)
  cases k <;> simp

/-- The keys of so many list items. -/
def positions (n : Nat) : List Key := (List.range n).map fun j : Nat => .int (Int64.ofInt (1 + j))

theorem mem_positions {n : Nat} {i : Int64} (least : 1 ≤ i.toInt) (most : i.toInt ≤ n) : Key.int i ∈ positions n := by
  refine List.mem_map.mpr ⟨i.toInt.toNat - 1, List.mem_range.mpr (by omega), ?_⟩
  rw [show (1 : Int) + ((i.toInt.toNat - 1 : Nat) : Int) = i.toInt by omega, Int64.ofInt_toInt]

/-- The keys of list items are the integers up to their number, as long as it fits. -/
theorem mem_positions_iff {n : Nat} (fits : isInt64 n = true) {k : Key} :
    k ∈ positions n ↔ ∃ i : Int64, k = .int i ∧ 1 ≤ i.toInt ∧ i.toInt ≤ n := by
  constructor
  · intro mem
    obtain ⟨j, bound, rfl⟩ := List.mem_map.mp mem
    have bound := List.mem_range.mp bound
    have inside : isInt64 ((1 + j : Nat) : Int) = true := isInt64_of_le (by omega) fits
    have value : (Int64.ofInt (1 + j)).toInt = 1 + j := Binary64.toInt_ofInt_of_isInt64 (by simpa using inside)
    exact ⟨_, rfl, by omega, by omega⟩
  · rintro ⟨i, rfl, least, most⟩
    exact mem_positions least most

theorem nodup_positions {n : Nat} (fits : isInt64 n = true) : (positions n).Nodup := by
  refine List.Nodup.map_on (fun i hi j hj same => ?_) List.nodup_range
  have value {j : Nat} (bound : j ∈ List.range n) : (Int64.ofInt (1 + j)).toInt = 1 + j := by
    have bound := List.mem_range.mp bound
    have inside : isInt64 ((1 + j : Nat) : Int) = true := isInt64_of_le (by omega) fits
    exact Binary64.toInt_ofInt_of_isInt64 (by simpa using inside)
  have same := congrArg Int64.toInt (Key.int.inj same)
  rw [value hi, value hj] at same
  omega

/-- Different keys are in the range of their number when they are all integers from 1 up to some number. -/
theorem isRange_iff {ks : List Key} (nodup : ks.Nodup) : isRange ks = true ↔
    ∃ n : Nat, 1 ≤ n ∧ ∀ k, k ∈ ks ↔ ∃ i : Int64, k = .int i ∧ 1 ≤ i.toInt ∧ i.toInt ≤ n := by
  rw [isRange_eq_true]
  constructor
  · rintro ⟨some, each⟩
    have inside : ks ⊆ positions ks.length := fun k mem => by
      obtain ⟨i, rfl, least, most⟩ := each k mem
      exact mem_positions least most
    have all := (List.subperm_of_subset nodup inside).perm_of_length_le (by simp [positions])
    refine ⟨ks.length, List.length_pos_iff.mpr some, fun k => ⟨each k, ?_⟩⟩
    rintro ⟨i, rfl, least, most⟩
    exact all.mem_iff.mpr (mem_positions least most)
  · rintro ⟨n, some, all⟩
    have one : Key.int 1 ∈ ks := (all _).mpr ⟨1, rfl, Int64.toInt_one.ge, Int64.toInt_one.trans_le (by omega)⟩
    refine ⟨List.ne_nil_of_mem one, fun k mem => ?_⟩
    obtain ⟨i, rfl, least, most⟩ := (all k).mp mem
    refine ⟨i, rfl, least, ?_⟩
    -- All keys from 1 up to this one are there.
    have size : ((i.toInt.toNat : Nat) : Int) = i.toInt := by omega
    have fits : isInt64 (i.toInt.toNat : Nat) = true := by
      rw [size]
      exact Binary64.isInt64_toInt i
    have inside : positions i.toInt.toNat ⊆ ks := fun k mem => by
      obtain ⟨j, rfl, least', most'⟩ := (mem_positions_iff fits).mp mem
      exact (all _).mpr ⟨j, rfl, least', by omega⟩
    have count := (List.subperm_of_subset (nodup_positions fits) inside).length_le
    simp only [positions, List.length_map, List.length_range] at count
    omega

theorem mem_enumerate_keys {table : Table} {k : Key} : k ∈ table.enumerate.map (·.1) ↔ table.get k ≠ .nil :=
  (table.enumerate_perm.map Prod.fst).mem_iff.trans Table.mem_keys

theorem isListed_iff : isListed h t = true ↔ Listed h t := by
  have nodup : ((h.table t).enumerate.map (·.1)).Nodup :=
    ((h.table t).enumerate_perm.map Prod.fst).nodup_iff.mpr (h.table t).nodup_keys
  rw [isListed, Bool.or_eq_true, Bool.and_eq_true, isRange_iff nodup, List.all_eq_true, or_comm, Listed, Heap.isMarked,
    beq_iff_eq]
  simp only [mem_enumerate_keys, isInt_iff]

/-! ### What comes out -/

/-- A key as one of a mapping. -/
def keyDatum (k : Key) : Datum := (scalar? k.value).getD .null

/-- Keys in some order are all keys of a table, once each. -/
def Lists (ks : List Key) (table : Table) : Prop := ks.Nodup ∧ ∀ k, k ∈ ks ↔ table.get k ≠ .nil

/-- What a value is as a structured value. A list has the values of its table in ascending order of their
keys; the entries of a mapping come in any order. -/
inductive Decodes (h : Heap) : Value → Datum → Prop
  | scalar {v : Value} {d : Datum} (is : scalar? v = some d) : Decodes h v d
  | list {t : Nat} {ks : List Int64} {ds : List Datum} (listed : Listed h t)
    (ascending : ks.Pairwise fun i j => i.toInt < j.toInt) (all : Lists (ks.map .int) (h.table t))
    (size : ds.length = ks.length)
    (each : ∀ (j : Nat) i d, ks[j]? = some i → ds[j]? = some d → Decodes h ((h.table t).get (.int i)) d) :
    Decodes h (.table t) (.list ds)
  | mapping {t : Nat} {ps : List (Key × Datum)} (unlisted : ¬Listed h t) (all : Lists (ps.map Prod.fst) (h.table t))
    (keys : ∀ p ∈ ps, ∃ d, scalar? p.1.value = some d) (each : ∀ p ∈ ps, Decodes h ((h.table t).get p.1) p.2) :
    Decodes h (.table t) (.ofPairs (ps.map fun p => (keyDatum p.1, p.2)))

theorem forall₂_of_mapM {f : α → Except Fault β} {l : List α} {bs : List β} (done : l.mapM f = .ok bs) :
    List.Forall₂ (fun a b => f a = .ok b) l bs := by
  induction l generalizing bs with
  | nil =>
    cases done
    exact .nil
  | cons a l ih =>
    rw [List.mapM_cons] at done
    cases first : f a with
    | error e =>
      rw [first] at done
      cases done
    | ok b =>
      cases others : l.mapM f with
      | error e =>
        rw [first, others] at done
        cases done
      | ok bs' =>
        rw [first, others] at done
        cases done
        exact .cons first (ih others)

theorem exists_ints {ks : List Key} (each : ∀ k ∈ ks, ∃ i, k = .int i) : ∃ is : List Int64, ks = is.map .int := by
  induction ks with
  | nil => exact ⟨[], rfl⟩
  | cons k ks ih =>
    obtain ⟨⟨i, rfl⟩, others⟩ := List.forall_mem_cons.mp each
    obtain ⟨is, rfl⟩ := ih others
    exact ⟨i :: is, rfl⟩

theorem Listed.keys (listed : Listed h t) {k : Key} (there : (h.table t).get k ≠ .nil) : ∃ i, k = .int i := by
  rcases listed with ⟨n, _, all⟩ | ⟨_, ints⟩
  · obtain ⟨i, is, _⟩ := (all k).mp there
    exact ⟨i, is⟩
  · exact ints k there

/-- The values of a table in the order of its keys, all of which are integers. -/
theorem decodes_list {ds : List Datum} (listed : Listed h t)
    (each : List.Forall₂ (Decodes h) ((h.table t).toList.map Prod.snd) ds) : Decodes h (.table t) (.list ds) := by
  obtain ⟨is, ints⟩ := exists_ints fun k mem => listed.keys (Table.mem_keys.mp mem)
  have sorted := (h.table t).keys_sorted
  have nodup := (h.table t).nodup_keys
  have values : (h.table t).toList.map Prod.snd = is.map fun i => (h.table t).get (.int i) := by
    rw [Table.toList_eq_map, ints, List.map_map, List.map_map]
    rfl
  rw [values, List.forall₂_map_left_iff] at each
  rw [ints] at sorted nodup
  refine .list listed ?_ ⟨nodup, fun k => ints ▸ Table.mem_keys⟩ each.length_eq.symm fun j i d here there => ?_
  · exact (List.pairwise_map.mp sorted).imp fun less => Int.compare_eq_lt.mp less
  · obtain ⟨bound, rfl⟩ := List.getElem?_eq_some_iff.mp here
    obtain ⟨bound', rfl⟩ := List.getElem?_eq_some_iff.mp there
    exact (List.forall₂_iff_get.mp each).2 j bound bound'

theorem exists_pairs {entries : List (Key × Value)} {es : List (Datum × Datum)}
    (each : List.Forall₂ (fun e field => decodeField h limit fuel e = .ok field) entries es) :
    ∃ ps : List (Key × Datum), ps.map Prod.fst = entries.map Prod.fst ∧ es = ps.map (fun p => (keyDatum p.1, p.2)) ∧
      ∀ p ∈ ps, ∃ e ∈ entries, e.1 = p.1 ∧ decodeFrom h limit fuel e.2 = .ok p.2 := by
  induction each with
  | nil => exact ⟨[], rfl, rfl, fun p mem => absurd mem List.not_mem_nil⟩
  | @cons e field entries es one _ ih =>
    obtain ⟨ps, keys, rfl, each⟩ := ih
    obtain ⟨key, value⟩ := value_of_decodeField one
    refine ⟨(e.1, field.2) :: ps, congrArg (e.1 :: ·) keys, congrArg (· :: _) (Prod.ext key rfl), ?_⟩
    intro p mem
    rcases List.mem_cons.mp mem with rfl | mem
    · exact ⟨e, List.mem_cons_self .., rfl, value⟩
    · obtain ⟨e', mem', is⟩ := each p mem
      exact ⟨e', List.mem_cons_of_mem _ mem', is⟩

/-- What comes out is what the contents say. -/
theorem decodes_of_decodeFrom {d : Datum} (done : decodeFrom h limit fuel v = .ok d) : Decodes h v d := by
  induction fuel generalizing v d with
  | zero =>
    by_cases table : ∃ t, v = .table t
    · obtain ⟨t, rfl⟩ := table
      cases done
    · rw [decodeFrom_eq_leaf fun t is => table ⟨t, is⟩] at done
      exact .scalar (leaf_eq_ok.mp done)
  | succ fuel ih =>
    by_cases table : ∃ t, v = .table t
    case neg =>
      rw [decodeFrom_eq_leaf fun t is => table ⟨t, is⟩] at done
      exact .scalar (leaf_eq_ok.mp done)
    obtain ⟨t, rfl⟩ := table
    have decodable := decodable_table.mp (decodeFrom_isOk_iff.mp ⟨d, done⟩)
    obtain ⟨_, each⟩ := decodeFrom_table_eq_ok done
    split at each
    next listed =>
      obtain ⟨ds, items, rfl⟩ := each
      exact decodes_list (isListed_iff.mp listed) ((forall₂_of_mapM items).imp fun w d done => ih done)
    next unlisted =>
      obtain ⟨es, fields, rfl⟩ := each
      obtain ⟨ps, keys, rfl, each⟩ := exists_pairs (forall₂_of_mapM fields)
      have nodup := ((h.table t).enumerate_perm.map Prod.fst).nodup_iff.mpr (h.table t).nodup_keys
      have all : Lists (ps.map Prod.fst) (h.table t) := keys ▸ ⟨nodup, fun k => mem_enumerate_keys⟩
      refine .mapping (mt isListed_iff.mpr unlisted) all (fun p mem => ?_) fun p mem => ?_
      · exact (decodable p.1 ((all.2 p.1).mp (List.mem_map_of_mem mem))).1
      · obtain ⟨e, mem', same, value⟩ := each p mem
        obtain ⟨is, _⟩ := Table.mem_toList.mp ((h.table t).enumerate_perm.mem_iff.mp mem')
        rw [← same, is]
        exact ih value

/-- Where no table that is met is disguised, decoding is decoding by contents. -/
theorem decode_eq_ok {d : Datum} {vm' : Vm} (candid : Candid vm.heap limit.toNat v) :
    decode limit v vm = .ok d vm' ↔ vm' = vm ∧ decodeIn vm.heap limit v = .ok d := by
  have follows := decode_follows candid
  cases done : decodeIn vm.heap limit v with
  | ok d' =>
    rw [done] at follows
    rw [show decode limit v vm = .ok d' vm from follows]
    constructor
    · rintro ⟨⟩
      exact ⟨rfl, rfl⟩
    · rintro ⟨rfl, ⟨⟩⟩
      rfl
  | error f =>
    rw [done] at follows
    obtain ⟨f', vm₁, failed, _⟩ := follows
    rw [failed]
    exact iff_of_false (by rintro ⟨⟩) (by rintro ⟨_, ⟨⟩⟩)

/-- Where no table that is met is disguised, a value is decoded exactly when it is decodable, and otherwise it
is refused as one that cannot be decoded. What comes out is told by the raw contents, and nothing is changed. -/
theorem decode_spec (candid : Candid vm.heap limit.toNat v) :
    ((∃ d vm', decode limit v vm = .ok d vm') ↔ Decodable vm.heap limit.toNat v) ∧
      match decode limit v vm with
      | .ok d vm' => vm' = vm ∧ Decodes vm.heap v d
      | .error f _ => ∃ kind detail, f = .decode kind detail := by
  have accepts : (∃ d vm', decode limit v vm = .ok d vm') ↔ Decodable vm.heap limit.toNat v := by
    have contents : Decodable vm.heap limit.toNat v ↔ ∃ d, decodeFrom vm.heap limit limit.toNat v = .ok d := decodeFrom_isOk_iff.symm
    rw [contents, ← exists_congr fun d => exists_congr fun vm' => (decode_eq_ok candid).symm]
    simp [decodeIn]
  refine ⟨accepts, ?_⟩
  cases done : decode limit v vm with
  | ok d vm' =>
    obtain ⟨same, contents⟩ := (decode_eq_ok candid).mp done
    exact ⟨same, decodes_of_decodeFrom contents⟩
  | error f vm' =>
    have follows := decode_follows candid
    cases contents : decodeIn vm.heap limit v with
    | ok d => cases done.symm.trans ((decode_eq_ok candid).mpr ⟨rfl, contents⟩)
    | error f₀ =>
      rw [contents] at follows
      obtain ⟨f₁, vm₁, failed, same⟩ := follows
      obtain ⟨rfl, -⟩ := EStateM.Result.error.inj (done.symm.trans failed)
      exact same.decode (decodeFrom_error contents)

/-! ### Programs -/

/-- An interpreter after a program. -/
def programmed (source : String) : Vm :=
  match Vm.load source ⟨Fixed.heap, none⟩ with
  | .ok _ vm => vm
  | .error _ vm => vm

/-- What stands under a global name. -/
def global (vm : Vm) (name : String) : Value := (vm.heap.table Fixed.globals).get (.text name)

/-- Has no metatable of a table, and not that of lists, a metatable of its own? -/
def isFlat (h : Heap) : Bool :=
  (h.table Fixed.sequence).metatable == none &&
    h.tables.all fun t => t.metatable.all fun m => (h.table m).metatable == none

/-- What is so of an empty table and of all tables of a heap is so of each. -/
theorem forall_table {P : Table → Prop} (empty : P default) (all : ∀ table ∈ h.tables, P table) (t : Nat) : P (h.table t) := by
  rw [Heap.table, Array.getD_eq_getD_getElem?]
  cases found : h.tables[t]? with
  | none => exact empty
  | some table => exact all table (Array.mem_of_getElem? found)

theorem candid_of_isFlat (flat : isFlat h = true) (fuel : Nat) (v : Value) : Candid h fuel v := by
  rw [isFlat, Bool.and_eq_true, beq_iff_eq, Array.all_eq_true_iff_forall_mem] at flat
  rintro t n - - ⟨m, own, -, answer⟩
  have bare := forall_table (P := fun table => table.metatable.all (fun m => (h.table m).metatable == none) = true) rfl flat.2 t
  rw [own, Option.all_some, beq_iff_eq] at bare
  exact answer (by rw [Heap.binaryMetamethod, Heap.metamethod_of_bare bare, Heap.metamethod_of_bare flat.1])

/-- A list with a metatable that has something to say of it, and a table that holds itself. -/
def guarded : String :=
  "ring = \x7b\x7d ring.ring = ring items = setmetatable(\x7b'a', \x7b\x7d\x7d, \x7b__index = ring, " ++
    "__len = function() return 9 end, __pairs = error, __metatable = false\x7d)"

set_option maxRecDepth 100000 in
theorem guarded_facts : (isFlat (programmed guarded).heap &&
    (decodeIn (programmed guarded).heap 2 (global (programmed guarded) "items")).toBool &&
    !(decodeIn (programmed guarded).heap 64 (global (programmed guarded) "ring")).toBool) = true := by decide +kernel

theorem toBool_eq_true {r : Except Fault α} : r.toBool = true ↔ ∃ a, r = .ok a := by
  cases r <;> simp [Except.toBool]

/-- The metatable of a list has no influence, and a cycle is refused. -/
theorem decode_spec_guarded :
    (∃ d vm', decode 2 (global (programmed guarded) "items") (programmed guarded) = .ok d vm' ∧
      Decodes (programmed guarded).heap (global (programmed guarded) "items") d) ∧
    ∃ kind detail vm', decode 64 (global (programmed guarded) "ring") (programmed guarded) = .error (.decode kind detail) vm' := by
  have facts := guarded_facts
  generalize programmed guarded = vm at facts ⊢
  rw [Bool.and_eq_true, Bool.and_eq_true, Bool.not_eq_true'] at facts
  obtain ⟨⟨flat, fine⟩, deep⟩ := facts
  have candid : Candid vm.heap (2 : Int).toNat (global vm "items") := candid_of_isFlat flat _ _
  have candid' : Candid vm.heap (64 : Int).toNat (global vm "ring") := candid_of_isFlat flat _ _
  have items := decode_spec candid
  have ring := decode_spec candid'
  constructor
  · obtain ⟨d, vm', done⟩ := items.1.mpr (decodeFrom_isOk_iff.mp (toBool_eq_true.mp fine))
    have shape := items.2
    rw [done] at shape
    exact ⟨d, vm', done, shape.2⟩
  · have shape := ring.2
    cases done : decode 64 (global vm "ring") vm with
    | ok d vm' =>
      have accepted : ∃ d, decodeIn vm.heap 64 (global vm "ring") = .ok d := decodeFrom_isOk_iff.mpr (ring.1.mp ⟨d, vm', done⟩)
      cases deep.symm.trans (toBool_eq_true.mpr accepted)
    | error f vm' =>
      rw [done] at shape
      obtain ⟨kind, detail, rfl⟩ := shape
      exact ⟨kind, detail, vm', rfl⟩

/-- A table whose metatable says that it is one with any other. -/
def masked : String := "mask = setmetatable(\x7b[5] = 'x'\x7d, setmetatable(\x7b\x7d, \x7b__eq = function() return true end\x7d))"

/-- Is a decodable table that is no list decoded as a list of one text? -/
def passesForList (vm : Vm) : Value → Bool
  | .table t =>
    !isListed vm.heap t && (decodeIn vm.heap 64 (.table t)).toBool &&
      match decode 64 (.table t) vm with
      | .ok (.list [.text s]) _ => s == "x"
      | _ => false
  | _ => false

set_option maxRecDepth 100000 in
theorem passesForList_masked : passesForList (programmed masked) (global (programmed masked) "mask") = true := by
  decide +kernel

/-- The metamethod decides that the table is a list, and its key is lost. -/
theorem decode_masked : ∃ t vm', global (programmed masked) "mask" = .table t ∧ ¬Listed (programmed masked).heap t ∧
    Decodable (programmed masked).heap 64 (.table t) ∧
    decode 64 (.table t) (programmed masked) = .ok (.list [.text "x"]) vm' := by
  have passes := passesForList_masked
  generalize programmed masked = vm at passes ⊢
  unfold passesForList at passes
  split at passes
  next t is =>
    rw [Bool.and_eq_true, Bool.and_eq_true, Bool.not_eq_true'] at passes
    obtain ⟨⟨other, fine⟩, passes⟩ := passes
    split at passes
    next s vm' done =>
      rw [eq_of_beq passes] at done
      have unlisted : ¬Listed vm.heap t := fun listed => Bool.false_ne_true (other.symm.trans (isListed_iff.mpr listed))
      exact ⟨t, vm', is, unlisted, decodeFrom_isOk_iff.mp (toBool_eq_true.mp fine), done⟩
    next => cases passes
  next => cases passes

end LuaCapsule.Codec
