import LuaCapsule.Context.Private
import LuaCapsule.Proofs.LockStep
import LuaCapsule.Proofs.RawDecoding
import LuaCapsule.Proofs.Structured
import Mathlib.Data.List.Induction

/-! What decoding makes of what encoding made. A value comes back in its clean form if no more
containers are nested in it than the limit allows, and otherwise it is refused; what came back once
comes back again as it is. A value that holds something foreign does not go in at all. -/

namespace LuaCapsule

open Lua

namespace Lua.Table

/-! ### The entries of a table -/

/-- Entries in the order of their keys are all entries if they are what the table has. -/
theorem toList_eq {t : Table} {l : List (Key × Value)} (sorted : (l.map Prod.fst).Pairwise fun k k' => Key.cmp k k' = .lt)
    (all : ∀ k v, (k, v) ∈ l ↔ t.get k = v ∧ v ≠ .nil) : t.toList = l := by
  have irreflexive {e e' : Key × Value} (less : Key.cmp e.1 e'.1 = .lt) : e ≠ e' := by
    rintro rfl
    rw [Key.cmp_self] at less
    cases less
  have sorted' := List.pairwise_map.mp t.keys_sorted
  rw [List.pairwise_map] at sorted
  refine List.Perm.eq_of_pairwise ?_ sorted' sorted ?_
  · intro e e' _ _ less more
    rw [Key.cmp_swap, more] at less
    cases less
  · rw [List.perm_ext_iff_of_nodup (sorted'.imp irreflexive) (sorted.imp irreflexive)]
    intro e
    rw [all, mem_toList]

end Lua.Table

namespace Codec

variable {h : Heap} {limit : Int} {fuel first t : Nat}

/-! ### Items and entries -/

/-- Is a value other than nil? -/
def present (v : Value) : Bool := decide (v ≠ .nil)

theorem cmp_int (a b : Int64) (less : a.toInt < b.toInt) : Key.cmp (.int a) (.int b) = .lt :=
  compare_lt_iff_lt.mpr less

/-- The entries of a table of list items are the items other than nil, in order. -/
theorem values_of_itemAt {table : Table} {vs : List Value} (fits : isInt64 vs.length = true)
    (get : ∀ k, table.get k = itemAt vs k) : table.toList.map Prod.snd = vs.filter present ∧
      ∀ e ∈ table.toList, isInt e.1 = true ∧ e.2 ∈ vs := by
  let position (j : Nat) : Key := .int (Int64.ofInt (1 + j))
  have inside {j : Nat} (bound : j < vs.length) : (Int64.ofInt (1 + j)).toInt = 1 + j := by
    have fits' : isInt64 ((1 + j : Nat) : Int) = true := isInt64_of_le (by omega) fits
    exact Binary64.toInt_ofInt_of_isInt64 (by simpa using fits')
  have listed : table.toList = ((List.range vs.length).map fun j => (position j, itemAt vs (position j))).filter
      fun e => present e.2 := by
    refine Table.toList_eq ?_ fun k v => ?_
    · refine List.pairwise_map.mpr (List.Pairwise.filter _ (List.pairwise_map.mpr ?_))
      refine List.pairwise_lt_range.imp_of_mem fun {i j} _ mem less => cmp_int _ _ ?_
      rw [inside (List.mem_range.mp mem), inside (Nat.lt_trans less (List.mem_range.mp mem))]
      omega
    · rw [List.mem_filter, List.mem_map, get, present, decide_eq_true_iff]
      constructor
      · rintro ⟨⟨j, _, same⟩, some⟩
        obtain ⟨rfl, rfl⟩ := Prod.mk.inj same
        exact ⟨rfl, some⟩
      · rintro ⟨rfl, some⟩
        refine ⟨?_, some⟩
        cases k with
        | int i =>
          have here : itemAt vs (.int i) = if 1 ≤ i.toInt then vs.getD (i.toInt.toNat - 1) .nil else .nil := rfl
          rw [here] at some
          split at some
          next positive =>
            have bound : i.toInt.toNat - 1 < vs.length := by
              by_contra beyond
              exact some (by rw [List.getD_eq_getElem?_getD, List.getElem?_eq_none (Nat.le_of_not_lt beyond)]; rfl)
            refine ⟨i.toInt.toNat - 1, List.mem_range.mpr bound, ?_⟩
            have same : position (i.toInt.toNat - 1) = .int i := by
              refine congrArg Key.int (Int64.toInt_inj.mp ?_)
              rw [inside bound]
              omega
            rw [same]
          next => exact absurd rfl some
        | _ => exact absurd rfl some
  constructor
  · rw [listed]
    refine (List.filter_map (p := present) (f := Prod.snd) ..).symm.trans ?_
    rw [List.map_map]
    exact congrArg (List.filter present) (map_itemAt fits)
  · intro e mem
    rw [listed, List.mem_filter, List.mem_map] at mem
    obtain ⟨⟨j, bound, rfl⟩, _⟩ := mem
    have mem : itemAt vs (position j) ∈ (List.range vs.length).map fun j => itemAt vs (position j) :=
      List.mem_map_of_mem bound
    rw [map_itemAt fits] at mem
    exact ⟨rfl, mem⟩

theorem lastAt_of_notMem {kvs : List (Key × Value)} {k : Key} (absent : k ∉ kvs.map Prod.fst) : lastAt kvs k = .nil := by
  induction kvs using List.reverseRecOn with
  | nil => rfl
  | append_singleton kvs e ih =>
    rw [List.map_append, List.mem_append, not_or] at absent
    rw [lastAt_concat, if_neg (by simpa [eq_comm] using absent.2), ih absent.1]

theorem lastAt_of_mem {kvs : List (Key × Value)} {e : Key × Value} (nodup : (kvs.map Prod.fst).Nodup) (mem : e ∈ kvs) :
    lastAt kvs e.1 = e.2 := by
  induction kvs using List.reverseRecOn with
  | nil => cases mem
  | append_singleton kvs e' ih =>
    rw [List.map_append] at nodup
    rw [lastAt_concat]
    rcases List.mem_append.mp mem with mem | mem
    · have apart := List.disjoint_of_nodup_append nodup (List.mem_map_of_mem mem)
      rw [if_neg (by simpa [eq_comm] using apart), ih nodup.of_append_left mem]
    · obtain rfl := List.mem_singleton.mp mem
      exact if_pos rfl

/-- The entries of a table of different keys are those with values other than nil. -/
theorem entries_of_lastAt {table : Table} {kvs : List (Key × Value)} (nodup : (kvs.map Prod.fst).Nodup)
    (get : ∀ k, table.get k = lastAt kvs k) : (kvs.filter fun e => present e.2).Perm table.enumerate := by
  refine List.Perm.trans ?_ table.enumerate_perm.symm
  refine (List.perm_ext_iff_of_nodup (nodup.of_map.filter _) table.nodup_keys.of_map).mpr ?_
  rintro ⟨k, v⟩
  rw [List.mem_filter, present, decide_eq_true_iff, Table.mem_toList, get]
  constructor
  · rintro ⟨mem, some⟩
    exact ⟨lastAt_of_mem nodup mem, some⟩
  · rintro ⟨rfl, some⟩
    refine ⟨?_, some⟩
    by_cases mem : k ∈ kvs.map Prod.fst
    · obtain ⟨e, mem', rfl⟩ := List.mem_map.mp mem
      rwa [lastAt_of_mem nodup mem']
    · exact absurd (lastAt_of_notMem mem) some

/-! ### Values that were encoded -/

open Datum

/-- A scalar comes back as it is. -/
theorem scalar?_of_scalar {d : Datum} {v : Value} (tree : IsTree d) (entered : scalar d = .ok v) : scalar? v = some d := by
  cases d with
  | int i =>
    have inside : isInt64 i = true := tree
    rw [scalar, if_pos inside] at entered
    cases entered
    exact congrArg (fun i => some (Datum.int i)) (Binary64.toInt_ofInt_of_isInt64 inside)
  | text s =>
    cases entered
    exact congrArg (Option.map Datum.text) (Bytes.toText?_ofString s)
  | bytes => exact tree.elim
  | null | bool | float =>
    cases entered
    rfl
  | _ => cases entered

theorem seen_of_scalar? {d : Datum} {v : Value} (seen : scalar? v = some d) : present v = !d.isNull ∧ isText v = true := by
  cases v with
  | str b =>
    obtain ⟨s, known, rfl⟩ := Option.map_eq_some_iff.mp seen
    exact ⟨rfl, congrArg Option.isSome known⟩
  | ref => cases seen
  | _ =>
    cases seen
    exact ⟨rfl, rfl⟩

/-- Only null leaves no entry, and all strings are texts. -/
theorem seen_of_encoded {d : Datum} {v : Value} (encoded : Encoded h first d v) (tree : IsTree d) :
    present v = !d.isNull ∧ isText v = true := by
  cases d with
  | list ds =>
    obtain ⟨_, _, rfl, _⟩ := encoded
    exact ⟨rfl, rfl⟩
  | tuple ds =>
    obtain ⟨_, _, rfl, _⟩ := encoded
    exact ⟨rfl, rfl⟩
  | mapping es =>
    obtain ⟨_, _, rfl, _⟩ := encoded
    exact ⟨rfl, rfl⟩
  | _ => exact seen_of_scalar? (scalar?_of_scalar tree encoded)

theorem isText_of_encodedAll : ∀ {ds : List Datum} {vs : List Value}, EncodedAll h first ds vs → AreTrees ds →
    ∀ v ∈ vs, isText v = true
  | [], _, rfl, _ => nofun
  | _ :: _, _, ⟨_, _, rfl, one, others⟩, ⟨tree, trees⟩ =>
    List.forall_mem_cons.mpr ⟨(seen_of_encoded one tree).2, isText_of_encodedAll others trees⟩

theorem key?_text (s : String) : key? (.text s) = some (.text s) := rfl

/-- A key that becomes one of a table is a text. -/
theorem eq_text_of_key? {k : Datum} {key : Key} (known : key? k = some key)
    (named : (∃ s, k = .text s) ∨ (keyFault? k).isSome) : ∃ s, k = .text s ∧ key = .text s := by
  rcases named with ⟨s, rfl⟩ | fault
  · rw [key?_text] at known
    exact ⟨s, rfl, (Option.some.inj known).symm⟩
  · obtain ⟨f, fault⟩ := Option.isSome_iff_exists.mp fault
    rw [key?, fault] at known
    cases known

theorem keys_of_encodedFields {es : List (Datum × Datum)} {kvs : List (Key × Value)} (encoded : EncodedFields h first es kvs)
    (trees : AreFieldTrees es) : ∀ e ∈ kvs, isText e.2 = true ∧ ∃ s, e.1 = .text s ∧ .text s ∈ es.map Prod.fst := by
  induction es generalizing kvs with
  | nil =>
    obtain rfl := encoded
    intro e mem
    cases mem
  | cons e es ih =>
    obtain ⟨key, v, rest, rfl, known, one, others⟩ := encoded
    obtain ⟨named, tree, trees⟩ := trees
    intro e' mem
    rcases List.mem_cons.mp mem with rfl | mem
    · obtain ⟨s, is, rfl⟩ := eq_text_of_key? known named
      exact ⟨(seen_of_encoded one tree).2, s, rfl, is ▸ List.mem_cons_self ..⟩
    · obtain ⟨text, s, is, mem⟩ := ih others trees e' mem
      exact ⟨text, s, is, List.mem_cons_of_mem _ mem⟩

theorem text_inj {s s' : String} (same : Key.text s = .text s') : s = s' := by
  have texts := congrArg Bytes.toText? (Key.str.inj same)
  rw [Bytes.toText?_ofString, Bytes.toText?_ofString] at texts
  exact Option.some.inj texts

theorem nodup_of_encodedFields {es : List (Datum × Datum)} {kvs : List (Key × Value)} (encoded : EncodedFields h first es kvs)
    (trees : AreFieldTrees es) (distinct : Distinct es) : (kvs.map Prod.fst).Nodup := by
  induction es generalizing kvs with
  | nil =>
    obtain rfl := encoded
    exact .nil
  | cons e es ih =>
    obtain ⟨k, d⟩ := e
    obtain ⟨key, v, rest, rfl, known, _, others⟩ := encoded
    obtain ⟨named, _, trees⟩ := trees
    obtain ⟨s, rfl, rfl⟩ := eq_text_of_key? known named
    obtain ⟨apart, distinct'⟩ := List.pairwise_cons.mp distinct
    refine List.nodup_cons.mpr ⟨fun twice => ?_, ih others trees distinct'⟩
    obtain ⟨e, mem, same⟩ := List.mem_map.mp twice
    obtain ⟨_, s', is, listed⟩ := keys_of_encodedFields others trees e mem
    obtain ⟨e', mem', is'⟩ := List.mem_map.mp listed
    obtain rfl := text_inj (is.symm.trans same)
    have differs := apart e' mem'
    rw [is', sameKey, beq_self_eq_true] at differs
    cases differs

/-! ### Decoding -/

/-- A result that is as it should be, or a fault for a value with too many containers nested in it. -/
def Within {α : Type} (limit : Int) (fuel depth : Nat) (good : α → Prop) (r : Except Fault α) : Prop :=
  if depth ≤ fuel then ∃ a, r = .ok a ∧ good a else r = .error (nestingFault limit)

variable {α β : Type}

theorem Within.imp {depth : Nat} {good good' : α → Prop} {r : Except Fault α} (within : Within limit fuel depth good r)
    (better : ∀ a, good a → good' a) : Within limit fuel depth good' r := by
  unfold Within at *
  split at within
  next enough =>
    obtain ⟨a, is, fine⟩ := within
    rw [if_pos enough]
    exact ⟨a, is, better a fine⟩
  next deep =>
    rw [if_neg deep]
    exact within

theorem Within.bind {depth depth' : Nat} {good : α → Prop} {good' : β → Prop} {r : Except Fault α} {next : α → Except Fault β}
    (one : Within limit fuel depth good r) (others : ∀ a, good a → Within limit fuel depth' good' (next a)) :
    Within limit fuel (max depth depth') good' (r >>= next) := by
  unfold Within at *
  split at one
  next enough =>
    obtain ⟨a, rfl, fine⟩ := one
    have others := others a fine
    simp only [Nat.max_le, enough, true_and]
    exact others
  next deep =>
    rw [one, if_neg (by omega)]
    rfl

theorem Within.map {depth : Nat} {good : α → Prop} {good' : β → Prop} {r : Except Fault α} (f : α → β)
    (within : Within limit fuel depth good r) (better : ∀ a, good a → good' (f a)) :
    Within limit fuel depth good' (f <$> r) := by
  unfold Within at *
  split at within
  next enough =>
    obtain ⟨a, rfl, fine⟩ := within
    rw [if_pos enough]
    exact ⟨f a, rfl, better a fine⟩
  next deep =>
    rw [within, if_neg deep]
    rfl

/-- Results that are the same in some order, or both a certain fault. -/
def SameInOrder (fault : Fault) : Except Fault (List β) → Except Fault (List β) → Prop
  | .ok bs, .ok bs' => bs.Perm bs'
  | .error e, .error e' => e = fault ∧ e' = fault
  | _, _ => False

theorem exists_of_mapM_error {f : α → Except Fault β} {l : List α} {e : Fault} (failed : l.mapM f = .error e) :
    ∃ a ∈ l, f a = .error e := by
  induction l with
  | nil => cases failed
  | cons a l ih =>
    rw [List.mapM_cons] at failed
    cases first : f a with
    | error e' =>
      rw [first] at failed
      cases failed
      exact ⟨a, List.mem_cons_self .., first⟩
    | ok b =>
      rw [first] at failed
      cases others : l.mapM f with
      | error e' =>
        rw [others] at failed
        cases failed
        obtain ⟨a', mem, is⟩ := ih others
        exact ⟨a', List.mem_cons_of_mem _ mem, is⟩
      | ok bs =>
        rw [others] at failed
        cases failed

/-- The order of operations that fail in one way only does not matter. -/
theorem mapM_perm {f : α → Except Fault β} {fault : Fault} {l l' : List α} (perm : l.Perm l')
    (only : ∀ a ∈ l, ∀ e, f a = .error e → e = fault) : SameInOrder fault (l.mapM f) (l'.mapM f) := by
  induction perm with
  | nil => exact .nil
  | @cons a l l' _ ih =>
    have same := ih fun a mem => only a (List.mem_cons_of_mem _ mem)
    rw [List.mapM_cons, List.mapM_cons]
    cases first : f a with
    | error e => exact ⟨only a (List.mem_cons_self ..) e first, only a (List.mem_cons_self ..) e first⟩
    | ok b =>
      generalize l.mapM f = r at same
      generalize l'.mapM f = r' at same
      cases r <;> cases r'
      · exact same
      · exact same.elim
      · exact same.elim
      · exact List.Perm.cons b same
  | swap a a' l =>
    have one := only a' (List.mem_cons_self ..)
    have other := only a (List.mem_cons_of_mem _ (List.mem_cons_self ..))
    have rest {e : Fault} (failed : l.mapM f = .error e) : e = fault := by
      obtain ⟨a, mem, is⟩ := exists_of_mapM_error failed
      exact only a (List.mem_cons_of_mem _ (List.mem_cons_of_mem _ mem)) e is
    simp only [List.mapM_cons]
    cases first : f a with
    | error e =>
      cases second : f a' with
      | error e' => exact ⟨one e' second, other e first⟩
      | ok b' => exact ⟨other e first, other e first⟩
    | ok b =>
      cases second : f a' with
      | error e' => exact ⟨one e' second, one e' second⟩
      | ok b' =>
        cases others : l.mapM f with
        | error e => exact ⟨rest others, rest others⟩
        | ok bs => exact List.Perm.swap ..
  | trans perm _ ih ih' =>
    have left := ih only
    have right := ih' fun a mem => only a (perm.mem_iff.mpr mem)
    revert left right
    generalize List.mapM f _ = r₁
    generalize List.mapM f _ = r₂
    generalize List.mapM f _ = r₃
    intro left right
    cases r₁ <;> cases r₂ <;> cases r₃ <;> first | exact ⟨left.1, right.2⟩ | exact List.Perm.trans left right | exact left.elim | exact right.elim

theorem Within.perm {depth : Nat} {f : α → Except Fault β} {good : List β → Prop} {l l' : List α}
    (within : Within limit fuel depth good (l.mapM f)) (perm : l.Perm l')
    (only : ∀ a ∈ l, ∀ e, f a = .error e → e = nestingFault limit) :
    Within limit fuel depth (fun bs' => ∃ bs, good bs ∧ bs.Perm bs') (l'.mapM f) := by
  have same := mapM_perm perm only
  revert within same
  unfold Within
  generalize l.mapM f = r
  generalize l'.mapM f = r'
  intro within same
  split at within
  next enough =>
    obtain ⟨bs, rfl, fine⟩ := within
    rw [if_pos enough]
    cases r' with
    | error => exact same.elim
    | ok bs' => exact ⟨bs', rfl, bs, fine, same⟩
  next deep =>
    subst within
    rw [if_neg deep]
    cases r' with
    | error => rw [same.2]
    | ok => exact same.elim

theorem Within.error_eq {depth : Nat} {good : α → Prop} {r : Except Fault α} (within : Within limit fuel depth good r)
    {e : Fault} (failed : r = .error e) : e = nestingFault limit := by
  unfold Within at within
  split at within
  · obtain ⟨a, is, _⟩ := within
    cases failed.symm.trans is
  · exact Except.error.inj (failed.symm.trans within)

theorem Within.succ {depth : Nat} {good : α → Prop} {r : Except Fault α} (within : Within limit fuel depth good r) :
    Within limit (fuel + 1) (depth + 1) good r := by
  unfold Within at *
  simpa only [Nat.succ_le_succ_iff] using within

/-! ### Tables -/

theorem decodeFrom_of_scalar? {d : Datum} {v : Value} (seen : scalar? v = some d) (fuel : Nat) :
    decodeFrom h limit fuel v = .ok d := by
  have other : ∀ t, v ≠ .table t := by
    rintro t rfl
    cases seen
  rw [decodeFrom_eq_leaf other, leaf, seen]

/-- A table of list items is decoded as a list. -/
theorem decodeFrom_list {depth : Nat} {vs : List Value} {good : List Datum → Prop}
    (stands : Stands h first t (some Fixed.sequence) (itemAt vs)) (fits : isInt64 vs.length = true)
    (texts : ∀ v ∈ vs, isText v = true)
    (items : Within limit fuel depth good ((vs.filter present).mapM (decodeFrom h limit fuel))) :
    Within limit (fuel + 1) (depth + 1) (fun d => ∃ ds, d = .list ds ∧ good ds) (decodeFrom h limit (fuel + 1) (.table t)) := by
  obtain ⟨values, each⟩ := values_of_itemAt fits stands.get
  have each' : ∀ e ∈ (h.table t).enumerate, isInt e.1 = true ∧ e.2 ∈ vs := fun e mem =>
    each e ((h.table t).enumerate_perm.mem_iff.mp mem)
  have checked : checkEntries h (h.table t).enumerate = .ok () := checkEntries_eq_ok.mpr fun e mem => by
    obtain ⟨int, mem⟩ := each' e mem
    refine ⟨?_, texts _ mem, ?_⟩
    all_goals
      cases key : e.1 with
      | int i => rfl
      | _ => rw [key] at int; cases int
  have listed : isListed h t = true := by
    have keys : ((h.table t).enumerate.map (·.1)).all isInt = true := by
      rw [List.all_map]
      exact List.all_eq_true.mpr fun e mem => (each' e mem).1
    rw [isListed, Heap.isMarked, stands.metatable, keys]
    rfl
  rw [decodeFrom_table, checked, listed, if_pos rfl, values]
  exact items.succ.map Datum.list fun ds fine => ⟨ds, rfl, fine⟩

/-- A table without a metatable whose keys are texts is decoded as a mapping. -/
theorem decodeFrom_mapping {depth : Nat} {kvs : List (Key × Value)} {good : List (Datum × Datum) → Prop}
    (stands : Stands h first t none (lastAt kvs)) (nodup : (kvs.map Prod.fst).Nodup)
    (texts : ∀ e ∈ kvs, isText e.2 = true ∧ ∃ s, e.1 = .text s)
    (entries : Within limit fuel depth good ((kvs.filter fun e => present e.2).mapM (decodeField h limit fuel)))
    (only : ∀ e ∈ kvs, ∀ f, decodeField h limit fuel e = .error f → f = nestingFault limit)
    (distinct : ∀ es, good es → Distinct es) :
    Within limit (fuel + 1) (depth + 1) (fun d => ∃ es es', d = .mapping es' ∧ good es ∧ es.Perm es')
      (decodeFrom h limit (fuel + 1) (.table t)) := by
  have perm := entries_of_lastAt nodup stands.get
  have each : ∀ e ∈ (h.table t).enumerate, isText e.2 = true ∧ ∃ s, e.1 = .text s := fun e mem =>
    texts e (List.mem_filter.mp (perm.mem_iff.mpr mem)).1
  have checked : checkEntries h (h.table t).enumerate = .ok () := checkEntries_eq_ok.mpr fun e mem => by
    obtain ⟨text, s, key⟩ := each e mem
    rw [key]
    exact ⟨congrArg Option.isSome (Bytes.toText?_ofString s), text, rfl⟩
  have unlisted : isListed h t = false := by
    rw [isListed, Heap.isMarked, stands.metatable]
    cases listed : (h.table t).enumerate with
    | nil => rfl
    | cons e es =>
      obtain ⟨_, s, key⟩ := each e (listed ▸ List.mem_cons_self ..)
      rw [List.map_cons, key]
      rfl
  rw [decodeFrom_table, checked, unlisted, if_neg Bool.false_ne_true]
  refine (entries.perm perm fun e mem => only e (List.mem_filter.mp mem).1).succ.map Datum.ofPairs ?_
  rintro es' ⟨es, fine, same⟩
  exact ⟨es, es', Datum.ofPairs_of_distinct ((distinct es fine).perm same), fine, same⟩

/-! ### Mappings that come out -/

theorem exists_of_mem_mapM {f : α → VmM β} {l : List α} {bs : List β} {vm vm' : Vm} (done : l.mapM f vm = .ok bs vm')
    {b : β} (mem : b ∈ bs) : ∃ a ∈ l, ∃ vm₁ vm₂, f a vm₁ = .ok b vm₂ := by
  induction l generalizing bs vm with
  | nil =>
    cases done
    cases mem
  | cons a l ih =>
    rw [List.mapM_cons] at done
    obtain ⟨b', vm₁, first, done⟩ := bind_eq_ok.mp done
    obtain ⟨bs', vm₂, others, done⟩ := bind_eq_ok.mp done
    cases done
    rcases List.mem_cons.mp mem with rfl | mem
    · exact ⟨a, List.mem_cons_self .., _, _, first⟩
    · obtain ⟨a', mem', is⟩ := ih others mem
      exact ⟨a', List.mem_cons_of_mem _ mem', is⟩

theorem leaf_ne_mapping (h : Heap) (v : Value) (es : List (Datum × Datum)) : leaf h v ≠ .ok (.mapping es) := by
  intro done
  rw [leaf] at done
  split at done
  next d seen =>
    cases done
    cases v with
    | str b =>
      obtain ⟨s, _, is⟩ := Option.map_eq_some_iff.mp seen
      cases is
    | _ => cases seen
  next => cases done
  next => cases done

/-- A mapping that comes out has each key once, and its values come out of values. -/
theorem mapping_of_decodeNested {g : Heap} {v : Value} {es : List (Datum × Datum)} {vm vm' : Vm}
    (done : decodeNested limit fuel g v vm = .ok (.mapping es) vm') :
    Distinct es ∧ ∀ e ∈ es, ∃ fuel' g' v' vm₁ vm₂, decodeNested limit fuel' g' v' vm₁ = .ok e.2 vm₂ := by
  by_cases table : ∃ t, v = .table t
  · obtain ⟨t, rfl⟩ := table
    cases fuel with
    | zero => cases done
    | succ fuel =>
      rw [decodeNested_table] at done
      obtain ⟨_, vm₁, _, done⟩ := bind_eq_ok.mp done
      obtain ⟨marked, vm₂, _, done⟩ := bind_eq_ok.mp done
      change (if _ then _ else _ : VmM Datum) _ = _ at done
      split at done
      · obtain ⟨ds, vm₃, _, done⟩ := bind_eq_ok.mp done
        cases done
      · obtain ⟨pairs, vm₃, listed, done⟩ := bind_eq_ok.mp done
        cases done
        refine ⟨distinct_insertAll .nil _, fun e mem => ?_⟩
        obtain ⟨e', mem', is⟩ := value_of_mem_insertAll mem
        obtain ⟨a, _, vm₄, vm₅, field⟩ := exists_of_mem_mapM listed mem'
        obtain ⟨d, vm₆, value, field⟩ := bind_eq_ok.mp field
        cases field
        obtain rfl : d = e.2 := is
        exact ⟨fuel, _, a.2, vm₄, vm₅, value⟩
  · rw [decodeNested_eq_leaf fun t is => table ⟨t, is⟩] at done
    cases read : leaf g v with
    | error f =>
      rw [read] at done
      cases done
    | ok d =>
      rw [read] at done
      cases done
      exact absurd read (leaf_ne_mapping g v es)

/-- So have the private entries of a mapping that comes out. -/
theorem distinct_slotOf {g : Heap} {v : Value} {es : List (Datum × Datum)} {vm vm' : Vm}
    (done : decodeNested limit fuel g v vm = .ok (.mapping es) vm') : Distinct (Private.slotOf es) := by
  rw [Private.slotOf]
  split
  next slot found =>
    obtain ⟨k, _, mem⟩ := Datum.mem_of_lookup found
    obtain ⟨fuel', g', v', vm₁, vm₂, done'⟩ := (mapping_of_decodeNested done).2 _ mem
    exact (mapping_of_decodeNested done').1
  next => exact .nil

/-! ### Encoded values are not disguised -/

theorem mem_of_itemAt {vs : List Value} {k : Key} (there : itemAt vs k ≠ .nil) : itemAt vs k ∈ vs := by
  unfold itemAt at *
  split at there
  next i =>
    split at there
    next positive =>
      rw [List.getD_eq_getElem?_getD] at *
      cases found : vs[i.toInt.toNat - 1]? with
      | none =>
        rw [found] at there
        exact absurd rfl there
      | some v =>
        rw [if_pos positive]
        exact List.mem_of_getElem? found
    next => exact absurd rfl there
  next => exact absurd rfl there

theorem mem_of_lastAt {kvs : List (Key × Value)} {k : Key} (there : lastAt kvs k ≠ .nil) : (k, lastAt kvs k) ∈ kvs := by
  induction kvs using List.reverseRecOn with
  | nil => exact absurd rfl there
  | append_singleton kvs e ih =>
    rw [lastAt_concat] at *
    split at there
    next same =>
      rw [if_pos same, ← same]
      exact List.mem_append_right _ (List.mem_singleton_self e)
    next other =>
      rw [if_neg other]
      exact List.mem_append_left _ (ih there)

theorem EncodedAll.exists_of_mem {ds : List Datum} {vs : List Value} (encoded : EncodedAll h first ds vs) {v : Value}
    (mem : v ∈ vs) : ∃ d, Encoded h first d v := by
  induction ds generalizing vs with
  | nil =>
    obtain rfl := encoded
    cases mem
  | cons d ds ih =>
    obtain ⟨v', rest, rfl, one, others⟩ := encoded
    rcases List.mem_cons.mp mem with rfl | mem
    · exact ⟨d, one⟩
    · exact ih others mem

theorem EncodedFields.exists_of_mem {es : List (Datum × Datum)} {kvs : List (Key × Value)}
    (encoded : EncodedFields h first es kvs) {e : Key × Value} (mem : e ∈ kvs) : ∃ d, Encoded h first d e.2 := by
  induction es generalizing kvs with
  | nil =>
    obtain rfl := encoded
    cases mem
  | cons f es ih =>
    obtain ⟨key, v, rest, rfl, _, one, others⟩ := encoded
    rcases List.mem_cons.mp mem with rfl | mem
    · exact ⟨f.2, one⟩
    · exact ih others mem

theorem ne_table_of_scalar {d : Datum} {v : Value} (entered : scalar d = .ok v) (t : Nat) : v ≠ .table t := by
  rintro rfl
  cases d with
  | int i =>
    rw [scalar] at entered
    cases inside : isInt64 i <;> rw [inside] at entered <;> cases entered
  | _ => cases entered

/-- An encoded value is made of new tables, which have the metatable of lists or none. -/
theorem candid_of_encoded {d : Datum} {v : Value} (encoded : Encoded h first d v) (fuel : Nat) : Candid h fuel v := by
  induction fuel generalizing d v first with
  | zero => exact fun t n _ less => absurd less (Nat.not_lt_zero n)
  | succ fuel ih =>
    have items {ds : List Datum} (encoded : ∃ t vs, v = .table t ∧ EncodedAll h (t + 1) ds vs ∧
        Stands h first t (some Fixed.sequence) (itemAt vs)) : Candid h (fuel + 1) v := by
      obtain ⟨t, vs, rfl, each, stands⟩ := encoded
      refine candid_table ?_ fun k there => ?_
      · rintro ⟨m, own, other, _⟩
        exact other (Option.some.inj (own.symm.trans stands.metatable))
      · rw [stands.get] at *
        obtain ⟨d, one⟩ := each.exists_of_mem (mem_of_itemAt there)
        exact ih one
    cases d with
    | list ds => exact items encoded
    | tuple ds => exact items encoded
    | mapping es =>
      obtain ⟨t, kvs, rfl, each, stands⟩ := encoded
      refine candid_table ?_ fun k there => ?_
      · rintro ⟨m, own, _⟩
        cases own.symm.trans stands.metatable
      · rw [stands.get] at *
        obtain ⟨d, one⟩ := each.exists_of_mem (mem_of_lastAt there)
        exact ih one
    | _ => exact candid_of_ne_table (ne_table_of_scalar encoded)

/-! ### Passages -/

theorem within_table {v : Value} {depth : Nat} {good : Datum → Prop} (table : v = .table t)
    (inside : ∀ fuel, Within limit (fuel + 1) (depth + 1) good (decodeFrom h limit (fuel + 1) (.table t))) (fuel : Nat) :
    Within limit fuel (depth + 1) good (decodeFrom h limit fuel v) := by
  subst table
  cases fuel with
  | zero => exact (if_neg (Nat.not_succ_le_zero _)).mpr rfl
  | succ fuel => exact inside fuel

theorem within_scalar {d : Datum} {v : Value} (encoded : scalar d = .ok v) (tree : IsTree d) (flat : depth d = 0)
    (same : Agrees (cleaned d) d) (fuel : Nat) : Within limit fuel (depth d) (Agrees (cleaned d)) (decodeFrom h limit fuel v) := by
  rw [Within, flat, if_pos (Nat.zero_le _)]
  exact ⟨d, decodeFrom_of_scalar? (scalar?_of_scalar tree encoded) fuel, same⟩

mutual

/-- What was encoded is decoded to its clean form. -/
theorem decodeFrom_spec : ∀ {d : Datum} {v : Value} {first : Nat}, Encoded h first d v → IsTree d →
    ∀ fuel, Within limit fuel (depth d) (Agrees (cleaned d)) (decodeFrom h limit fuel v)
  | .list _, _, _, ⟨_, _, table, each, stands⟩, ⟨trees, fits⟩ => within_table table fun fuel =>
    decodeFrom_list stands (each.length_eq ▸ fits) (isText_of_encodedAll each trees) (decodeAll_spec each trees fuel)
  | .tuple _, _, _, ⟨_, _, table, each, stands⟩, ⟨trees, fits⟩ => within_table table fun fuel =>
    decodeFrom_list stands (each.length_eq ▸ fits) (isText_of_encodedAll each trees) (decodeAll_spec each trees fuel)
  | .mapping _, _, _, ⟨_, _, table, each, stands⟩, ⟨trees, distinct⟩ => within_table table fun fuel =>
    (decodeFrom_mapping stands (nodup_of_encodedFields each trees distinct)
      (fun e mem => ⟨(keys_of_encodedFields each trees e mem).1, (keys_of_encodedFields each trees e mem).2.imp fun _ is => is.1⟩)
      (decodeFields_spec each trees fuel).1 (decodeFields_spec each trees fuel).2
      fun _ agree => agree.distinct (distinct_cleanedFields distinct)).imp
      fun _ ⟨es, es', is, agree, perm⟩ => ⟨es, es', is, agree, perm⟩
  | .null, _, _, encoded, tree => within_scalar encoded tree rfl rfl
  | .bool _, _, _, encoded, tree => within_scalar encoded tree rfl rfl
  | .int _, _, _, encoded, tree => within_scalar encoded tree rfl rfl
  | .float _, _, _, encoded, tree => within_scalar encoded tree rfl rfl
  | .text _, _, _, encoded, tree => within_scalar encoded tree rfl rfl

theorem decodeAll_spec : ∀ {ds : List Datum} {vs : List Value} {first : Nat}, EncodedAll h first ds vs → AreTrees ds →
    ∀ fuel, Within limit fuel (depths ds) (Agree (cleanedAll ds)) ((vs.filter present).mapM (decodeFrom h limit fuel))
  | [], _, _, rfl, _ => fun _ => (if_pos (Nat.zero_le _)).mpr ⟨[], rfl, rfl⟩
  | d :: ds, _, _, ⟨v, rest, rfl, one, others⟩, ⟨tree, trees⟩ => fun fuel => by
    have items := decodeAll_spec others trees fuel
    rw [List.filter_cons, (seen_of_encoded one tree).1, cleanedAll, depths]
    cases null : d.isNull with
    | true =>
      rw [depth_of_isNull null, Nat.zero_max]
      exact items
    | false =>
      rw [if_pos Bool.not_false, if_neg Bool.false_ne_true, List.mapM_cons]
      refine (decodeFrom_spec one tree fuel).bind fun d' agrees => ?_
      exact items.map (d' :: ·) fun ds' agree => ⟨d', ds', rfl, agrees, agree⟩

theorem decodeFields_spec : ∀ {es : List (Datum × Datum)} {kvs : List (Key × Value)} {first : Nat},
    EncodedFields h first es kvs → AreFieldTrees es → ∀ fuel,
    Within limit fuel (fieldDepths es) (FieldsAgree (cleanedFields es))
        ((kvs.filter fun e => present e.2).mapM (decodeField h limit fuel)) ∧
      ∀ e ∈ kvs, ∀ f, decodeField h limit fuel e = .error f → f = nestingFault limit
  | [], _, _, rfl, _ => fun _ => ⟨(if_pos (Nat.zero_le _)).mpr ⟨[], rfl, rfl⟩, List.forall_mem_nil _⟩
  | (k, d) :: es, _, _, ⟨key, v, rest, rfl, known, one, others⟩, ⟨named, tree, trees⟩ => fun fuel => by
    obtain ⟨entries, only⟩ := decodeFields_spec others trees fuel
    have value := decodeFrom_spec one tree fuel
    obtain ⟨s, rfl, rfl⟩ := eq_text_of_key? known named
    have field : decodeField h limit fuel (.text s, v) = (.text s, ·) <$> decodeFrom h limit fuel v := by
      rw [decodeField, show scalar? (Key.text s).value = some (.text s) from scalar?_of_scalar (d := .text s) trivial rfl]
      cases decodeFrom h limit fuel v <;> rfl
    have entry : Within limit fuel (depth d) (fun e => ∃ d', e = (.text s, d') ∧ Agrees (cleaned d) d')
        (decodeField h limit fuel (.text s, v)) := by
      rw [field]
      exact value.map _ fun d' agrees => ⟨d', rfl, agrees⟩
    refine ⟨?_, List.forall_mem_cons.mpr ⟨fun f failed => entry.error_eq failed, only⟩⟩
    rw [List.filter_cons, (seen_of_encoded one tree).1, cleanedFields, fieldDepths]
    cases null : d.isNull with
    | true =>
      rw [depth_of_isNull null, Nat.zero_max]
      exact entries
    | false =>
      rw [if_pos Bool.not_false, if_neg Bool.false_ne_true, List.mapM_cons]
      refine entry.bind ?_
      rintro _ ⟨d', rfl, agrees⟩
      exact entries.map (fun es' => (Datum.text s, d') :: es') fun es' agree => ⟨d', es', rfl, agrees, agree⟩

end

end Codec

end LuaCapsule
