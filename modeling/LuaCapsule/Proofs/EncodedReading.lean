import LuaCapsule.Proofs.HostRuns
import LuaCapsule.Proofs.JsonValues
import LuaCapsule.Snapshot.Unchecked
import Mathlib.Algebra.Group.Nat.Defs

/-! Reading what was encoded. While the tables of an encoded value are left alone and lists answer for
themselves, a field of it is what the field of the value became, and a loop over it meets what its
items became, one after the other. -/

namespace LuaCapsule

open Lua

namespace Datum

theorem AreTrees.item : ∀ {ds : List Datum}, AreTrees ds → ∀ d ∈ ds, IsTree d
  | [], _ => nofun
  | d :: ds, ⟨tree, trees⟩ => by
    simp only [List.mem_cons, forall_eq_or_imp]
    exact ⟨tree, trees.item⟩

theorem AreFieldTrees.item {es : List (Datum × Datum)} (trees : AreFieldTrees es) : ∀ e ∈ es, IsTree e.2 := by
  induction es with
  | nil => exact fun e mem => absurd mem List.not_mem_nil
  | cons e es ih =>
    obtain ⟨_, tree, others⟩ := trees
    exact List.forall_mem_cons.mpr ⟨tree, ih others⟩

theorem IsTree.value {es : List (Datum × Datum)} (tree : IsTree (.mapping es)) {k d : Datum} (found : lookup k es = some d) :
    IsTree d := by
  obtain ⟨k', _, mem⟩ := mem_of_lookup found
  exact AreFieldTrees.item tree.1 (k', d) mem

end Datum

namespace Codec

/-- A heap that has the tables of an encoded value from a number on, and in which the metatable of
lists answers for no index. -/
structure Keeps (h₀ : Heap) (first : Nat) (h : Heap) : Prop where
  size : h₀.tables.size ≤ h.tables.size
  table : ∀ t, first ≤ t → t < h₀.tables.size → h.table t = h₀.table t
  quiet : (h.table Fixed.sequence).get (.text "__index") = .nil

/-- What the field of a mapping became, if there is one. -/
def FieldOf (h : Heap) (first : Nat) (d : Option Datum) (v : Value) : Prop :=
  match d with
  | none => v = .nil
  | some d => Encoded h first d v

variable {h₀ h : Heap} {first t : Nat} {ds : List Datum} {es : List (Datum × Datum)} {v : Value}

/-- The table of an encoded value answers for its keys itself if its metatable does not. -/
theorem Stands.index_of_silent {m : Option Nat} {get : Key → Value} (stands : Stands h₀ first t m get) (same : h.table t = h₀.table t)
    (silent : h.metamethod (.table t) "__index" = .nil) (k : Value) :
    h.index (.table t) k = .value (((Key.ofValue? k).map get).getD .nil) := by
  rw [Heap.index_eq_raw silent, Heap.rawGet, same]
  cases Key.ofValue? k with
  | none => rfl
  | some key => exact congrArg Outcome.value (stands.get key)

theorem Stands.index {m : Option Nat} {get : Key → Value} (stands : Stands h₀ first t m get) (keeps : Keeps h₀ first h)
    (mark : m = none ∨ m = some Fixed.sequence) (k : Value) :
    h.index (.table t) k = .value (((Key.ofValue? k).map get).getD .nil) := by
  have same := keeps.table t stands.first stands.inside
  refine stands.index_of_silent same ?_ k
  obtain rfl | rfl := mark
  · exact Heap.metamethod_of_bare (same ▸ stands.metatable) _
  · have list : h.IsList t := by rw [Heap.IsList, same, stands.metatable]
    exact (list.metamethod_eq _).trans keeps.quiet

/-! ### Items -/

theorem itemAt_ofNat (vs : List Value) {i : Nat} (small : i < 2 ^ 63 - 1) :
    itemAt vs (.int (Int64.ofNat (i + 1))) = vs.getD i .nil := by
  have place : (Int64.ofNat (i + 1)).toInt = (i + 1 : Nat) := Int64.toInt_ofNat_of_lt (by omega)
  rw [itemAt, place, if_pos (by omega)]
  rfl

theorem index_item (encoded : Encoded h₀ first (.list ds) v) : ∃ vs, EncodedAll h₀ first ds vs ∧
    ∀ h, Keeps h₀ first h → ∀ i < 2 ^ 63 - 1, h.index v (.ofNat (i + 1)) = .value (vs.getD i .nil) := by
  obtain ⟨t, vs, rfl, each, stands⟩ := encoded
  refine ⟨vs, each.below (Nat.le_succ_of_le stands.first), fun h keeps i small => ?_⟩
  rw [stands.index keeps (.inr rfl)]
  exact congrArg Outcome.value (itemAt_ofNat vs small)

theorem EncodedAll.get : ∀ {ds : List Datum} {vs : List Value}, EncodedAll h first ds vs → ∀ {i : Nat} {d : Datum},
    ds[i]? = some d → ∃ v, vs[i]? = some v ∧ Encoded h first d v
  | [], _, _, _, _, here => by cases here
  | _ :: _, _, ⟨v, rest, rfl, one, others⟩, 0, _, here => ⟨v, rfl, by cases here; exact one⟩
  | _ :: _, _, ⟨_, _, rfl, _, others⟩, _ + 1, _, here => others.get here

/-! ### Fields -/

theorem EncodedFields.value_of_mem : ∀ {es : List (Datum × Datum)} {kvs : List (Key × Value)}, EncodedFields h first es kvs →
    ∀ {k d : Datum}, (k, d) ∈ es → ∃ key v, key? k = some key ∧ (key, v) ∈ kvs ∧ Encoded h first d v
  | [], _, _, _, _, mem => by cases mem
  | _ :: _, _, ⟨key, v, rest, rfl, known, one, others⟩, _, _, mem => by
    obtain same | mem := List.mem_cons.mp mem
    · cases same
      exact ⟨key, v, known, List.mem_cons_self, one⟩
    · obtain ⟨key', v', known', mem', encoded⟩ := others.value_of_mem mem
      exact ⟨key', v', known', List.mem_cons_of_mem _ mem', encoded⟩

theorem EncodedFields.below {first' : Nat} (le : first' ≤ first) {es : List (Datum × Datum)} {kvs : List (Key × Value)}
    (encoded : EncodedFields h first es kvs) : EncodedFields h first' es kvs := by
  induction es generalizing kvs with
  | nil => exact encoded
  | cons e es ih =>
    obtain ⟨key, v, rest, is, known, one, others⟩ := encoded
    exact ⟨key, v, rest, is, known, one.below le, ih others⟩

/-- Under a name is what the value under it became, or nil if there is none. -/
theorem fieldOf_lastAt {kvs : List (Key × Value)} (encoded : EncodedFields h first es kvs) (tree : Datum.IsTree (.mapping es))
    (name : String) : FieldOf h first (Datum.lookup (.text name) es) (lastAt kvs (.text name)) := by
  obtain ⟨trees, distinct⟩ := tree
  cases found : Datum.lookup (.text name) es with
  | some d =>
    obtain ⟨k, same, mem⟩ := Datum.mem_of_lookup found
    obtain ⟨key, v, known, mem', value⟩ := encoded.value_of_mem mem
    obtain rfl := Datum.eq_of_sameKey_text (Datum.sameKey_comm k _ ▸ same)
    obtain rfl := Option.some.inj known
    have last : lastAt kvs (.text name) = v := lastAt_of_mem (nodup_of_encodedFields encoded trees distinct) mem'
    show Encoded h first d (lastAt kvs (.text name))
    rw [last]
    exact value
  | none =>
    refine lastAt_of_notMem fun mem => ?_
    obtain ⟨e, mem, is⟩ := List.mem_map.mp mem
    obtain ⟨_, s, is', listed⟩ := keys_of_encodedFields encoded trees e mem
    obtain rfl := text_inj (is.symm.trans is')
    obtain ⟨e', mem', key⟩ := List.mem_map.mp listed
    have other := Datum.lookup_eq_none.mp found e' mem'
    rw [key, Datum.sameKey, beq_self_eq_true] at other
    cases other

theorem index_field (encoded : Encoded h₀ first (.mapping es) v) (tree : Datum.IsTree (.mapping es)) (name : String) :
    ∃ w, FieldOf h₀ first (Datum.lookup (.text name) es) w ∧ ∀ h, Keeps h₀ first h → h.index v (.text name) = .value w := by
  obtain ⟨t, kvs, rfl, each, stands⟩ := encoded
  refine ⟨_, fieldOf_lastAt (each.below (Nat.le_succ_of_le stands.first)) tree name, fun h keeps => ?_⟩
  exact stands.index keeps (.inl rfl) _

end Codec

end LuaCapsule
