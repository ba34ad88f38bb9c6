import LuaCapsule.Lua.Value
import Std.Data.TreeMap

/-! The order of keys is linear: keys that compare as equal are equal, and comparison is
transitive, also between integers and doubles. Every key is placed by its kind, its number, its
bytes and its reference, each of which is linearly ordered. -/

namespace LuaCapsule

namespace Bytes

theorem compare_byte (c d : UInt8) :
    compare c d = if c < d then .lt else if d < c then .gt else .eq := by
  change compareOfLessAndEq c d = _
  unfold compareOfLessAndEq
  by_cases lt : c < d
  · rw [if_pos lt, if_pos lt]
  · by_cases eq : c = d
    · subst eq
      rw [if_neg lt, if_pos rfl, if_neg lt, if_neg lt]
    · have gt : d < c := by
        rw [UInt8.lt_iff_toNat_lt] at lt ⊢
        rw [← UInt8.toNat_inj] at eq
        omega
      rw [if_neg lt, if_neg eq, if_neg lt, if_pos gt]

theorem compareFrom_eq {a b : Bytes} {fuel i : Nat} (ha : i ≤ a.size) (hb : i ≤ b.size)
    (enough : min a.size b.size < fuel + i) :
    compareFrom a b fuel i = compare (a.data.toList.drop i) (b.data.toList.drop i) := by
  induction fuel generalizing i with
  | zero => omega
  | succ fuel ih =>
    have tail {s : Bytes} (h : i < s.size) : s.data.toList.drop i = s[i] :: s.data.toList.drop (i + 1) :=
      List.drop_eq_getElem_cons (l := s.data.toList) h
    have done {s : Bytes} (h : ¬ i < s.size) : s.data.toList.drop i = [] := by
      rw [List.drop_eq_nil_iff]
      exact Nat.le_of_not_lt h
    rw [compareFrom]
    split
    next ha =>
      rw [tail ha]
      split
      next hb =>
        rw [tail hb, List.compare_cons_cons, ih ha hb (by omega), compare_byte]
        split
        · rfl
        · split <;> rfl
      next hb =>
        rw [done hb]
        rfl
    next ha =>
      rw [done ha]
      split
      next hb =>
        rw [tail hb]
        rfl
      next hb =>
        rw [done hb]
        rfl

theorem cmp_eq (a b : Bytes) : cmp a b = compare a.data.toList b.data.toList := by
  rw [cmp, compareFrom_eq (Nat.zero_le _) (Nat.zero_le _) (by omega)]
  rfl

theorem toList_inj {a b : Bytes} : a.data.toList = b.data.toList ↔ a = b := by
  rw [Array.toList_inj]
  exact ⟨fun h => ByteArray.ext h, congrArg _⟩

end Bytes

namespace Lua

namespace Native

theorem rank_inj {f g : Native} : f.rank = g.rank ↔ f = g := by
  refine ⟨fun h => ?_, congrArg _⟩
  cases f <;> cases g <;> simp only [rank, Prod.mk.injEq, Nat.reduceEqDiff, false_and, true_and] at h
  case base.base f g => rw [← f.ofNat_ctorIdx, h, g.ofNat_ctorIdx]
  case coroutine.coroutine f g => rw [← f.ofNat_ctorIdx, h, g.ofNat_ctorIdx]
  case debug.debug f g => rw [← f.ofNat_ctorIdx, h, g.ofNat_ctorIdx]
  case stream.stream f g => rw [← f.ofNat_ctorIdx, h, g.ofNat_ctorIdx]
  case math.math f g => rw [← f.ofNat_ctorIdx, h, g.ofNat_ctorIdx]
  case system.system f g => rw [← f.ofNat_ctorIdx, h, g.ofNat_ctorIdx]
  case package.package f g => rw [← f.ofNat_ctorIdx, h, g.ofNat_ctorIdx]
  case searcher.searcher => rw [h]
  case string.string f g => rw [← f.ofNat_ctorIdx, h, g.ofNat_ctorIdx]
  case table.table f g => rw [← f.ofNat_ctorIdx, h, g.ofNat_ctorIdx]
  case utf8.utf8 f g => rw [← f.ofNat_ctorIdx, h, g.ofNat_ctorIdx]
  case stringArith.stringArith f g => rw [← f.ofNat_ctorIdx, h, g.ofNat_ctorIdx]
  case handle.handle f g => rw [← f.ofNat_ctorIdx, h, g.ofNat_ctorIdx]
  case codesStep.codesStep a b => cases a <;> cases b <;> first | rfl | cases h
  case gmatchStep.gmatchStep => rw [h]
  case wrapped.wrapped => rw [h]
  all_goals rfl

end Native

namespace Ref

theorem rank_inj {a b : Ref} : a.rank = b.rank ↔ a = b := by
  cases a <;> cases b <;> simp [rank, Native.rank_inj]

theorem cmp_eq : cmp = compareLex (compareOn fun r : Ref => r.rank.1)
    (compareLex (compareOn fun r => r.rank.2.1) (compareOn fun r => r.rank.2.2)) :=
  rfl

instance : Std.TransCmp cmp := by
  rw [cmp_eq]
  infer_instance

instance : Std.LawfulEqCmp cmp where
  eq_of_compare {a b} h := by
    rw [cmp_eq, compareLex_eq_eq, compareLex_eq_eq] at h
    obtain ⟨h, h', h''⟩ := h
    rw [← rank_inj]
    exact Prod.ext (Nat.compare_eq_eq.mp h) (Prod.ext (Nat.compare_eq_eq.mp h') (Nat.compare_eq_eq.mp h''))

end Ref

namespace Key

/-- The number of a key that is one, in units; truth values count as zero and one. -/
def number : Key → Int
  | bool b => b.toNat
  | int i => i.toInt * Binary64.one
  | float x _ => x.units
  | str _ => 0
  | ref _ => 0

def bytes : Key → List UInt8
  | str s => s.data.toList
  | _ => []

def reference : Key → Ref
  | ref r => r
  | _ => default

theorem compare_units_int (x : Binary64) (i : Int64) :
    x.compareInt i.toInt = compare x.units (i.toInt * Binary64.one) :=
  Binary64.compareInt_eq x (Binary64.natAbs_toInt_le i)

theorem cmp_eq : cmp = compareLex (compareOn kind) (compareLex (compareOn number)
    (compareLex (compareOn bytes) fun a b => Ref.cmp a.reference b.reference)) := by
  have pos : (0 : Int) < Binary64.one := Int.natCast_pos.mpr Binary64.one_pos
  funext a b
  cases a with
  | bool a =>
    cases b with
    | bool b => cases a <;> cases b <;> rfl
    | _ => rfl
  | int a =>
    cases b with
    | int b =>
      change compare a.toInt b.toInt = (compare (a.toInt * _) (b.toInt * _)).then .eq
      rw [Ordering.then_eq, Binary64.compare_mul_right pos]
    | float b _ =>
      change (b.compareInt a.toInt).swap = (compare _ _).then .eq
      rw [Ordering.then_eq, compare_units_int]
      exact Std.OrientedCmp.eq_swap.symm
    | _ => rfl
  | float a _ =>
    cases b with
    | int b =>
      change a.compareInt b.toInt = (compare _ _).then .eq
      rw [Ordering.then_eq, compare_units_int]
      rfl
    | float b _ =>
      change compare a.orderKey b.orderKey = (compare _ _).then .eq
      rw [Ordering.then_eq, Binary64.compare_orderKey]
      rfl
    | _ => rfl
  | str a =>
    cases b with
    | str b =>
      change Bytes.cmp a b = (compare _ _).then .eq
      rw [Ordering.then_eq, Bytes.cmp_eq]
      rfl
    | _ => rfl
  | ref a =>
    cases b <;> rfl

instance : Std.TransCmp cmp := by
  have references : Std.TransCmp fun a b : Key => Ref.cmp a.reference b.reference :=
    { eq_swap := Std.OrientedCmp.eq_swap
      isLE_trans := Std.TransCmp.isLE_trans }
  rw [cmp_eq]
  infer_instance

instance : Std.LawfulEqCmp cmp where
  eq_of_compare {a b} h := by
    rw [cmp_eq, compareLex_eq_eq, compareLex_eq_eq, compareLex_eq_eq] at h
    obtain ⟨kinds, numbers, bytes, references⟩ := h
    replace kinds : a.kind = b.kind := Nat.compare_eq_eq.mp kinds
    replace numbers : a.number = b.number := Std.LawfulEqCmp.eq_of_compare numbers
    replace bytes : a.bytes = b.bytes := Std.LawfulEqCmp.eq_of_compare bytes
    replace references : a.reference = b.reference := Std.LawfulEqCmp.eq_of_compare references
    have pos : (0 : Int) < Binary64.one := Int.natCast_pos.mpr Binary64.one_pos
    cases a with
    | bool a =>
      cases b with
      | bool b => cases a <;> cases b <;> simp [number] at numbers <;> rfl
      | _ => simp [kind] at kinds
    | int a =>
      cases b with
      | int b =>
        rw [Int64.toInt_inj.mp (Int.eq_of_mul_eq_mul_right (by omega) numbers)]
      | float b own => exact absurd numbers.symm (Binary64.units_ne_of_isKey own a)
      | _ => simp [kind] at kinds
    | float a own =>
      cases b with
      | int b => exact absurd numbers (Binary64.units_ne_of_isKey own b)
      | float b _ =>
        obtain rfl := Binary64.eq_of_units own numbers
        rfl
      | _ => simp [kind] at kinds
    | str a =>
      cases b with
      | str b => rw [Bytes.toList_inj.mp bytes]
      | _ => simp [kind] at kinds
    | ref a =>
      cases b with
      | ref b => exact congrArg Key.ref references
      | _ => simp [kind] at kinds

end Key

end Lua

end LuaCapsule
