import LuaCapsule.Proofs.Graph
import Mathlib.Data.List.Nodup

/-! Paths name library values: every value with a path is found by it, so that no two values
share one. What a library table with a path holds at the beginning has a path as well. -/

namespace LuaCapsule.Lua.Fixed

theorem mem_library {f : Native} {p : String} (path : f.path? = some p) : f ∈ Native.library := by
  cases f with
  | searcher i =>
    have bound : 1 ≤ i ∧ i ≤ 4 := by
      rw [Native.path?] at path
      by_cases inside : (decide (1 ≤ i) && decide (i ≤ 4)) = true
      · simpa using inside
      · rw [if_neg inside] at path
        cases path
    have cases : i = 1 ∨ i = 2 ∨ i = 3 ∨ i = 4 := by omega
    rcases cases with rfl | rfl | rfl | rfl <;> decide
  | base f => cases f <;> decide
  | coroutine f => cases f <;> decide
  | debug f => cases f <;> decide
  | stream f => cases f <;> decide
  | math f => cases f <;> decide
  | system f => cases f <;> decide
  | package f => cases f <;> decide
  | string f => cases f <;> decide
  | table f => cases f <;> decide
  | utf8 f => cases f <;> decide
  | stringArith f => cases f <;> decide
  | _ => cases path

theorem mem_values {v : Value} {p : String} (path : pathOf? v = some p) : v ∈ values := by
  unfold values
  rw [List.mem_append, List.mem_append]
  cases v with
  | ref r =>
    cases r with
    | table id =>
      have bound : id < tablePaths.length := (List.getElem?_eq_some_iff.mp path).1
      exact .inl (.inl (List.mem_map_of_mem (List.mem_range.mpr bound)))
    | handle id =>
      have bound : id < streamPaths.length := (List.getElem?_eq_some_iff.mp path).1
      exact .inl (.inr (List.mem_map_of_mem (List.mem_range.mpr bound)))
    | native f => exact .inr (List.mem_map_of_mem (mem_library path))
    | _ => cases path
  | _ => cases path

/-- Are numbers different from one another and from the bits that are set in another number? -/
def areApart (seen : Nat) : List Nat → Bool
  | [] => true
  | n :: ns => !seen.testBit n && areApart (seen ||| 1 <<< n) ns

theorem nodup_of_areApart {seen : Nat} {ns : List Nat} (apart : areApart seen ns = true) :
    ns.Nodup ∧ ∀ n ∈ ns, seen.testBit n = false := by
  induction ns generalizing seen with
  | nil => exact ⟨.nil, nofun⟩
  | cons n ns ih =>
    rw [areApart, Bool.and_eq_true, Bool.not_eq_true'] at apart
    obtain ⟨nodup, others⟩ := ih apart.2
    have other (m : Nat) (mem : m ∈ ns) : seen.testBit m = false ∧ (1 <<< n).testBit m = false := by
      have := others m mem
      rwa [Nat.testBit_or, Bool.or_eq_false_iff] at this
    refine ⟨List.nodup_cons.mpr ⟨fun mem => ?_, nodup⟩, List.forall_mem_cons.mpr ⟨apart.1, fun m mem => (other m mem).1⟩⟩
    have := (other n mem).2
    simp [Nat.testBit_shiftLeft] at this

/-- A small number for each path. -/
def pathCode (p : Option String) : Nat :=
  (Bytes.ofString (p.getD "")).data.toList.foldl (fun n c => (n * 257 + c.toNat) % 65521) 0

theorem nodup_paths : (values.map pathOf?).Nodup := by
  have apart : areApart 0 ((values.map pathOf?).map pathCode) = true := by decide +kernel
  exact List.Nodup.of_map pathCode (nodup_of_areApart apart).1

/-- A library value is found by its path. -/
theorem valueOf?_path {v : Value} {p : String} (path : pathOf? v = some p) : valueOf? p = some v := by
  have here := mem_values path
  cases found : valueOf? p with
  | none =>
    have missed := List.find?_eq_none.mp found v here
    simp [path] at missed
  | some w =>
    have same : pathOf? w = some p := by simpa using List.find?_some found
    have there := List.mem_of_find?_eq_some found
    rw [List.inj_on_of_nodup_map nodup_paths there here (same.trans path.symm)]

theorem pathOf?_of_valueOf? {v : Value} {p : String} (found : valueOf? p = some v) : pathOf? v = some p := by
  simpa using List.find?_some found

/-- Values with one path are one value. -/
theorem path_inj {v w : Value} {p : String} (left : pathOf? v = some p) (right : pathOf? w = some p) : v = w :=
  Option.some.inj ((valueOf?_path left).symm.trans (valueOf?_path right))

/-! ### Library tables at the beginning -/

/-- The table of the string library, in which methods of strings are looked up. -/
def strings : Nat := 12

/-- Is a value no number that is none, and does it have a path if it is an object? -/
def isLibrary : Value → Bool
  | .ref r => (pathOf? (.ref r)).isSome
  | .float x => !x.isNaN
  | _ => true

theorem entries_library : ∀ t < tablePaths.length, (heap.table t).metatable = none ∧
    ((heap.table t).toList.all fun e => isLibrary e.1.value && isLibrary e.2) = true := by
  decide +kernel

section

variable {t : Nat} (path : pathOf? (.table t) ≠ none)
include path

theorem lt_length : t < tablePaths.length := by
  obtain ⟨p, known⟩ := Option.ne_none_iff_exists'.mp path
  exact (List.getElem?_eq_some_iff.mp known).1

theorem metatable_eq_none : (heap.table t).metatable = none := (entries_library t (lt_length path)).1

theorem isLibrary_entry {k : Key} (present : (heap.table t).get k ≠ .nil) :
    isLibrary k.value = true ∧ isLibrary ((heap.table t).get k) = true := by
  have all := List.all_eq_true.mp (entries_library t (lt_length path)).2 _ (Table.mem_toList.mpr ⟨rfl, present⟩)
  exact Bool.and_eq_true_iff.mp all

/-- What a library table leads to belongs to the library. -/
theorem path_of_holds {r : Ref} (held : heap.Holds (.table t) (.ref r)) : pathOf? (.ref r) ≠ none := by
  suffices library : isLibrary (.ref r) = true from Option.isSome_iff_ne_none.mp library
  generalize same : Value.ref r = v at held ⊢
  cases held with
  | key present => exact (isLibrary_entry path present).1
  | value k => exact (isLibrary_entry path (by rw [← same]; exact nofun)).2
  | metatable named => cases (metatable_eq_none path).symm.trans named

end

end LuaCapsule.Lua.Fixed
