import LuaCapsule.Lua.Access
import LuaCapsule.Lua.Library.Fixed

/-! Operations on lists. The metatable of lists is shared by all of them and scripts can reach it,
so that it decides whether an operation on a list is up to the list alone. It is as long as the
metatable says nothing of an index, a new item or a length. -/

namespace LuaCapsule.Lua.Heap

/-- The metatable of lists lets no function, and nothing else, answer for an index, a new item or
a length. -/
structure PlainLists (h : Heap) : Prop where
  index : (h.table Fixed.sequence).get (.text "__index") = .nil
  newItem : (h.table Fixed.sequence).get (.text "__newindex") = .nil
  length : (h.table Fixed.sequence).get (.text "__len") = .nil

/-- Is a table marked as a list? -/
def IsList (h : Heap) (t : Nat) : Prop := (h.table t).metatable = some Fixed.sequence

/-- Operations on lists are up to the raw contents of the lists. -/
structure RawLists (h : Heap) : Prop where
  index : ∀ t, h.IsList t → ∀ k, h.index (.table t) k = .value (h.rawGet t k)
  store : ∀ t, h.IsList t → ∀ k v, h.store (.table t) k v = storeRaw t k
  length : ∀ t, h.IsList t → h.unary .len (.table t) = .value (.ofNat (h.table t).length)

variable {h : Heap} {t : Nat}

/-! ### Lists that answer for themselves -/

theorem IsList.metamethod_eq (list : h.IsList t) (event : String) :
    h.metamethod (.table t) event = (h.table Fixed.sequence).get (.text event) := by
  rw [metamethod, metatable?, list]

/-- A table without a metatable answers for everything itself. -/
theorem metamethod_of_bare (bare : (h.table t).metatable = none) (event : String) : h.metamethod (.table t) event = .nil := by
  rw [metamethod, metatable?, bare]

theorem index_eq_raw (silent : h.metamethod (.table t) "__index" = .nil) (k : Value) :
    h.index (.table t) k = .value (h.rawGet t k) := by
  rw [index, maxChain, indexFrom]
  dsimp only
  rw [silent]
  split
  next missing => rw [missing]
  next => rfl

theorem store_eq_raw (silent : h.metamethod (.table t) "__newindex" = .nil) (k v : Value) :
    h.store (.table t) k v = storeRaw t k := by
  rw [store, maxChain, storeFrom]
  dsimp only
  rw [silent]
  split
  · rfl
  · rfl

theorem storeRaw_of_key {k : Value} {key : Key} (known : Key.ofValue? k = some key) : storeRaw t k = .entry t key := by
  unfold storeRaw
  rw [known]

theorem storeRaw_of_none {k : Value} (unknown : Key.ofValue? k = none) : ∃ c, storeRaw t k = .fault c := by
  unfold storeRaw
  rw [unknown]
  split
  next known => cases known
  next => exact ⟨_, rfl⟩
  next => exact ⟨_, rfl⟩

theorem length_eq_raw (silent : h.metamethod (.table t) "__len" = .nil) :
    h.unary .len (.table t) = .value (.ofNat (h.table t).length) := by
  unfold unary
  dsimp only
  rw [silent]

theorem PlainLists.rawLists (plain : h.PlainLists) : h.RawLists where
  index := fun _ list => index_eq_raw (list.metamethod_eq _ ▸ plain.index)
  store := fun _ list => store_eq_raw (list.metamethod_eq _ ▸ plain.newItem)
  length := fun _ list => length_eq_raw (list.metamethod_eq _ ▸ plain.length)

/-! ### Lists that do not -/

/-- Once the metatable answers for new items, none goes into an empty list. -/
theorem storeFrom_ne_entry {k v m : Value} (answer : h.metamethod (.table t) "__newindex" = m) (some : m ≠ .nil)
    (empty : h.rawGet t k = .nil) (key : Key) (fuel : Nat) (culprit : Culprit) (o : Value) :
    h.storeFrom k v fuel culprit o ≠ .entry t key := by
  have elsewhere {id : Nat} (other : id ≠ t) : storeRaw id k ≠ .entry t key := by
    intro same
    unfold storeRaw at same
    split at same
    · exact other (Storing.entry.inj same).1
    · cases same
    · cases same
  induction fuel generalizing culprit o with
  | zero => exact fun same => by cases same
  | succ fuel ih =>
    intro same
    unfold storeFrom at same
    dsimp only at same
    split at same
    next id =>
      split at same
      next missing =>
        split at same
        next silent =>
          by_cases here : id = t
          · rw [here, answer] at silent
            exact some silent
          · exact elsewhere here same
        next =>
          split at same
          · cases same
          · exact ih _ _ same
      next present =>
        by_cases here : id = t
        · exact present (here ▸ empty)
        · exact elsewhere here same
    next =>
      split at same
      · cases same
      · split at same
        · cases same
        · exact ih _ _ same

theorem index_eq_call {f : Value} (answer : h.metamethod (.table t) "__index" = f) (function : isFunction f = true)
    {k : Value} (missing : h.rawGet t k = .nil) : h.index (.table t) k = .call f [.table t, k] := by
  have some : f ≠ .nil := by
    rintro rfl
    cases function
  rw [index, maxChain, indexFrom]
  dsimp only
  rw [missing, answer]
  dsimp only
  split
  next => exact absurd rfl some
  next => rw [if_pos function]

theorem length_eq_call {f : Value} (answer : h.metamethod (.table t) "__len" = f) (some : f ≠ .nil) :
    h.unary .len (.table t) = .call f [.table t, .table t] := by
  unfold unary
  dsimp only
  rw [answer]
  split
  next => exact absurd rfl some
  next => exact absurd rfl some
  next => rfl

/-- The metatable is silent if an empty list answers for itself. A table under `__index` could be
silent as well. -/
theorem RawLists.plainLists (raw : h.RawLists) (list : h.IsList t) (empty : ∀ k, h.rawGet t k = .nil)
    (direct : (h.table Fixed.sequence).get (.text "__index") = .nil ∨
      isFunction ((h.table Fixed.sequence).get (.text "__index")) = true) : h.PlainLists where
  index := by
    rcases direct with silent | function
    · exact silent
    · have called := index_eq_call (list.metamethod_eq "__index") function (empty .nil)
      rw [raw.index t list] at called
      cases called
  newItem := by
    refine Decidable.byContradiction fun some => ?_
    have stored := raw.store t list (.int 1) .nil
    exact storeFrom_ne_entry (list.metamethod_eq "__newindex") some (empty _) (.int 1) _ _ _ stored
  length := by
    refine Decidable.byContradiction fun some => ?_
    have called := length_eq_call (list.metamethod_eq "__len") some
    rw [raw.length t list] at called
    cases called

end LuaCapsule.Lua.Heap
