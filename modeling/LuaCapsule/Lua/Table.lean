import LuaCapsule.Lua.KeyOrder

/-! Tables: finitely many entries in the order of their keys, none of which holds nil, and
perhaps a metatable. A table also has a layout, a run of places for the keys from 1 and a
number of places for all other keys. The layout decides which of several borders is the
length of a table with holes, and in which order entries are enumerated. -/

namespace LuaCapsule.Lua

theorem Table.noNil_empty (k : Key) : (∅ : Std.TreeMap Key Value Key.cmp)[k]? ≠ some .nil := by simp

/-- A table. -/
structure Table where
  entries : Std.TreeMap Key Value Key.cmp := ∅
  noNil : ∀ k : Key, entries[k]? ≠ some .nil := by exact Table.noNil_empty
  metatable : Option Nat := none
  /-- The keys from 1 to this one have places of their own. -/
  arraySize : Nat := 0
  /-- The number of places for other keys. -/
  capacity : Nat := 0
  /-- How many of those are taken. -/
  used : Nat := 0

instance : Inhabited Table := ⟨{}⟩

namespace Table

/-- The value under a key; nil when there is none. -/
def get (t : Table) (k : Key) : Value := t.entries[k]?.getD .nil

def getInt (t : Table) (i : Nat) : Value := t.get (.int (Int64.ofNat i))

/-- The keys and values, in the order of the keys. -/
def toList (t : Table) : List (Key × Value) := t.entries.toList

/-! ### The layout -/

/-- The place of a positive key in the scale of powers of two, counted from zero. -/
def level (k : Nat) : Nat := if k ≤ 1 then 0 else (k - 1).log2 + 1

/-- The least power of two that is not below `n`; none for no places. -/
def roundUp (n : Nat) : Nat := if n == 0 then 0 else Nat.pow 2 (level n)

/-- A positive key that could have a place of its own. -/
def arrayKey? : Key → Option Nat
  | .int i => if 0 < i.toInt && i.toInt ≤ 134217728 then some i.toInt.toNat else none
  | _ => none

def inArray (t : Table) (k : Key) : Bool :=
  match arrayKey? k with
  | some n => n ≤ t.arraySize
  | none => false

/-- Adds a key to the counts of keys by level. -/
def tally (counts : Array Nat) (k : Key) : Array Nat :=
  match arrayKey? k with
  | some n => counts.modify (level n) (· + 1)
  | none => counts

/-- The largest power of two more than half of whose keys are present, with the number of
keys up to it. `i` is the level, `seen` the keys below it, `best` the best answer so far. -/
def bestSize (counts : List Nat) (total i seen : Nat) (best : Nat × Nat) : Nat × Nat :=
  match counts with
  | [] => best
  | c :: rest =>
    if total ≤ Nat.pow 2 i / 2 then best
    else
      let seen := seen + c
      bestSize rest total (i + 1) seen (if seen > Nat.pow 2 i / 2 then (Nat.pow 2 i, seen) else best)

/-- The table laid out anew so that there is a place for the key `k`. -/
def layOut (t : Table) (k : Key) : Table :=
  let counts := t.entries.foldl (fun c key _ => tally c key) (tally (Array.replicate 28 0) k)
  let total := counts.foldl (· + ·) 0
  let (size, held) := bestSize counts.toList total 0 0 (0, 0)
  let others := t.entries.size + 1 - held
  let t := { t with arraySize := size, capacity := roundUp others }
  { t with used := if t.inArray k then others else others - 1 }

/-- The table with a place taken for a key it does not have. -/
def reserve (t : Table) (k : Key) : Table :=
  if t.inArray k then t
  else if t.used < t.capacity then { t with used := t.used + 1 }
  else
    let t := t.layOut k
    if t.inArray k then t else { t with used := t.used + 1 }

/-- An empty table with room for some list items and some other entries. -/
def withRoom (items others : Nat) : Table := { arraySize := items, capacity := roundUp others }

/-- The table with at least the given number of places for list items. -/
def grow (t : Table) (items : Nat) : Table :=
  if items ≤ t.arraySize then t else { t with arraySize := items }

/-- The memory that the places of a table take, in bytes. -/
def bytes (t : Table) : Nat := 16 * t.arraySize + 24 * t.capacity

/-! ### Changes -/

/-- The table without its entries. -/
def cleared (t : Table) : Table := { t with entries := ∅, noNil := noNil_empty }

theorem noNil_erase (t : Table) (k k' : Key) : (t.entries.erase k)[k']? ≠ some .nil := by
  rw [Std.TreeMap.getElem?_erase]
  split
  · exact nofun
  · exact t.noNil k'

theorem noNil_insert (t : Table) (k : Key) {v : Value} (h : v ≠ .nil) (k' : Key) :
    (t.entries.insert k v)[k']? ≠ some .nil := by
  rw [Std.TreeMap.getElem?_insert]
  split
  · exact fun same => h (Option.some.inj same)
  · exact t.noNil k'

/-- The table with a value under a key; nil takes the entry away. -/
def set (t : Table) (k : Key) (v : Value) : Table :=
  if h : v = .nil then { t with entries := t.entries.erase k, noNil := t.noNil_erase k }
  else
    let t := if t.entries.contains k then t else t.reserve k
    { t with entries := t.entries.insert k v, noNil := t.noNil_insert k h }

/-! ### Laws -/

@[simp] theorem get_empty (items others : Nat) (k : Key) : (withRoom items others).get k = .nil := by
  simp [get, withRoom]

@[simp] theorem get_cleared (t : Table) (k : Key) : t.cleared.get k = .nil := by
  simp [get, cleared]

@[simp] theorem metatable_cleared (t : Table) : t.cleared.metatable = t.metatable := rfl

@[simp] theorem entries_layOut (t : Table) (k : Key) : (t.layOut k).entries = t.entries := rfl

@[simp] theorem metatable_layOut (t : Table) (k : Key) : (t.layOut k).metatable = t.metatable := rfl

@[simp] theorem entries_reserve (t : Table) (k : Key) : (t.reserve k).entries = t.entries := by
  unfold reserve
  split
  · rfl
  · split
    · rfl
    · dsimp only
      split <;> rfl

@[simp] theorem metatable_reserve (t : Table) (k : Key) : (t.reserve k).metatable = t.metatable := by
  unfold reserve
  split
  · rfl
  · split
    · rfl
    · dsimp only
      split <;> rfl

/-- An entry is there exactly when its value is not nil. -/
theorem getElem?_eq_some {t : Table} {k : Key} {v : Value} :
    t.entries[k]? = some v ↔ t.get k = v ∧ v ≠ .nil := by
  have here := t.noNil k
  unfold get
  cases found : t.entries[k]? with
  | none =>
    simp only [Option.getD_none, reduceCtorEq, false_iff, not_and]
    exact fun nil other => other nil.symm
  | some w =>
    rw [found] at here
    simp only [Option.some.injEq, Option.getD_some]
    refine ⟨?_, And.left⟩
    rintro rfl
    exact ⟨rfl, fun nil => here (congrArg some nil)⟩

theorem mem_toList {t : Table} {k : Key} {v : Value} : (k, v) ∈ t.toList ↔ t.get k = v ∧ v ≠ .nil := by
  rw [toList, Std.TreeMap.mem_toList_iff_getElem?_eq_some, getElem?_eq_some]

theorem nodup_keys (t : Table) : (t.toList.map (·.1)).Nodup := by
  have distinct := t.entries.distinct_keys_toList
  rw [List.Nodup, List.pairwise_map]
  exact distinct.imp fun {a b} other same => other (Std.LawfulEqCmp.compare_eq_iff_eq.mpr same)

theorem keys_sorted (t : Table) : (t.toList.map Prod.fst).Pairwise fun k k' => Key.cmp k k' = .lt := by
  rw [List.pairwise_map]
  exact t.entries.ordered_keys_toList

/-- The entries of a table are its keys with what is under them. -/
theorem toList_eq_map (t : Table) : t.toList = (t.toList.map Prod.fst).map fun k => (k, t.get k) := by
  rw [List.map_map]
  conv => lhs; rw [← List.map_id t.toList]
  refine List.map_congr_left fun e mem => ?_
  obtain ⟨k, v⟩ := e
  exact Prod.ext rfl (mem_toList.mp mem).1.symm

theorem mem_keys {t : Table} {k : Key} : k ∈ t.toList.map Prod.fst ↔ t.get k ≠ .nil := by
  rw [List.mem_map]
  constructor
  · rintro ⟨⟨k, v⟩, mem, rfl⟩
    obtain ⟨is, present⟩ := mem_toList.mp mem
    rwa [is]
  · intro present
    exact ⟨(k, t.get k), mem_toList.mpr ⟨rfl, present⟩, rfl⟩

/-- Setting changes the value under one key. -/
theorem get_set (t : Table) (k k' : Key) (v : Value) :
    (t.set k v).get k' = if k = k' then v else t.get k' := by
  unfold set get
  split
  next nil =>
    rw [Std.TreeMap.getElem?_erase]
    simp only [Std.LawfulEqCmp.compare_eq_iff_eq]
    split
    · rw [nil, Option.getD_none]
    · rfl
  next =>
    rw [Std.TreeMap.getElem?_insert]
    simp only [Std.LawfulEqCmp.compare_eq_iff_eq]
    split
    · rfl
    · split
      · rfl
      · rw [entries_reserve]

@[simp] theorem metatable_set (t : Table) (k : Key) (v : Value) : (t.set k v).metatable = t.metatable := by
  unfold set
  split
  · rfl
  · dsimp only
    split
    · rfl
    · rw [metatable_reserve]

/-! ### Length -/

def has (t : Table) (i : Nat) : Bool := t.entries.contains (.int (Int64.ofNat i))

/-- A border between a key `i` that is present (or zero) and a key `j` that is not. -/
def bisect (t : Table) : Nat → Nat → Nat → Nat
  | 0, i, _ => i
  | fuel + 1, i, j =>
    if j - i ≤ 1 then i
    else
      let m := (i + j) / 2
      if t.has m then bisect t fuel m j else bisect t fuel i m

/-- A border above the present key `i`, found by doubling. -/
def searchAbove (t : Table) : Nat → Nat → Nat
  | 0, i => i
  | fuel + 1, i =>
    let j := if i == 0 then 1 else 2 * i
    if t.has j then searchAbove t fuel j else t.bisect 64 i j

/-- A border: a key that is present (or zero) and is followed by an absent one. -/
def length (t : Table) : Nat :=
  let limit := t.arraySize
  if limit > 0 && !t.has limit then
    if limit ≥ 2 && t.has (limit - 1) then limit - 1 else t.bisect 64 0 limit
  else if t.capacity == 0 || !t.has (limit + 1) then limit
  else t.searchAbove 64 (limit + 1)

/-! ### Enumeration -/

/-- The first entry, from a given one on in the order of keys, that is not a list item. -/
def skipItems (t : Table) : Nat → Option (Key × Value) → Option (Key × Value)
  | 0, _ => none
  | _, none => none
  | fuel + 1, some e =>
    if t.inArray e.1 then skipItems t fuel (t.entries.getEntryGT? e.1) else some e

/-- The first entry whose key is a truth value. -/
def truth? (t : Table) : Option (Key × Value) :=
  match t.entries.minEntry? with
  | some (.bool b, v) => some (.bool b, v)
  | _ => none

/-- The first entry after a key that is neither a list item nor has a truth value as key, or
else the first that has. -/
def otherAfter (t : Table) (k : Key) : Option (Key × Value) :=
  match t.skipItems (t.entries.size + 1) (t.entries.getEntryGT? k) with
  | some e => some e
  | none => t.truth?

/-- The first list item of the next `n` ones from `i`, or else the first other entry. -/
def itemFrom (t : Table) : Nat → Nat → Option (Key × Value)
  | 0, _ => t.otherAfter (.bool true)
  | n + 1, i =>
    match t.entries[Key.int (Int64.ofNat i)]? with
    | some v => some (.int (Int64.ofNat i), v)
    | none => itemFrom t n (i + 1)

/-- The first entry: list items come first, those with a truth value as key come last. -/
def first? (t : Table) : Option (Key × Value) := t.itemFrom t.arraySize 1

/-- The entry that comes after a key. -/
def next? (t : Table) (k : Key) : Option (Key × Value) :=
  match k with
  | .bool false => t.entries[Key.bool true]?.map (.bool true, ·)
  | .bool true => none
  | k =>
    match arrayKey? k with
    | some n =>
      if n ≤ t.arraySize then t.itemFrom (t.arraySize - n) (n + 1) else t.otherAfter k
    | none => t.otherAfter k

/-- Whether enumeration can go on after a key. It can after one that was taken away while its
place still stands. -/
def isPassed (t : Table) (k : Key) : Bool :=
  t.inArray k || t.entries.contains k ||
    t.entries.foldl (fun n key _ => if t.inArray key then n else n + 1) 0 < t.used

/-- All entries, as enumeration meets them. -/
def enumerate (t : Table) : List (Key × Value) :=
  let (truths, entries) := t.toList.partition fun e => e.1.kind == 1
  let (items, others) := entries.partition fun e => t.inArray e.1
  items ++ others ++ truths

end Table

end LuaCapsule.Lua
