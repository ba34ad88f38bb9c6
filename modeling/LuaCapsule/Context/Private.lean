import LuaCapsule.Fault

/-! The private slot of a context. A context is a mapping; what it holds under one reserved key
belongs to the node that computes it, and is never stored, sent or shown to programs.
Proved: what is set in the slot is found there, and the public view has no slot. -/

namespace LuaCapsule.Private

/-- The reserved key. -/
def key : Datum := .text "priv"

/-- The entries of a context. Nothing but a mapping is one. -/
def entries : Datum → Except Fault (List (Datum × Datum))
  | .mapping es => .ok es
  | _ => .error .noAttribute

/-- The private entries among the entries of a context. -/
def slotOf (es : List (Datum × Datum)) : List (Datum × Datum) :=
  match Datum.lookup key es with
  | some (.mapping slot) => slot
  | _ => []

/-- The private entries of a context. -/
def slot (context : Datum) : Except Fault (List (Datum × Datum)) := (entries context).map slotOf

/-- Can a value be a key at all? Lists, mappings and sets cannot, nor tuples that hold one. -/
def isKey : Datum → Bool
  | .list _ => false
  | .mapping _ => false
  | .host .set => false
  | .tuple items => areKeys items
  | _ => true
where
  areKeys : List Datum → Bool
    | [] => true
    | d :: rest => isKey d && areKeys rest

def checkKey (k : Datum) : Except Fault Unit := if isKey k then .ok () else .error .wrongType

/-- The private value under a key. -/
def get? (k context : Datum) : Except Fault (Option Datum) := do
  let s ← slot context
  checkKey k
  return Datum.lookup k s

/-- The entries of a value that is copied entry by entry. -/
def copied : Datum → Except Fault (List (Datum × Datum))
  | .mapping es => .ok es
  | _ => .error .wrongType

/-- A context with private entries set over its own. -/
def merge (context added : Datum) : Except Fault Datum := do
  let es ← copied context
  let added ← copied added
  return .mapping (Datum.insert key (.mapping (Datum.insertAll (slotOf es) added)) es)

/-- A context with a private value set. -/
def set (context k v : Datum) : Except Fault Datum := do
  let es ← copied context
  checkKey k
  return .mapping (Datum.insert key (.mapping (Datum.insert k v (slotOf es))) es)

/-- The entries of a context without its private slot. -/
def publicEntries (context : Datum) : Except Fault (List (Datum × Datum)) :=
  (entries context).map (Datum.erase key)

/-- A context without its private slot. -/
def publicView (context : Datum) : Except Fault Datum := (publicEntries context).map .mapping

/-! ### Laws -/

theorem lookup_insert_text (s : String) (v : Datum) (es : List (Datum × Datum)) :
    Datum.lookup (.text s) (Datum.insert (.text s) v es) = some v := by
  induction es with
  | nil => simp [Datum.insert, Datum.lookup, Datum.sameKey]
  | cons e rest ih =>
    obtain ⟨k, w⟩ := e
    by_cases h : k.sameKey (.text s)
    · simp [Datum.insert, Datum.lookup, h]
    · simp [Datum.insert, Datum.lookup, h, ih]

theorem slotOf_insert (slot es : List (Datum × Datum)) :
    slotOf (Datum.insert key (.mapping slot) es) = slot := by
  rw [slotOf, key, lookup_insert_text]

theorem lookup_erase_self (k : Datum) (es : List (Datum × Datum)) :
    Datum.lookup k (Datum.erase k es) = none := by
  induction es with
  | nil => rfl
  | cons e rest ih =>
    obtain ⟨k', w⟩ := e
    simp only [Datum.erase] at ih
    by_cases h : k'.sameKey k
    · simp [Datum.erase, h, ih]
    · simp [Datum.erase, Datum.lookup, h, ih]

end LuaCapsule.Private
