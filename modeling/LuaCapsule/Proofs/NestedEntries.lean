import LuaCapsule.Device.Checkpoint
import LuaCapsule.Proofs.Mappings

/-! Values at paths into nested mappings. What is stored at a path is found there, unless the path
names the private slot on its way, since no path that does is ever followed. Paths of which neither
goes on where the other ends do not get in each other's way. -/

namespace LuaCapsule

variable {es : List (Datum × Datum)} {v : Datum}

namespace Device

/-- The entries of the mapping under a name; none, if there is no mapping. -/
def under (segment : String) (es : List (Datum × Datum)) : List (Datum × Datum) :=
  match Datum.lookup (.text segment) es with
  | some (.mapping es') => es'
  | _ => []

theorem storeAt_nested (v : Datum) (segment next : String) (rest : List String) (es : List (Datum × Datum)) :
    storeAt v (segment :: next :: rest) es =
      Datum.insert (.text segment) (.mapping (storeAt v (next :: rest) (under segment es))) es := rfl

theorem storeAt_cons (value : Datum) (segment : String) (rest : List String) (es : List (Datum × Datum)) :
    ∃ w, storeAt value (segment :: rest) es = Datum.insert (.text segment) w es ∧
      (w = value ∨ ∃ es', w = .mapping es') := by
  cases rest with
  | nil => exact ⟨value, rfl, .inl rfl⟩
  | cons next rest => exact ⟨_, rfl, .inr ⟨_, rfl⟩⟩

/-- Only what is under the first name of a path is touched. -/
theorem lookup_storeAt_of_ne {segment : String} {k : Datum} (other : Datum.sameKey (.text segment) k = false)
    (v : Datum) (rest : List String) (es : List (Datum × Datum)) :
    Datum.lookup k (storeAt v (segment :: rest) es) = Datum.lookup k es := by
  obtain ⟨w, stored, _⟩ := storeAt_cons v segment rest es
  rw [stored, Datum.lookup_insert, other, if_neg (by simp)]

theorem under_storeAt (v : Datum) (segment next : String) (rest : List String) (es : List (Datum × Datum)) :
    under segment (storeAt v (segment :: next :: rest) es) = storeAt v (next :: rest) (under segment es) := by
  rw [storeAt_nested]
  unfold under
  rw [Private.lookup_insert_text]

theorem under_congr {segment : String} {es es' : List (Datum × Datum)}
    (same : Datum.lookup (.text segment) es = Datum.lookup (.text segment) es') : under segment es = under segment es' := by
  unfold under
  rw [same]

end Device

namespace Path

open Device

theorem follow_mapping (segment : String) (rest : List String) (es : List (Datum × Datum)) :
    follow (segment :: rest) (.mapping es) =
      if segment = "priv" then none else (Datum.lookup (.text segment) es).bind (follow rest) := by
  have same : Private.key.sameKey (.text segment) = decide (segment = "priv") := by
    show ("priv" == segment) = _
    rw [Bool.eq_iff_iff, beq_iff_eq, decide_eq_true_iff, eq_comm]
  simp [follow, same]

/-- A path goes on in what is under its first name. -/
theorem follow_nested (segment next : String) (rest : List String) (es : List (Datum × Datum)) :
    follow (segment :: next :: rest) (.mapping es) =
      if segment = "priv" then none else follow (next :: rest) (.mapping (under segment es)) := by
  rw [follow_mapping]
  congr 1
  unfold under
  cases Datum.lookup (.text segment) es with
  | none => simp [follow_mapping, Datum.lookup]
  | some d => cases d <;> simp [follow, Datum.lookup]

/-- A path that names the private slot leads nowhere. -/
theorem follow_of_private {path : List String} (named : "priv" ∈ path) (d : Datum) : follow path d = none := by
  induction path generalizing d with
  | nil => cases named
  | cons segment path ih =>
    cases d with
    | mapping es =>
      rw [follow_mapping]
      split
      · rfl
      next other =>
        have later : "priv" ∈ path := (List.mem_cons.mp named).resolve_left (Ne.symm other)
        cases Datum.lookup (.text segment) es with
        | none => rfl
        | some d => exact ih later d
    | _ => rfl

/-- No path sees the private slot. -/
theorem follow_erase_key {path : List String} (some : path ≠ []) (es : List (Datum × Datum)) :
    follow path (.mapping (Datum.erase Private.key es)) = follow path (.mapping es) := by
  obtain ⟨segment, rest, rfl⟩ := List.exists_cons_of_ne_nil some
  rw [follow_mapping, follow_mapping]
  split
  · rfl
  next seen =>
    have other : Private.key.sameKey (.text segment) = false := beq_false_of_ne fun same => seen same.symm
    rw [Datum.lookup_erase, other, if_neg (by simp)]

/-- Behind a path is what was stored at it, unless the path names the private slot. -/
theorem follow_storeAt_append {path : List String} (some : path ≠ []) (rest : List String) (v : Datum)
    (es : List (Datum × Datum)) : follow (path ++ rest) (.mapping (storeAt v path es)) =
      if "priv" ∈ path then none else follow rest v := by
  induction path generalizing es with
  | nil => exact absurd rfl some
  | cons segment path ih =>
    cases path with
    | nil =>
      rw [storeAt, List.singleton_append, follow_mapping, Private.lookup_insert_text]
      simp [eq_comm]
    | cons next path =>
      rw [List.cons_append, List.cons_append, follow_nested, under_storeAt, ← List.cons_append, ih (List.cons_ne_nil _ _)]
      by_cases named : segment = "priv"
      · simp [named]
      · simp [named, Ne.symm named]

theorem follow_storeAt {path : List String} (some : path ≠ []) (v : Datum) (es : List (Datum × Datum)) :
    follow path (.mapping (storeAt v path es)) = if "priv" ∈ path then none else Option.some v := by
  simpa [follow] using follow_storeAt_append some [] v es

/-- On the way to what was stored there are mappings. -/
theorem isMapping_of_follow {path rest : List String} (some : path ≠ []) (on : rest ≠ []) {d : Datum}
    (found : follow path (.mapping (storeAt v (path ++ rest) es)) = Option.some d) :
    Snapshot.Envelope.isMapping d = true := by
  induction path generalizing es with
  | nil => exact absurd rfl some
  | cons segment path ih =>
    cases path with
    | nil =>
      obtain ⟨next, rest, rfl⟩ := List.exists_cons_of_ne_nil on
      rw [List.singleton_append, storeAt_nested, follow_mapping, Private.lookup_insert_text] at found
      split at found
      · cases found
      · obtain rfl := Option.some.inj found
        rfl
    | cons next path =>
      rw [List.cons_append, List.cons_append, follow_nested, under_storeAt] at found
      split at found
      · cases found
      · exact ih (List.cons_ne_nil _ _) found

/-- Neither of two paths goes on where the other ends. -/
def Apart (p q : List String) : Prop := ¬p <+: q ∧ ¬q <+: p

/-- What is stored at a path is not seen from paths apart from it. -/
theorem follow_storeAt_of_apart {p q : List String} (apart : Apart p q) (v : Datum) (es : List (Datum × Datum)) :
    follow p (.mapping (storeAt v q es)) = follow p (.mapping es) := by
  induction q generalizing p es with
  | nil => exact absurd List.nil_prefix apart.2
  | cons b q ih =>
    cases p with
    | nil => exact absurd List.nil_prefix apart.1
    | cons a p =>
      by_cases same : a = b
      · subst same
        obtain ⟨left, right⟩ := apart
        rw [List.prefix_cons_inj] at left right
        obtain ⟨c, p, rfl⟩ := List.exists_cons_of_ne_nil (l := p) fun nil => left (nil ▸ List.nil_prefix)
        obtain ⟨d, q, rfl⟩ := List.exists_cons_of_ne_nil (l := q) fun nil => right (nil ▸ List.nil_prefix)
        rw [follow_nested, follow_nested, under_storeAt, ih ⟨left, right⟩]
      · have other : Datum.sameKey (.text b) (.text a) = false := beq_false_of_ne (Ne.symm same)
        rw [follow_mapping, follow_mapping, lookup_storeAt_of_ne other]

end Path

end LuaCapsule
