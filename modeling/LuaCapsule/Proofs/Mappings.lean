import LuaCapsule.Datum.Basic
import Mathlib.Data.List.Pairwise

/-! Mappings as lists of entries. Being one key is symmetric and transitive, so that a mapping can
be read through its look-ups: what is set under a key is found under every key that is the same,
and nothing else changes. Entries set over others are found first. -/

namespace LuaCapsule.Datum

/-! ### Numbers as keys -/

/-- Are two numbers one? -/
def sameNumber : Option (Int ⊕ Binary64) → Option (Int ⊕ Binary64) → Bool
  | some (.inl i), some (.inl j) => i == j
  | some (.inr x), some (.inr y) => x.bits == y.bits
  | _, _ => false

theorem sameNumber_comm (a b : Option (Int ⊕ Binary64)) : sameNumber a b = sameNumber b a := by
  rcases a with _ | i | x <;> rcases b with _ | j | y <;> simp [sameNumber, Bool.beq_comm]

theorem sameNumber_trans {a b c : Option (Int ⊕ Binary64)} (left : sameNumber a b = true) (right : sameNumber b c = true) :
    sameNumber a c = true := by
  rcases a with _ | i | x <;> rcases b with _ | j | y <;> rcases c with _ | k | z <;> simp_all [sameNumber]

theorem isSome_of_sameNumber {a b : Option (Int ⊕ Binary64)} (same : sameNumber a b = true) :
    a.isSome = true ∧ b.isSome = true := by
  rcases a with _ | i | x <;> rcases b with _ | j | y <;> simp_all [sameNumber]

variable {a b c : Datum}

/-- Numbers are keys by their values. -/
theorem sameKey_of_number (number : (numeric? a).isSome = true ∨ (numeric? b).isSome = true) :
    sameKey a b = sameNumber (numeric? a) (numeric? b) := by
  cases a <;> cases b <;> first | rfl | (rcases number with number | number <;> cases number)

theorem sameKey_comm_of_number (number : (numeric? a).isSome = true ∨ (numeric? b).isSome = true) :
    sameKey a b = sameKey b a := by
  rw [sameKey_of_number number, sameKey_of_number number.symm, sameNumber_comm]

theorem sameKey_trans_of_number (number : (numeric? a).isSome = true) (left : sameKey a b = true)
    (right : sameKey b c = true) : sameKey a c = true := by
  rw [sameKey_of_number (.inl number)] at left ⊢
  rw [sameKey_of_number (.inl (isSome_of_sameNumber left).2)] at right
  exact sameNumber_trans left right

/-! ### Other keys -/

theorem not_sameKey_number {x : Binary64} (none : (numeric? a).isSome = false) : sameKey a (.float x) = false := by
  rw [sameKey_of_number (.inr rfl)]
  cases same : sameNumber (numeric? a) (numeric? (.float x)) with
  | false => rfl
  | true => exact absurd (none.symm.trans (isSome_of_sameNumber same).1) Bool.false_ne_true

theorem eq_of_beq_bytes {x y : Bytes} (same : (x == y) = true) : x = y := by
  obtain ⟨x⟩ := x
  obtain ⟨y⟩ := y
  exact congrArg _ (beq_iff_eq.mp same)

theorem sameKey_list {as : List Datum} (same : sameKey (.list as) b = true) :
    ∃ bs, b = .list bs ∧ sameKeys as bs = true := by
  cases b with
  | list bs => exact ⟨bs, rfl, same⟩
  | float x => cases (not_sameKey_number rfl).symm.trans same
  | _ => cases same

theorem sameKey_tuple {as : List Datum} (same : sameKey (.tuple as) b = true) :
    ∃ bs, b = .tuple bs ∧ sameKeys as bs = true := by
  cases b with
  | tuple bs => exact ⟨bs, rfl, same⟩
  | float x => cases (not_sameKey_number rfl).symm.trans same
  | _ => cases same

/-- Texts, byte strings and the like are no keys but themselves. -/
theorem eq_of_sameKey (same : sameKey a b = true) (none : (numeric? a).isSome = false)
    (noList : ∀ as, a ≠ .list as) (noTuple : ∀ as, a ≠ .tuple as) : a = b := by
  cases a with
  | list as => exact absurd rfl (noList as)
  | tuple as => exact absurd rfl (noTuple as)
  | bool => cases none
  | int => cases none
  | float => cases none
  | _ =>
    cases b with
    | float x => cases (not_sameKey_number rfl).symm.trans same
    | bytes y => first | exact congrArg _ (eq_of_beq_bytes same) | cases same
    | _ => first | rfl | exact congrArg _ (beq_iff_eq.mp same) | cases same

theorem eq_of_sameKey_text {s : String} (same : sameKey (.text s) b = true) : b = .text s :=
  (eq_of_sameKey same rfl nofun nofun).symm

/-! ### Keys that are one -/

mutual

theorem sameKey_comm : ∀ a b : Datum, sameKey a b = sameKey b a
  | .tuple as, b => by
    cases b with
    | tuple bs => exact sameKeys_comm as bs
    | _ => first | rfl | exact sameKey_comm_of_number (.inr rfl)
  | .list as, b => by
    cases b with
    | list bs => exact sameKeys_comm as bs
    | _ => first | rfl | exact sameKey_comm_of_number (.inr rfl)
  | .bool _, _ => sameKey_comm_of_number (.inl rfl)
  | .int _, _ => sameKey_comm_of_number (.inl rfl)
  | .float _, _ => sameKey_comm_of_number (.inl rfl)
  | .null, b => by cases b <;> first | rfl | exact sameKey_comm_of_number (.inr rfl)
  | .mapping es, b => by cases b <;> first | rfl | exact sameKey_comm_of_number (.inr rfl)
  | .text s, b => by cases b <;> first | rfl | exact Bool.beq_comm | exact sameKey_comm_of_number (.inr rfl)
  | .host o, b => by cases b <;> first | rfl | exact Bool.beq_comm | exact sameKey_comm_of_number (.inr rfl)
  | .live n, b => by cases b <;> first | rfl | exact Bool.beq_comm | exact sameKey_comm_of_number (.inr rfl)
  | .bytes ⟨x⟩, b => by
    cases b with
    | bytes y =>
      obtain ⟨y⟩ := y
      exact Bool.beq_comm (a := x)
    | _ => first | rfl | exact sameKey_comm_of_number (.inr rfl)

theorem sameKeys_comm : ∀ as bs : List Datum, sameKeys as bs = sameKeys bs as
  | [], [] => rfl
  | [], _ :: _ => rfl
  | _ :: _, [] => rfl
  | a :: as, b :: bs => by rw [sameKeys, sameKeys, sameKey_comm a b, sameKeys_comm as bs]

end

mutual

theorem sameKey_trans : ∀ {a b c : Datum}, sameKey a b = true → sameKey b c = true → sameKey a c = true
  | .tuple as, b, c, left, right => by
    obtain ⟨bs, rfl, left⟩ := sameKey_tuple left
    obtain ⟨cs, rfl, right⟩ := sameKey_tuple right
    exact sameKeys_trans left right
  | .list as, b, c, left, right => by
    obtain ⟨bs, rfl, left⟩ := sameKey_list left
    obtain ⟨cs, rfl, right⟩ := sameKey_list right
    exact sameKeys_trans left right
  | .bool _, _, _, left, right => sameKey_trans_of_number rfl left right
  | .int _, _, _, left, right => sameKey_trans_of_number rfl left right
  | .float _, _, _, left, right => sameKey_trans_of_number rfl left right
  | .null, _, _, left, right => eq_of_sameKey left rfl nofun nofun ▸ right
  | .mapping _, _, _, left, right => eq_of_sameKey left rfl nofun nofun ▸ right
  | .text _, _, _, left, right => eq_of_sameKey left rfl nofun nofun ▸ right
  | .bytes _, _, _, left, right => eq_of_sameKey left rfl nofun nofun ▸ right
  | .host _, _, _, left, right => eq_of_sameKey left rfl nofun nofun ▸ right
  | .live _, _, _, left, right => eq_of_sameKey left rfl nofun nofun ▸ right

theorem sameKeys_trans : ∀ {as bs cs : List Datum}, sameKeys as bs = true → sameKeys bs cs = true → sameKeys as cs = true
  | [], [], [], _, _ => rfl
  | [], _ :: _, _, left, _ => by cases left
  | _ :: _, [], _, left, _ => by cases left
  | _, [], _ :: _, _, right => by cases right
  | _, _ :: _, [], _, right => by cases right
  | a :: as, b :: bs, c :: cs, left, right => by
    rw [sameKeys, Bool.and_eq_true] at *
    exact ⟨sameKey_trans left.1 right.1, sameKeys_trans left.2 right.2⟩

end

/-- A key is one with both of two keys that are one, or with none of them. -/
theorem sameKey_congr (same : sameKey a b = true) (c : Datum) : sameKey a c = sameKey b c := by
  rw [Bool.eq_iff_iff]
  exact ⟨sameKey_trans (sameKey_comm a b ▸ same), sameKey_trans same⟩

/-! ### Look-ups -/

theorem lookup_insert (key k value : Datum) (es : List (Datum × Datum)) :
    lookup k (insert key value es) = if sameKey key k then some value else lookup k es := by
  induction es with
  | nil => rfl
  | cons e es ih =>
    obtain ⟨k', v⟩ := e
    rw [insert]
    by_cases here : sameKey k' key = true
    · rw [if_pos here, lookup, lookup, sameKey_congr here]
      split <;> rfl
    · rw [if_neg here, lookup, lookup, ih]
      by_cases found : sameKey k' k = true
      · have other : ¬sameKey key k = true := fun same =>
          here (sameKey_trans found (sameKey_comm key k ▸ same))
        rw [if_pos found, if_pos found, if_neg other]
      · rw [if_neg found, if_neg found]

theorem lookup_erase (key k : Datum) (es : List (Datum × Datum)) :
    lookup k (erase key es) = if sameKey key k then none else lookup k es := by
  induction es with
  | nil => simp [erase, lookup]
  | cons e es ih =>
    obtain ⟨k', v⟩ := e
    simp only [erase] at ih
    by_cases gone : sameKey k' key = true
    · rw [erase, List.filter_cons_of_neg (by simp [gone]), ih, lookup, sameKey_congr gone]
      split <;> rfl
    · rw [erase, List.filter_cons_of_pos (by simp [gone]), lookup, lookup, ih]
      by_cases found : sameKey k' k = true
      · have other : ¬sameKey key k = true := fun same => gone (sameKey_trans found (sameKey_comm key k ▸ same))
        rw [if_pos found, if_pos found, if_neg other]
      · rw [if_neg found, if_neg found]

/-- What stands under a key does not matter without the key. -/
theorem erase_insert {key : Datum} (own : sameKey key key = true) (value : Datum) (es : List (Datum × Datum)) :
    erase key (insert key value es) = erase key es := by
  induction es with
  | nil => simp [insert, erase, own]
  | cons e es ih =>
    obtain ⟨k, v⟩ := e
    simp only [erase] at ih
    by_cases here : sameKey k key = true
    · simp [insert, erase, here]
    · simp [insert, erase, here, ih]

/-- Has a mapping each key once? -/
def Distinct (es : List (Datum × Datum)) : Prop := es.Pairwise fun e e' => sameKey e.1 e'.1 = false

theorem Distinct.sameKey_eq_false {es : List (Datum × Datum)} (distinct : Distinct es) {e e' : Datum × Datum} (mem : e ∈ es)
    (mem' : e' ∈ es) (other : e ≠ e') : sameKey e.1 e'.1 = false := by
  have symmetric : Std.Symm fun e e' : Datum × Datum => sameKey e.1 e'.1 = false :=
    ⟨fun e e' differ => sameKey_comm e.1 e'.1 ▸ differ⟩
  exact List.Pairwise.forall distinct mem mem' other

/-- Different texts are different keys. -/
theorem distinct_texts {es : List (String × Datum)} (nodup : (es.map Prod.fst).Nodup) :
    Distinct (es.map fun e => (.text e.1, e.2)) := by
  refine List.pairwise_map.mpr ((List.pairwise_map.mp nodup).imp fun {e e'} other => ?_)
  exact beq_false_of_ne other

theorem lookup_eq_none {k : Datum} {es : List (Datum × Datum)} :
    lookup k es = none ↔ ∀ e ∈ es, sameKey e.1 k = false := by
  induction es with
  | nil => simp [lookup]
  | cons e es ih =>
    rw [lookup, List.forall_mem_cons]
    split
    next here => simp [here]
    next other => simp [ih, other]

theorem mem_of_lookup {k v : Datum} {es : List (Datum × Datum)} (found : lookup k es = some v) :
    ∃ k', sameKey k' k = true ∧ (k', v) ∈ es := by
  induction es with
  | nil => cases found
  | cons e es ih =>
    obtain ⟨k', w⟩ := e
    rw [lookup] at found
    split at found
    next same =>
      obtain rfl := Option.some.inj found
      exact ⟨k', same, List.mem_cons_self ..⟩
    next =>
      obtain ⟨k'', same, mem⟩ := ih found
      exact ⟨k'', same, List.mem_cons_of_mem _ mem⟩

/-- Among distinct keys, what is found under a key is what stands there. -/
theorem lookup_eq_some {es : List (Datum × Datum)} (distinct : Distinct es) {k v : Datum} :
    lookup k es = some v ↔ ∃ k', sameKey k' k = true ∧ (k', v) ∈ es := by
  refine ⟨mem_of_lookup, fun ⟨k', same, mem⟩ => ?_⟩
  cases found : lookup k es with
  | none =>
    have other := lookup_eq_none.mp found _ mem
    rw [same] at other
    cases other
  | some v' =>
    obtain ⟨k'', same', mem'⟩ := mem_of_lookup found
    by_cases one : (k'', v') = (k', v)
    · rw [(Prod.mk.inj one).2]
    · have other := distinct.sameKey_eq_false mem' mem one
      rw [sameKey_trans same' (sameKey_comm k' k ▸ same)] at other
      cases other

theorem Distinct.perm {es es' : List (Datum × Datum)} (distinct : Distinct es) (perm : es.Perm es') : Distinct es' :=
  (perm.pairwise_iff fun {e e'} other => sameKey_comm e.1 e'.1 ▸ other).mp distinct

theorem lookup_map (f : Datum → Datum) (k : Datum) (es : List (Datum × Datum)) :
    lookup k (es.map fun e => (e.1, f e.2)) = (lookup k es).map f := by
  induction es with
  | nil => rfl
  | cons e es ih =>
    rw [List.map_cons, lookup, lookup, ih]
    split <;> rfl

/-- The order of entries does not matter to what is found. -/
theorem lookup_perm {es es' : List (Datum × Datum)} (distinct : Distinct es) (perm : es.Perm es') (k : Datum) :
    lookup k es' = lookup k es := by
  ext v
  rw [lookup_eq_some distinct, lookup_eq_some (distinct.perm perm)]
  simp only [perm.mem_iff]

/-- Entries set over others are found first, and the others where there are none. -/
theorem lookup_insertAll {later : List (Datum × Datum)} (distinct : Distinct later) (k : Datum)
    (es : List (Datum × Datum)) : lookup k (insertAll es later) = (lookup k later).or (lookup k es) := by
  induction later generalizing es with
  | nil => rfl
  | cons e later ih =>
    obtain ⟨k', v⟩ := e
    obtain ⟨first, distinct⟩ := List.pairwise_cons.mp distinct
    change lookup k (insertAll (insert k' v es) later) = _
    rw [ih distinct, lookup_insert, lookup]
    by_cases same : sameKey k' k = true
    · have absent : lookup k later = none := lookup_eq_none.mpr fun e mem => by
        rw [← sameKey_comm k, ← sameKey_congr same]
        exact first e mem
      rw [if_pos same, if_pos same, absent]
      rfl
    · rw [if_neg same, if_neg same]

/-! ### Mappings with each key once -/

/-- An entry of a mapping after one was put in was there, or has the value under a key that was there or is new. -/
theorem mem_insert {key value : Datum} {es : List (Datum × Datum)} {e : Datum × Datum} (mem : e ∈ insert key value es) :
    e ∈ es ∨ e.2 = value ∧ (e.1 = key ∨ ∃ e' ∈ es, e'.1 = e.1) := by
  induction es with
  | nil =>
    rw [insert, List.mem_singleton] at mem
    exact .inr (mem ▸ ⟨rfl, .inl rfl⟩)
  | cons e' es ih =>
    rw [insert] at mem
    split at mem
    · rcases List.mem_cons.mp mem with rfl | mem
      · exact .inr ⟨rfl, .inr ⟨e', List.mem_cons_self .., rfl⟩⟩
      · exact .inl (List.mem_cons_of_mem _ mem)
    · rcases List.mem_cons.mp mem with rfl | mem
      · exact .inl (List.mem_cons_self ..)
      · rcases ih mem with there | ⟨value, is | ⟨e'', mem, is⟩⟩
        · exact .inl (List.mem_cons_of_mem _ there)
        · exact .inr ⟨value, .inl is⟩
        · exact .inr ⟨value, .inr ⟨e'', List.mem_cons_of_mem _ mem, is⟩⟩

theorem key_of_mem_insert {key value : Datum} {es : List (Datum × Datum)} {e : Datum × Datum}
    (mem : e ∈ insert key value es) : e.1 = key ∨ ∃ e' ∈ es, e'.1 = e.1 :=
  (mem_insert mem).elim (fun there => .inr ⟨e, there, rfl⟩) And.right

theorem value_of_mem_insert {key value : Datum} {es : List (Datum × Datum)} {e : Datum × Datum}
    (mem : e ∈ insert key value es) : e.2 = value ∨ ∃ e' ∈ es, e'.2 = e.2 :=
  (mem_insert mem).elim (fun there => .inr ⟨e, there, rfl⟩) fun put => .inl put.1

theorem distinct_insert {es : List (Datum × Datum)} (distinct : Distinct es) (key value : Datum) :
    Distinct (insert key value es) := by
  induction es with
  | nil => exact List.pairwise_singleton ..
  | cons e es ih =>
    obtain ⟨first, distinct⟩ := List.pairwise_cons.mp distinct
    rw [insert]
    split
    · exact List.pairwise_cons.mpr ⟨first, distinct⟩
    next other =>
      refine List.pairwise_cons.mpr ⟨fun e' mem => ?_, ih distinct⟩
      rcases key_of_mem_insert mem with is | ⟨e'', mem, is⟩
      · rw [is]
        exact Bool.eq_false_iff.mpr other
      · rw [← is]
        exact first e'' mem

theorem distinct_insertAll {es : List (Datum × Datum)} (distinct : Distinct es) (later : List (Datum × Datum)) :
    Distinct (insertAll es later) := by
  induction later generalizing es with
  | nil => exact distinct
  | cons e later ih => exact ih (distinct_insert distinct e.1 e.2)

/-- A part of each entry that is put in with it or was there comes from the entries a mapping is made of. -/
theorem exists_of_mem_insertAll {part : Datum × Datum → Datum}
    (once : ∀ {key value : Datum} {es : List (Datum × Datum)} {e : Datum × Datum}, e ∈ insert key value es →
      part e = part (key, value) ∨ ∃ e' ∈ es, part e' = part e)
    {es later : List (Datum × Datum)} {e : Datum × Datum} (mem : e ∈ insertAll es later) : ∃ e' ∈ es ++ later, part e' = part e := by
  induction later generalizing es with
  | nil => exact ⟨e, List.mem_append_left _ mem, rfl⟩
  | cons e' later ih =>
    obtain ⟨e'', mem, is⟩ := ih mem
    rcases List.mem_append.mp mem with mem | mem
    · rcases once mem with here | ⟨e₀, mem, here⟩
      · exact ⟨e', List.mem_append_right _ (List.mem_cons_self ..), here.symm.trans is⟩
      · exact ⟨e₀, List.mem_append_left _ mem, here.trans is⟩
    · exact ⟨e'', List.mem_append_right _ (List.mem_cons_of_mem _ mem), is⟩

/-- The values of a mapping are values of the entries it is made of. -/
theorem value_of_mem_insertAll {es later : List (Datum × Datum)} {e : Datum × Datum} (mem : e ∈ insertAll es later) :
    ∃ e' ∈ es ++ later, e'.2 = e.2 :=
  @exists_of_mem_insertAll Prod.snd value_of_mem_insert _ _ _ mem

/-- The keys of a mapping are keys of the entries it is made of. -/
theorem key_of_mem_insertAll {es later : List (Datum × Datum)} {e : Datum × Datum} (mem : e ∈ insertAll es later) :
    ∃ e' ∈ es ++ later, e'.1 = e.1 :=
  @exists_of_mem_insertAll Prod.fst key_of_mem_insert _ _ _ mem

theorem insert_of_absent {key : Datum} {es : List (Datum × Datum)} (absent : ∀ e ∈ es, sameKey e.1 key = false)
    (value : Datum) : insert key value es = es ++ [(key, value)] := by
  induction es with
  | nil => rfl
  | cons e es ih =>
    obtain ⟨first, rest⟩ := List.forall_mem_cons.mp absent
    rw [insert, if_neg (Bool.eq_false_iff.mp first), ih rest]
    rfl

theorem insertAll_of_distinct {es later : List (Datum × Datum)} (distinct : Distinct (es ++ later)) :
    insertAll es later = es ++ later := by
  induction later generalizing es with
  | nil => exact (List.append_nil _).symm
  | cons e later ih =>
    have absent : ∀ e' ∈ es, sameKey e'.1 e.1 = false := fun e' mem =>
      (List.pairwise_append.mp distinct).2.2 e' mem e (List.mem_cons_self ..)
    change insertAll (insert e.1 e.2 es) later = _
    rw [List.append_cons] at distinct ⊢
    rw [insert_of_absent absent, ih distinct]

/-- Entries with different keys are a mapping as they are. -/
theorem ofPairs_of_distinct {es : List (Datum × Datum)} (distinct : Distinct es) : ofPairs es = .mapping es :=
  congrArg mapping (insertAll_of_distinct (List.nil_append es ▸ distinct))

end LuaCapsule.Datum
