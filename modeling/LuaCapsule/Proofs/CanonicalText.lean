import LuaCapsule.Artifact.Store
import LuaCapsule.Proofs.JsonRoundTrip
import LuaCapsule.Proofs.Mappings

/-! The canonical text of an artifact is read back as the artifact, as far as JSON can hold it: but for
the order of entries and the bits of what is not a number, two artifacts of one text are the same. -/

namespace LuaCapsule

/-! ### Values that are the same -/

namespace Datum

mutual

/-- Are two values the same, but for the order of entries and the bits of what is not a number?
Numbers and truth values of different kinds are different. -/
def Same : Datum → Datum → Prop
  | .float x, d' => ∃ y, d' = .float y ∧ (x = y ∨ x.isNaN = true ∧ y.isNaN = true)
  | .list ds, d' => ∃ ds', d' = .list ds' ∧ SameAll ds ds'
  | .mapping es, d' => ∃ fs es', d' = .mapping es' ∧ SameEntries es fs ∧ fs.Perm es'
  | d, d' => d' = d

def SameAll : List Datum → List Datum → Prop
  | [], ds' => ds' = []
  | d :: ds, ds' => ∃ d' rest, ds' = d' :: rest ∧ Same d d' ∧ SameAll ds rest

def SameEntries : List (Datum × Datum) → List (Datum × Datum) → Prop
  | [], es' => es' = []
  | (k, d) :: es, es' => ∃ d' rest, es' = (k, d') :: rest ∧ Same d d' ∧ SameEntries es rest

end

end Datum

namespace Json

open Datum

theorem same_of_settled {x y : Binary64} (h : settledDouble x = settledDouble y) :
    x = y ∨ x.isNaN = true ∧ y.isNaN = true := by
  have odd : Binary64.quietNaN.isNaN = true := by decide
  unfold settledDouble at h
  split at h
  next nan =>
    split at h
    next nan' => exact .inr ⟨nan, nan'⟩
    next => exact .inr ⟨nan, by rw [← h]; exact odd⟩
  next =>
    split at h
    next nan' => exact .inr ⟨by rw [h]; exact odd, nan'⟩
    next => exact .inl h

/-- Entries that are equal once they are in order are equal in some order. -/
theorem exists_perm_of_inOrder {es es' : List (Datum × Datum)}
    (h : inOrder (sortedMembers es) = inOrder (sortedMembers es')) :
    ∃ fs, List.Forall₂ (fun e f => (e.1, sorted e.2) = (f.1, sorted f.2)) es fs ∧ fs.Perm es' := by
  have perm : (es.map fun e => (e.1, sorted e.2)).Perm (es'.map fun e => (e.1, sorted e.2)) := by
    rw [← sortedMembers_eq_map, ← sortedMembers_eq_map]
    have first : (inOrder (sortedMembers es)).Perm (sortedMembers es) := List.mergeSort_perm ..
    have second : (inOrder (sortedMembers es')).Perm (sortedMembers es') := List.mergeSort_perm ..
    rw [h] at first
    exact first.symm.trans second
  have back : List.Forall₂ (fun g e => g = (e.1, sorted e.2)) (es'.map fun e => (e.1, sorted e.2)) es' :=
    List.forall₂_map_left_iff.mpr (List.forall₂_same.mpr fun _ _ => rfl)
  obtain ⟨fs, each, perm⟩ := List.perm_comp_forall₂ perm back
  exact ⟨fs, List.forall₂_map_left_iff.mp each, perm⟩

mutual

/-- Values with one sorted form are the same. -/
theorem same_of_sorted : ∀ {d d' : Datum}, sorted d = sorted d' → Same d d'
  | .float x, d', h => by
    cases d' with
    | float y => exact ⟨y, rfl, same_of_settled (Datum.float.inj h)⟩
    | _ => cases h
  | .list ds, d', h => by
    cases d' with
    | list ds' => exact ⟨ds', rfl, sameAll_of_sorted (Datum.list.inj h)⟩
    | _ => cases h
  | .mapping es, d', h => by
    cases d' with
    | mapping es' =>
      obtain ⟨fs, each, perm⟩ := exists_perm_of_inOrder (Datum.mapping.inj h)
      exact ⟨fs, es', rfl, sameEntries_of_sorted each, perm⟩
    | _ => cases h
  | .null, d', h => by cases d' <;> first | cases h; rfl | cases h
  | .bool _, d', h => by cases d' <;> first | cases h; rfl | cases h
  | .int _, d', h => by cases d' <;> first | cases h; rfl | cases h
  | .text _, d', h => by cases d' <;> first | cases h; rfl | cases h
  | .bytes _, d', h => by cases d' <;> first | cases h; rfl | cases h
  | .tuple _, d', h => by cases d' <;> first | cases h; rfl | cases h
  | .host _, d', h => by cases d' <;> first | cases h; rfl | cases h
  | .live _, d', h => by cases d' <;> first | cases h; rfl | cases h

theorem sameAll_of_sorted : ∀ {ds ds' : List Datum}, sortedAll ds = sortedAll ds' → SameAll ds ds'
  | [], [], _ => rfl
  | [], _ :: _, h => by cases h
  | _ :: _, [], h => by cases h
  | _ :: _, d' :: rest, h =>
    ⟨d', rest, rfl, same_of_sorted (List.cons.inj h).1, sameAll_of_sorted (List.cons.inj h).2⟩

theorem sameEntries_of_sorted : ∀ {es fs : List (Datum × Datum)},
    List.Forall₂ (fun e f => (e.1, sorted e.2) = (f.1, sorted f.2)) es fs → SameEntries es fs
  | [], _, each => by
    cases each
    rfl
  | (k, d) :: es, _, each => by
    cases each with
    | @cons _ f _ fs first others =>
      obtain ⟨key, value⟩ := Prod.mk.inj first
      exact ⟨f.2, fs, congrArg (· :: fs) (Prod.ext key.symm rfl), same_of_sorted value, sameEntries_of_sorted others⟩

end

theorem textLe_iff {a b : String} : textLe a b = true ↔ a ≤ b := by
  rw [textLe, Bool.not_eq_true', decide_eq_false_iff_not, String.not_lt]

/-- What is put in order by a text is in order. -/
theorem pairwise_textLe {α : Type} (text : α → String) (l : List α) :
    (l.mergeSort fun a b => textLe (text a) (text b)).Pairwise fun a b => textLe (text a) (text b) = true := by
  refine List.pairwise_mergeSort ?_ ?_ l
  · intro a b c ab bc
    exact textLe_iff.mpr (String.le_trans (textLe_iff.mp ab) (textLe_iff.mp bc))
  · intro a b
    rw [Bool.or_eq_true, textLe_iff, textLe_iff]
    exact String.le_total ..

/-- Members in order stay as they are when they are put in order. -/
theorem inOrder_inOrder (es : List (Datum × Datum)) : inOrder (inOrder es) = inOrder es := by
  have sorted := pairwise_textLe (fun e : Datum × Datum => keyText e.1) es
  rw [inOrder, inOrder, List.mergeSort_of_pairwise sorted]

theorem sortedMembers_inOrder (es : List (Datum × Datum)) : sortedMembers (inOrder es) = inOrder (sortedMembers es) := by
  rw [sortedMembers_eq_map, sortedMembers_eq_map]
  exact List.map_mergeSort fun _ _ _ _ => rfl

theorem settledDouble_settledDouble (x : Binary64) : settledDouble (settledDouble x) = settledDouble x := by
  by_cases nan : x.isNaN = true
  · rw [settledDouble, settledDouble, if_pos nan]
    rfl
  · rw [settledDouble, settledDouble, if_neg nan, if_neg nan]

/-- Different keys have different texts. -/
theorem nodup_keyText {es : List (Datum × Datum)} (texts : ∀ e ∈ es, ∃ s, e.1 = .text s) (distinct : Distinct es) :
    (es.map fun e => keyText e.1).Nodup := by
  refine List.pairwise_map.mpr (distinct.imp_of_mem fun {e e'} mem mem' other same => ?_)
  obtain ⟨s, is⟩ := texts e mem
  obtain ⟨s', is'⟩ := texts e' mem'
  rw [is, is'] at other same
  obtain rfl : s = s' := same
  simp [sameKey] at other

mutual

/-- A sorted form is its own sorted form. -/
theorem sorted_sorted : ∀ d : Datum, sorted (sorted d) = sorted d
  | .float x => congrArg Datum.float (settledDouble_settledDouble x)
  | .list ds => congrArg Datum.list (sortedAll_sortedAll ds)
  | .mapping es => by
    rw [sorted, sorted, sortedMembers_inOrder, sortedMembers_sortedMembers es, inOrder_inOrder]
  | .null => rfl
  | .bool _ => rfl
  | .int _ => rfl
  | .text _ => rfl
  | .bytes _ => rfl
  | .tuple _ => rfl
  | .host _ => rfl
  | .live _ => rfl

theorem sortedAll_sortedAll : ∀ ds : List Datum, sortedAll (sortedAll ds) = sortedAll ds
  | [] => rfl
  | d :: ds => by rw [sortedAll, sortedAll, sorted_sorted d, sortedAll_sortedAll ds]

theorem sortedMembers_sortedMembers : ∀ es : List (Datum × Datum), sortedMembers (sortedMembers es) = sortedMembers es
  | [] => rfl
  | (k, d) :: es => by rw [sortedMembers, sortedMembers, sorted_sorted d, sortedMembers_sortedMembers es]

end

/-! ### Depth -/

mutual

theorem Plain.mono : ∀ {n n' : Nat} {d : Datum}, Plain n d → n ≤ n' → Plain n' d
  | n + 1, n', .list ds, plain, le => by
    obtain ⟨n', rfl⟩ : ∃ m, n' = m + 1 := ⟨n' - 1, by omega⟩
    rw [Plain] at plain ⊢
    exact plainAll_mono plain (Nat.le_of_succ_le_succ le)
  | n + 1, n', .mapping es, plain, le => by
    obtain ⟨n', rfl⟩ : ∃ m, n' = m + 1 := ⟨n' - 1, by omega⟩
    rw [Plain] at plain ⊢
    exact ⟨plainMembers_mono plain.1 (Nat.le_of_succ_le_succ le), plain.2⟩
  | 0, _, .list _, plain, _ => by simp [Plain] at plain
  | 0, _, .mapping _, plain, _ => by simp [Plain] at plain
  | _, _, .null, _, _ => by simp [Plain]
  | _, _, .bool _, _, _ => by simp [Plain]
  | _, _, .int _, plain, _ => by
    rw [Plain] at plain ⊢
    exact plain
  | _, _, .float _, _, _ => by simp [Plain]
  | _, _, .text _, _, _ => by simp [Plain]
  | _, _, .bytes _, plain, _ => by simp [Plain] at plain
  | _, _, .tuple _, plain, _ => by simp [Plain] at plain
  | _, _, .host _, plain, _ => by simp [Plain] at plain
  | _, _, .live _, plain, _ => by simp [Plain] at plain

theorem plainAll_mono : ∀ {n n' : Nat} {ds : List Datum}, PlainAll n ds → n ≤ n' → PlainAll n' ds
  | _, _, [], _, _ => by simp [PlainAll]
  | n, n', d :: ds, plain, le => by
    rw [PlainAll] at plain ⊢
    exact ⟨plain.1.mono le, plainAll_mono plain.2 le⟩

theorem plainMembers_mono : ∀ {n n' : Nat} {es : List (Datum × Datum)}, PlainMembers n es → n ≤ n' → PlainMembers n' es
  | _, _, [], _, _ => by simp [PlainMembers]
  | n, n', (k, d) :: es, plain, le => by
    rw [PlainMembers] at plain ⊢
    exact ⟨plain.1, plain.2.1.mono le, plainMembers_mono plain.2.2 le⟩

end

theorem length_le_intercalate {t : String} {ts : List String} (mem : t ∈ ts) :
    t.length ≤ (",".intercalate ts).length := by
  induction ts with
  | nil => cases mem
  | cons t' ts ih =>
    cases ts with
    | nil =>
      obtain rfl := List.mem_singleton.mp mem
      rw [String.intercalate_singleton]
    | cons t'' ts =>
      rw [String.intercalate_cons_cons, String.length_append, String.length_append]
      rcases List.mem_cons.mp mem with rfl | mem
      · omega
      · have := ih mem
        omega

/-- Parts are shorter than what stands in brackets. -/
theorem exists_length_bracketed (opening closing : String) (ts : List String) (some' : 0 < opening.length) :
    ∃ k, (bracketed opening closing ts).length = k + 1 ∧ ∀ t ∈ ts, t.length ≤ k := by
  have whole : (bracketed opening closing ts).length = opening.length + (",".intercalate ts).length + closing.length := by
    rw [bracketed, String.length_append, String.length_append]
  refine ⟨(bracketed opening closing ts).length - 1, by omega, fun t mem => ?_⟩
  have := length_le_intercalate mem
  omega

theorem exists_length_object (ascii : Bool) (ms : List (String × String)) :
    ∃ k, (object ascii ms).length = k + 1 ∧ ∀ m ∈ ms, m.2.length ≤ k := by
  obtain ⟨k, length, short⟩ := exists_length_bracketed "\x7b" "\x7d"
    ((ms.mergeSort fun a b => textLe a.1 b.1).map fun m => quote ascii m.1 ++ ":" ++ m.2) (by decide)
  refine ⟨k, length, fun m mem => Nat.le_trans ?_ (short _ (List.mem_map_of_mem (List.mem_mergeSort.mpr mem)))⟩
  rw [String.length_append]
  omega

mutual

/-- A value does not nest deeper than its text is long. -/
theorem plain_length {ascii : Bool} : ∀ {n : Nat} {d : Datum} {s : String}, Plain n d → write? ascii d = some s →
    Plain s.length d
  | n + 1, .list ds, s, plain, written => by
    rw [Plain] at plain
    rw [write?, Option.map_eq_some_iff] at written
    obtain ⟨ts, written, rfl⟩ := written
    obtain ⟨k, length, short⟩ := exists_length_bracketed "[" "]" ts (by decide)
    rw [length, Plain]
    exact plainAll_length plain written short
  | n + 1, .mapping es, s, plain, written => by
    rw [Plain] at plain
    rw [write?, Option.map_eq_some_iff] at written
    obtain ⟨ms, written, rfl⟩ := written
    obtain ⟨k, length, short⟩ := exists_length_object ascii ms
    rw [length, Plain]
    exact ⟨plainMembers_length plain.1 written short, plain.2⟩
  | 0, .list _, _, plain, _ => by simp [Plain] at plain
  | 0, .mapping _, _, plain, _ => by simp [Plain] at plain
  | _, .null, _, _, _ => by simp [Plain]
  | _, .bool _, _, _, _ => by simp [Plain]
  | _, .int _, _, plain, _ => by
    rw [Plain] at plain ⊢
    exact plain
  | _, .float _, _, _, _ => by simp [Plain]
  | _, .text _, _, _, _ => by simp [Plain]
  | _, .bytes _, _, plain, _ => by simp [Plain] at plain
  | _, .tuple _, _, plain, _ => by simp [Plain] at plain
  | _, .host _, _, plain, _ => by simp [Plain] at plain
  | _, .live _, _, plain, _ => by simp [Plain] at plain

theorem plainAll_length {ascii : Bool} : ∀ {n k : Nat} {ds : List Datum} {ts : List String}, PlainAll n ds →
    writeAll? ascii ds = some ts → (∀ t ∈ ts, t.length ≤ k) → PlainAll k ds
  | _, _, [], _, _, _, _ => by simp [PlainAll]
  | n, k, d :: ds, ts, plain, written, short => by
    rw [PlainAll] at plain ⊢
    rw [writeAll?] at written
    split at written
    next t ts' first others =>
      obtain rfl := Option.some.inj written
      obtain ⟨head, tail⟩ := List.forall_mem_cons.mp short
      exact ⟨(plain_length plain.1 first).mono head, plainAll_length plain.2 others tail⟩
    next => cases written

theorem plainMembers_length {ascii : Bool} : ∀ {n k : Nat} {es : List (Datum × Datum)} {ms : List (String × String)},
    PlainMembers n es → writeMembers? ascii es = some ms → (∀ m ∈ ms, m.2.length ≤ k) → PlainMembers k es
  | _, _, [], _, _, _, _ => by simp [PlainMembers]
  | n, k, (key, d) :: es, ms, plain, written, short => by
    rw [PlainMembers] at plain ⊢
    rw [plain.1, writeMembers?] at written
    split at written
    next t ms' first others =>
      obtain rfl := Option.some.inj written
      obtain ⟨head, tail⟩ := List.forall_mem_cons.mp short
      exact ⟨plain.1, (plain_length plain.2.1 first).mono head, plainMembers_length plain.2.2 others tail⟩
    next => cases written

end

/-- A plain value is read back from its text with depth enough for whatever has that length. -/
theorem read_written {ascii : Bool} {n : Nat} {d : Datum} {s : String} (plain : Plain n d)
    (written : write? ascii d = some s) : read? ⟨s.length⟩ s = some (sorted d) := by
  obtain ⟨s', written', read⟩ := read_write ascii ⟨s.length⟩ (plain_length plain written)
  obtain rfl := Option.some.inj (written.symm.trans written')
  exact read

end Json

namespace Artifact

open Json

/-! ### Plain forms -/

theorem refusal?_list {ds : List Datum} : anyRefusal? ds = none ↔ ∀ d ∈ ds, refusal? d = none := by
  induction ds with
  | nil => simp [anyRefusal?]
  | cons d ds ih => rw [anyRefusal?, Option.or_eq_none_iff, ih, List.forall_mem_cons]

theorem mem_refusals {es : List (Datum × Datum)} {k : String} {d : Datum} (mem : (.text k, d) ∈ es) :
    (k, refusal? d) ∈ refusals es := by
  induction es with
  | nil => cases mem
  | cons e es ih =>
    obtain ⟨k', d'⟩ := e
    rcases List.mem_cons.mp mem with is | mem
    · obtain ⟨rfl, rfl⟩ := Prod.mk.inj is
      rw [refusals]
      exact List.mem_cons_self ..
    · have later := ih mem
      cases k' <;> exact List.mem_cons_of_mem _ later

theorem refusal?_member {es : List (Datum × Datum)} (none' : refusal? (.mapping es) = none) {k : String} {d : Datum}
    (mem : (.text k, d) ∈ es) : refusal? d = none := by
  rw [refusal?, List.findSome?_eq_none_iff] at none'
  exact none' _ (List.mem_mergeSort.mpr (mem_refusals mem))

theorem exists_plainAll {ds : List Datum} (h : ∀ d ∈ ds, ∃ n, Plain n d) : ∃ n, PlainAll n ds := by
  induction ds with
  | nil => exact ⟨0, by simp [PlainAll]⟩
  | cons d ds ih =>
    obtain ⟨⟨n, first⟩, others⟩ := List.forall_mem_cons.mp h
    obtain ⟨n', others⟩ := ih others
    refine ⟨max n n', ?_⟩
    rw [PlainAll]
    exact ⟨first.mono (Nat.le_max_left ..), plainAll_mono others (Nat.le_max_right ..)⟩

/-- A list can be written if its items can. -/
theorem exists_plain_list {ds : List Datum} (items : ∀ d ∈ ds, refusal? d = none → ∃ n, Plain n d)
    (none' : refusal? (.list ds) = none) : ∃ n, Plain n (.list ds) := by
  obtain ⟨n, all⟩ := exists_plainAll fun d mem => items d mem (refusal?_list.mp none' d mem)
  exact ⟨n + 1, by rwa [Plain]⟩

theorem exists_plainMembers {es : List (Datum × Datum)}
    (h : ∀ e ∈ es, (∃ k, e.1 = .text k) ∧ ∃ n, Plain n e.2) : ∃ n, PlainMembers n es := by
  induction es with
  | nil => exact ⟨0, by simp [PlainMembers]⟩
  | cons e es ih =>
    obtain ⟨k, d⟩ := e
    obtain ⟨⟨⟨k, key⟩, n, first⟩, others⟩ := List.forall_mem_cons.mp h
    obtain ⟨n', others⟩ := ih others
    dsimp only at key first
    refine ⟨max n n', ?_⟩
    rw [PlainMembers]
    exact ⟨by rw [key, Json.keyText], first.mono (Nat.le_max_left ..), plainMembers_mono others (Nat.le_max_right ..)⟩

/-- A mapping of entries whose keys are texts can be written if its values can. -/
theorem exists_plain_ofPairs {es : List (Datum × Datum)} (texts : ∀ e ∈ es, ∃ k, e.1 = .text k)
    (values : ∀ e ∈ es, refusal? e.2 = none → ∃ n, Plain n e.2) (none' : refusal? (Datum.ofPairs es) = none) :
    ∃ n, Plain n (Datum.ofPairs es) := by
  have keys : ∀ e ∈ Datum.insertAll [] es, ∃ k, e.1 = .text k := by
    intro e mem
    obtain ⟨e', mem', same⟩ := Datum.key_of_mem_insertAll mem
    exact same ▸ texts e' mem'
  have members : ∀ e ∈ Datum.insertAll [] es, (∃ k, e.1 = .text k) ∧ ∃ n, Plain n e.2 := by
    intro e mem
    obtain ⟨k, key⟩ := keys e mem
    obtain ⟨e', mem', same⟩ := Datum.value_of_mem_insertAll mem
    have allowed : refusal? e.2 = none := refusal?_member none' (k := k) (by rw [← key]; exact mem)
    refine ⟨⟨k, key⟩, ?_⟩
    rw [← same] at allowed ⊢
    exact values e' mem' allowed
  obtain ⟨n, plain⟩ := exists_plainMembers members
  refine ⟨n + 1, ?_⟩
  rw [Datum.ofPairs, Plain]
  exact ⟨plain, Json.nodup_keyText keys (Datum.distinct_insertAll .nil es)⟩

mutual

/-- What has a plain form that is not refused can be written. -/
theorem exists_plain : ∀ {a p : Datum}, plain a = .ok p → refusal? p = none → ∃ n, Plain n p
  | .bytes b, p, made, _ => by
    rw [plain] at made
    split at made
    next =>
      cases made
      exact ⟨0, by simp [Plain]⟩
    next => cases made
  | .list ds, p, made, none' => by
    rw [plain] at made
    cases items : plainItems ds with
    | error f => rw [items] at made; cases made
    | ok ds' =>
      rw [items] at made
      cases made
      exact exists_plain_list (exists_plainItems items) none'
  | .tuple ds, p, made, none' => by
    rw [plain] at made
    cases items : plainItems ds with
    | error f => rw [items] at made; cases made
    | ok ds' =>
      rw [items] at made
      cases made
      exact exists_plain_list (exists_plainItems items) none'
  | .mapping es, p, made, none' => by
    rw [plain] at made
    cases entries : plainEntries es with
    | error f => rw [entries] at made; cases made
    | ok es' =>
      rw [entries] at made
      cases made
      have each := exists_plainEntries entries
      exact exists_plain_ofPairs (fun e mem => (each e mem).1) (fun e mem => (each e mem).2) none'
  | .null, p, made, _ => by
    cases made
    exact ⟨0, by simp [Plain]⟩
  | .bool _, p, made, _ => by
    cases made
    exact ⟨0, by simp [Plain]⟩
  | .int i, p, made, none' => by
    cases made
    refine ⟨0, ?_⟩
    rw [refusal?] at none'
    rw [Plain, ← Bool.not_eq_true]
    intro long
    rw [if_pos long] at none'
    cases none'
  | .float _, p, made, _ => by
    cases made
    exact ⟨0, by simp [Plain]⟩
  | .text _, p, made, _ => by
    cases made
    exact ⟨0, by simp [Plain]⟩
  | .host _, p, made, none' => by
    cases made
    cases none'
  | .live _, p, made, none' => by
    cases made
    cases none'

theorem exists_plainItems : ∀ {ds ps : List Datum}, plainItems ds = .ok ps → ∀ p ∈ ps, refusal? p = none → ∃ n, Plain n p
  | [], ps, made => by
    cases made
    exact nofun
  | d :: ds, ps, made => by
    rw [plainItems] at made
    cases first : plain d with
    | error f => rw [first] at made; cases made
    | ok p =>
      cases others : plainItems ds with
      | error f => rw [first, others] at made; cases made
      | ok ps' =>
        rw [first, others] at made
        cases made
        exact List.forall_mem_cons.mpr ⟨exists_plain first, exists_plainItems others⟩

theorem exists_plainEntries : ∀ {es ps : List (Datum × Datum)}, plainEntries es = .ok ps →
    ∀ p ∈ ps, (∃ k, p.1 = .text k) ∧ (refusal? p.2 = none → ∃ n, Plain n p.2)
  | [], ps, made => by
    cases made
    exact nofun
  | (k, d) :: es, ps, made => by
    rw [plainEntries] at made
    cases key : keyText k with
    | error f => rw [key] at made; cases made
    | ok t =>
      cases first : plain d with
      | error f => rw [key, first] at made; cases made
      | ok p =>
        cases others : plainEntries es with
        | error f => rw [key, first, others] at made; cases made
        | ok ps' =>
          rw [key, first, others] at made
          cases made
          exact List.forall_mem_cons.mpr ⟨⟨⟨t, rfl⟩, exists_plain first⟩, exists_plainEntries others⟩

end

/-! ### Texts -/

/-- An artifact has a canonical text if its plain form is not refused. -/
theorem canonical_eq_ok {a : Datum} {s : String} :
    canonical a = .ok s ↔ ∃ p, plain a = .ok p ∧ refusal? p = none ∧ write? true p = some s := by
  rw [canonical]
  cases plain a with
  | error f => simp [bind, Except.bind]
  | ok p =>
    change written p = .ok s ↔ _
    rw [written]
    cases refused : refusal? p with
    | some f => simp [refused]
    | none => cases text : write? true p <;> simp [refused, text]

/-- A canonical text is read back as the plain form in order. -/
theorem read?_canonical {a p : Datum} {s : String} (canonical : canonical a = .ok s) (made : plain a = .ok p) :
    Json.read? ⟨s.length⟩ s = some (sorted p) := by
  obtain ⟨p', made', none', written⟩ := canonical_eq_ok.mp canonical
  obtain rfl := Except.ok.inj (made.symm.trans made')
  obtain ⟨n, plain⟩ := exists_plain made none'
  exact read_written plain written

/-- Artifacts with one canonical text have the same plain forms. -/
theorem sorted_eq_of_canonical {a a' p p' : Datum} {s : String} (first : canonical a = .ok s) (second : canonical a' = .ok s)
    (made : plain a = .ok p) (made' : plain a' = .ok p') : sorted p = sorted p' :=
  Option.some.inj ((read?_canonical first made).symm.trans (read?_canonical second made'))

theorem plain_mapping {es : List (Datum × Datum)} {p : Datum} (made : plain (.mapping es) = .ok p) :
    ∃ ps, p = .mapping ps := by
  rw [plain] at made
  cases entries : plainEntries es with
  | error f => rw [entries] at made; cases made
  | ok ps =>
    rw [entries] at made
    cases made
    exact ⟨_, rfl⟩

/-- An object begins with a brace, and with a quote or another brace behind it. -/
theorem object_head (ms : List (String × String)) : ∃ c cs, (object true ms).toList = '\x7b' :: c :: cs ∧ (c = '"' ∨ c = '\x7d') := by
  rw [object, bracketed, String.toList_append, String.toList_append]
  cases ms.mergeSort fun a b => textLe a.1 b.1 with
  | nil => exact ⟨'\x7d', [], rfl, .inr rfl⟩
  | cons m ms =>
    have start : (quote true m.1 ++ ":" ++ m.2).toList = '"' :: (m.1.toList.flatMap (escape true) ++ ['"'] ++ ":".toList ++ m.2.toList) := by
      rw [String.toList_append, String.toList_append, toList_quote]
      rfl
    obtain ⟨cs, head⟩ := intercalate_head start (ms.map fun m => quote true m.1 ++ ":" ++ m.2)
    rw [List.map_cons, head]
    exact ⟨'"', _, rfl, .inl rfl⟩

theorem at0_append {b b' : Bytes} {i : Nat} (inside : i < b.size) : Bytes.at0 (b ++ b') i = b.at0 i := by
  have inside' : i < (b ++ b').size := by
    rw [ByteArray.size_append]
    omega
  rw [Bytes.at0, Bytes.at0, dif_pos inside, dif_pos inside']
  exact ByteArray.getElem_append_left inside

theorem at0_of_startsWith {b : Bytes} {c : UInt8} {l : List UInt8} (starts : b.startsWith (Bytes.ofList (c :: l)) = true) :
    b.at0 0 = c := by
  rw [Bytes.startsWith, Bytes.matchesAt, Bool.and_eq_true, decide_eq_true_eq] at starts
  obtain ⟨size, same⟩ := starts
  have some' : 0 < (Bytes.ofList (c :: l)).size := by
    change 0 < (c :: l).toArray.size
    simp
  have first : Bytes.at0 (b.extract 0 (0 + (Bytes.ofList (c :: l)).size)) 0 = c := by
    rw [Datum.eq_of_beq_bytes same]
    rfl
  rw [Bytes.at0, dif_pos (by rw [ByteArray.size_extract]; omega), ByteArray.getElem_extract] at first
  rw [Bytes.at0, dif_pos (show 0 < b.size by omega)]
  exact first

/-- The encoding of a text that begins like an object is seen from its first two bytes. -/
theorem detectText?_ofString {s : String} {c : Char} {cs : List Char} (chars : s.toList = '\x7b' :: c :: cs)
    (second : c = '"' ∨ c = '\x7d') : (Bytes.ofString s).detectText? = some s := by
  have start : (Bytes.ofString s).at0 0 = 0x7b ∧ (Bytes.ofString s).at0 1 ≠ 0 := by
    have split : Bytes.ofString s = (String.ofList ['\x7b', c]).toUTF8 ++ (String.ofList cs).toUTF8 := by
      refine Eq.trans ?_ String.toByteArray_append
      rw [← String.ofList_append, List.cons_append, List.singleton_append, ← chars, String.ofList_toList]
      rfl
    have two : (String.ofList ['\x7b', c]).toUTF8 = ⟨#[0x7b, 0x22]⟩ ∨ (String.ofList ['\x7b', c]).toUTF8 = ⟨#[0x7b, 0x7d]⟩ :=
      second.imp (fun is => by rw [is]; rfl) fun is => by rw [is]; rfl
    rcases two with two | two <;> rw [split, two, at0_append (by decide), at0_append (by decide)] <;> decide
  obtain ⟨first, second⟩ := start
  have none {c : UInt8} {l : List UInt8} (other : c ≠ 0x7b) : (Bytes.ofString s).startsWith (Bytes.ofList (c :: l)) = false := by
    rw [← Bool.not_eq_true]
    exact fun starts => other ((at0_of_startsWith starts).symm.trans first)
  have detected : TextEncoding.detect (Bytes.ofString s) = (.utf8, 0) := by
    unfold TextEncoding.detect
    simp [none, first, second]
  rw [Bytes.detectText?, detected]
  change Bytes.toText? (Bytes.slice (Bytes.ofString s) 0 _) = some s
  rw [Bytes.slice, ByteArray.extract_zero_size, Bytes.toText?_ofString]

variable {es : List (Datum × Datum)} {p : Datum} {s : String} (canonical : canonical (.mapping es) = .ok s)
  (made : plain (.mapping es) = .ok p)
include canonical made

/-- The canonical text of a mapping is read back as a mapping. -/
theorem readText?_canonical : readText? s = some (sorted p) := by
  obtain ⟨ps, rfl⟩ := plain_mapping made
  rw [readText?, read?_canonical canonical made]
  rfl

theorem detectText?_canonical : (Bytes.ofString s).detectText? = some s := by
  obtain ⟨p', made', _, written⟩ := canonical_eq_ok.mp canonical
  obtain rfl := Except.ok.inj (made.symm.trans made')
  obtain ⟨ps, rfl⟩ := plain_mapping made
  rw [write?, Option.map_eq_some_iff] at written
  obtain ⟨ms, _, rfl⟩ := written
  obtain ⟨c, cs, chars, second⟩ := object_head ms
  exact detectText?_ofString chars second

end Artifact

end LuaCapsule
