import LuaCapsule.Json.Reader
import LuaCapsule.Proofs.Passage

/-! What reading JSON gives. A value that was read is made of scalars, lists and mappings of texts, in
which each key stands once. Such a value is encoded unless a number or a position in it does not fit
in 64 bits, and that is how it is refused. -/

namespace LuaCapsule

open Lua

namespace Json

/-- A value that JSON can say. -/
inductive IsJson : Datum → Prop
  | null : IsJson .null
  | bool (b : Bool) : IsJson (.bool b)
  | int (i : Int) : IsJson (.int i)
  | float (x : Binary64) : IsJson (.float x)
  | text (s : String) : IsJson (.text s)
  | list {ds : List Datum} (each : ∀ d ∈ ds, IsJson d) : IsJson (.list ds)
  | mapping {es : List (Datum × Datum)} (texts : ∀ e ∈ es, ∃ s, e.1 = .text s) (distinct : Datum.Distinct es)
    (each : ∀ e ∈ es, IsJson e.2) : IsJson (.mapping es)

/-- One more member keeps a mapping one. -/
theorem IsJson.insert {es : List (Datum × Datum)} {d : Datum} (json : IsJson (.mapping es)) (name : String)
    (value : IsJson d) : IsJson (.mapping (Datum.insert (.text name) d es)) := by
  cases json with
  | mapping texts distinct each =>
    refine .mapping (fun e mem => ?_) (Datum.distinct_insert distinct _ _) fun e mem => ?_
    · obtain is | ⟨e', mem', is⟩ := Datum.key_of_mem_insert mem
      · exact ⟨name, is⟩
      · rw [← is]
        exact texts e' mem'
    · obtain is | ⟨e', mem', is⟩ := Datum.value_of_mem_insert mem
      · rw [is]
        exact value
      · rw [← is]
        exact each e' mem'

theorem IsJson.item {ds : List Datum} (json : IsJson (.list ds)) {d : Datum} (mem : d ∈ ds) : IsJson d := by
  cases json with
  | list each => exact each d mem

theorem IsJson.value {es : List (Datum × Datum)} (json : IsJson (.mapping es)) {k d : Datum} (found : Datum.lookup k es = some d) :
    IsJson d := by
  obtain ⟨k', _, mem⟩ := Datum.mem_of_lookup found
  cases json with
  | mapping texts distinct each => exact each (k', d) mem

/-! ### Reading -/

theorem isJson_readNumber {negative : Bool} {cs rest : List Char} {d : Datum}
    (read : readNumber negative cs = some (d, rest)) : IsJson d := by
  unfold readNumber at read
  split at read
  · cases read
  extract_lets fraction at read
  clear_value fraction
  split at read
  · cases read
  split at read
  · cases read
  split at read
  · split at read
    · cases read
    · cases read
      exact .int _
  · cases read
    exact .float _

theorem isJson_readScalar {cs rest : List Char} {d : Datum} (read : readScalar cs = some (d, rest)) : IsJson d := by
  unfold readScalar at read
  split at read
  · split at read
    · cases read
      exact .float _
    · exact isJson_readNumber read
  · split at read
    · exact isJson_readNumber read
    · obtain ⟨w, mem, read⟩ := List.exists_of_findSome?_eq_some read
      obtain ⟨_, _, is⟩ := Option.map_eq_some_iff.mp read
      obtain rfl := (Prod.mk.inj is).1
      simp only [List.mem_cons, List.not_mem_nil, or_false] at mem
      obtain rfl | rfl | rfl | rfl | rfl := mem
      · exact .null
      · exact .bool true
      · exact .bool false
      · exact .float _
      · exact .float _
  · cases read

/-- Values, items and members that are read are such values, in so many steps. -/
def ReadsJson (fuel : Nat) : Prop :=
  (∀ depth cs d rest, readValue depth fuel cs = some (d, rest) → IsJson d) ∧
  (∀ depth acc cs ds rest, (∀ d ∈ acc, IsJson d) → readItems depth fuel acc cs = some (ds, rest) → ∀ d ∈ ds, IsJson d) ∧
  (∀ depth acc cs es rest, IsJson (.mapping acc) → readMembers depth fuel acc cs = some (es, rest) → IsJson (.mapping es))

theorem isJson_nil : IsJson (.mapping []) :=
  .mapping (List.forall_mem_nil _) .nil (List.forall_mem_nil _)

theorem readsJson (fuel : Nat) : ReadsJson fuel := by
  induction fuel with
  | zero => exact ⟨nofun, nofun, nofun⟩
  | succ fuel ih =>
    obtain ⟨value, items, members⟩ := ih
    refine ⟨fun depth cs d rest read => ?_, fun depth acc cs ds rest each read => ?_,
      fun depth acc cs es rest each read => ?_⟩
    · unfold readValue at read
      split at read
      · obtain ⟨r, _, is⟩ := Option.map_eq_some_iff.mp read
        obtain rfl := (Prod.mk.inj is).1
        exact .text _
      · split at read
        · cases read
        · split at read
          · cases read
            exact .list (by simp)
          · obtain ⟨r, read', is⟩ := Option.map_eq_some_iff.mp read
            obtain rfl := (Prod.mk.inj is).1
            exact .list (items _ _ _ _ _ (by simp) read')
      · split at read
        · cases read
        · split at read
          · cases read
            exact isJson_nil
          · obtain ⟨r, read', is⟩ := Option.map_eq_some_iff.mp read
            obtain rfl := (Prod.mk.inj is).1
            exact members _ _ _ _ _ isJson_nil read'
      · exact isJson_readScalar read
    · unfold readItems at read
      split at read
      · cases read
      next item rest' one =>
        have more : ∀ d ∈ item :: acc, IsJson d := List.forall_mem_cons.mpr ⟨value _ _ _ _ one, each⟩
        split at read
        · exact items _ _ _ _ _ more read
        · cases read
          exact fun d mem => more d (List.mem_reverse.mp mem)
        · cases read
    · unfold readMembers at read
      split at read
      · split at read
        · cases read
        next name _ _ =>
          split at read
          · split at read
            · cases read
            next one =>
              have more := each.insert name (value _ _ _ _ one)
              dsimp only at read
              split at read
              · exact members _ _ _ _ _ more read
              · cases read
                exact more
              · cases read
          · cases read
      · cases read

theorem isJson_read? {limits : Limits} {s : String} {d : Datum} (read : read? limits s = some d) : IsJson d := by
  unfold read? at read
  dsimp only at read
  split at read
  next one =>
    split at read
    · cases read
      exact (readsJson _).1 _ _ _ _ one
    · cases read
  · cases read

/-! ### Encoding -/

open Codec

mutual

/-- What was read is refused for its numbers and positions only. -/
theorem IsJson.faultsAre : ∀ {d : Datum}, IsJson d → FaultsAre (· = .overflow) d
  | .list _, .list each => ⟨allFaultsAre_of_isJson each, .inr rfl⟩
  | .mapping _, .mapping texts _ each => fieldFaultsAre_of_isJson texts each
  | .int i, _ => fun f refused => by
    cases inside : isInt64 i <;> simp [scalar, inside] at refused
    exact refused.symm
  | .bool _, _ => nofun
  | .float _, _ => nofun
  | .text _, _ => nofun
  | .null, _ => nofun

theorem allFaultsAre_of_isJson : ∀ {ds : List Datum}, (∀ d ∈ ds, IsJson d) → AllFaultsAre (· = .overflow) ds
  | [], _ => trivial
  | d :: _, each => ⟨(each d List.mem_cons_self).faultsAre, allFaultsAre_of_isJson fun d mem => each d (List.mem_cons_of_mem _ mem)⟩

theorem fieldFaultsAre_of_isJson : ∀ {es : List (Datum × Datum)}, (∀ e ∈ es, ∃ s, e.1 = .text s) →
    (∀ e ∈ es, IsJson e.2) → FieldFaultsAre (· = .overflow) es
  | [], _, _ => trivial
  | e :: _, texts, each =>
    ⟨.inl (exists_key?_of_text (texts e List.mem_cons_self)), (each e List.mem_cons_self).faultsAre,
      fieldFaultsAre_of_isJson (fun e mem => texts e (List.mem_cons_of_mem _ mem))
        fun e mem => each e (List.mem_cons_of_mem _ mem)⟩

end

mutual

/-- What was read and can be encoded is a tree. -/
theorem IsJson.isTree : ∀ {d : Datum}, IsJson d → isEncodable d = true → Datum.IsTree d
  | .list _, .list each, fits => by
    obtain ⟨items, length⟩ := Bool.and_eq_true_iff.mp fits
    exact ⟨areTrees_of_isJson each items, length⟩
  | .mapping _, .mapping texts distinct each, fits => ⟨areFieldTrees_of_isJson texts each fits, distinct⟩
  | .int i, _, fits => by
    show isInt64 i = true
    cases inside : isInt64 i with
    | true => rfl
    | false => simp [isEncodable, scalar, inside, Except.toBool] at fits
  | .bool _, _, _ => trivial
  | .float _, _, _ => trivial
  | .text _, _, _ => trivial
  | .null, _, _ => trivial

theorem areTrees_of_isJson : ∀ {ds : List Datum}, (∀ d ∈ ds, IsJson d) → areEncodable ds = true → Datum.AreTrees ds
  | [], _, _ => trivial
  | d :: _, each, fits => by
    obtain ⟨one, others⟩ := Bool.and_eq_true_iff.mp fits
    exact ⟨(each d List.mem_cons_self).isTree one, areTrees_of_isJson (fun d mem => each d (List.mem_cons_of_mem _ mem)) others⟩

theorem areFieldTrees_of_isJson : ∀ {es : List (Datum × Datum)}, (∀ e ∈ es, ∃ s, e.1 = .text s) →
    (∀ e ∈ es, IsJson e.2) → areFields es = true → Datum.AreFieldTrees es
  | [], _, _, _ => trivial
  | e :: _, texts, each, fits => by
    obtain ⟨one, others⟩ := Bool.and_eq_true_iff.mp fits
    exact ⟨.inl (texts e List.mem_cons_self), (each e List.mem_cons_self).isTree (Bool.and_eq_true_iff.mp one).1,
      areFieldTrees_of_isJson (fun e mem => texts e (List.mem_cons_of_mem _ mem))
        (fun e mem => each e (List.mem_cons_of_mem _ mem)) others⟩

end

end Json

end LuaCapsule
