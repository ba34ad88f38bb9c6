import LuaCapsule.Proofs.Survey
import Mathlib.Data.List.Sort

/-! Listings of two heaps that differ in the names of objects only. Both surveys go in lock step:
they meet renamed objects in the same order, give them the same places, and find the same owners
of captured variables. The one thing that names decide is the order of keys that are objects, so
that no table may have several of those. -/

namespace LuaCapsule

open Lua

/-! ### Tables in order -/

namespace Lua

/-- No table that can be reached has several keys that are objects. -/
def Heap.SingleObjectKeys (h : Heap) : Prop :=
  ∀ (t : Nat) (r s : Ref), h.Reaches (.table t) → (h.table t).get (.ref r) ≠ .nil →
    (h.table t).get (.ref s) ≠ .nil → r = s

theorem Key.cmp_self (k : Key) : Key.cmp k k = .eq := Std.ReflCmp.compare_self

theorem Key.cmp_swap (k k' : Key) : Key.cmp k k' = (Key.cmp k' k).swap := Std.OrientedCmp.eq_swap

theorem Key.cmp_rename {f : Ref → Ref} {k k' : Key} (less : Key.cmp k k' = .lt)
    (single : ∀ r s, k = .ref r → k' = .ref s → r = s) : Key.cmp (k.rename f) (k'.rename f) = .lt := by
  cases k with
  | ref r =>
    cases k' with
    | ref s =>
      obtain rfl := single r s rfl rfl
      rw [Key.cmp_self] at less
      cases less
    | _ => cases less
  | _ =>
    cases k' with
    | ref s => rfl
    | _ => exact less

/-- Renaming the keys of a table leaves them in order. -/
theorem Table.Renamed.keys_eq {f : Ref → Ref} {t t' : Table} (renamed : Table.Renamed f t t')
    (single : ∀ r s, t.get (.ref r) ≠ .nil → t.get (.ref s) ≠ .nil → r = s) :
    (t.toList.map Prod.fst).map (Key.rename f) = t'.toList.map Prod.fst := by
  have sorted : ((t.toList.map Prod.fst).map (Key.rename f)).Pairwise fun k k' => Key.cmp k k' = .lt := by
    rw [List.pairwise_map]
    refine t.keys_sorted.imp_of_mem ?_
    intro k k' mem mem' less
    refine Key.cmp_rename less ?_
    rintro r s rfl rfl
    exact single r s (mem_keys.mp mem) (mem_keys.mp mem')
  have sorted' := t'.keys_sorted
  have distinct {ks : List Key} (sorted : ks.Pairwise fun k k' => Key.cmp k k' = .lt) : ks.Nodup := by
    refine sorted.imp ?_
    rintro k _ less rfl
    rw [Key.cmp_self] at less
    cases less
  refine List.Perm.eq_of_pairwise ?_ sorted sorted' ?_
  · intro k k' _ _ less more
    rw [Key.cmp_swap, more] at less
    cases less
  · rw [List.perm_ext_iff_of_nodup (distinct sorted) (distinct sorted')]
    intro k'
    rw [mem_keys, List.mem_map]
    constructor
    · rintro ⟨k, mem, rfl⟩
      have some := mem_keys.mp mem
      exact (renamed.get k some).ne_nil some
    · intro some
      obtain ⟨k, rfl, present⟩ := renamed.keys k' some
      exact ⟨k, mem_keys.mpr present, rfl⟩

/-- The entries of renamed tables come in the same order. -/
theorem Table.Renamed.toList {f : Ref → Ref} {t t' : Table} (renamed : Table.Renamed f t t')
    (single : ∀ r s, t.get (.ref r) ≠ .nil → t.get (.ref s) ≠ .nil → r = s) :
    List.Forall₂ (fun kv kv' => kv.1.rename f = kv'.1 ∧ Value.Renamed f kv.2 kv'.2) t.toList t'.toList := by
  have keys := renamed.keys_eq single
  have value (t : Table) (kv : Key × Value) (mem : kv ∈ t.toList) : t.get kv.1 = kv.2 ∧ kv.2 ≠ .nil :=
    Table.mem_toList.mp mem
  rw [List.forall₂_iff_get]
  refine ⟨by simpa using congrArg List.length keys, fun i inside inside' => ?_⟩
  have key : (t.toList.get ⟨i, inside⟩).1.rename f = (t'.toList.get ⟨i, inside'⟩).1 := by
    have here := congrArg (·[i]?) keys
    simpa [inside, inside'] using here
  refine ⟨key, ?_⟩
  obtain ⟨held, some⟩ := value t _ (List.get_mem t.toList ⟨i, inside⟩)
  obtain ⟨held', _⟩ := value t' _ (List.get_mem t'.toList ⟨i, inside'⟩)
  rw [← held', ← key, ← held]
  exact renamed.get _ (held ▸ some)

end Lua

namespace Snapshot

/-! ### Written alike -/

/-- References that are written alike. -/
def Alike (x y : Reference) : Prop := x.toDatum = y.toDatum

/-- Entries that are written alike. -/
def AlikeEntry (e e' : Reference × Reference) : Prop := entryDatum e = entryDatum e'

/-- Captured variables that are written alike. -/
def AlikeUpvalue (u u' : Upvalue) : Prop := u.toDatum = u'.toDatum

/-- Records that are written alike. -/
def AlikeRecord (r r' : Record) : Prop := r.toDatum = r'.toDatum

theorem table_toDatum {path : Option String} {es es' : List (Reference × Reference)} {m m' : Option Reference}
    (entries : List.Forall₂ AlikeEntry es es') (metatable : Option.Rel Alike m m') :
    AlikeRecord (.table path es m) (.table path es' m') := by
  have same : es.map entryDatum = es'.map entryDatum := map_eq_of_forall₂ entries fun _ _ alike => alike
  cases metatable with
  | none => simp only [AlikeRecord, Record.toDatum, same]
  | some alike =>
    rw [Alike] at alike
    simp only [AlikeRecord, Record.toDatum, same, alike]

theorem function_toDatum {code : Bytes} {us us' : List Upvalue} (upvalues : List.Forall₂ AlikeUpvalue us us') :
    AlikeRecord (.function code us) (.function code us') := by
  have same : us.map Upvalue.toDatum = us'.map Upvalue.toDatum := map_eq_of_forall₂ upvalues fun _ _ alike => alike
  simp only [AlikeRecord, Record.toDatum, same]

/-! ### Lock step -/

section LockStep

variable {h h' : Heap} {f : Ref → Ref} {α α' β β' : Type}

/-- Cells of two heaps that stand at the same position of corresponding functions. -/
def Beside (h h' : Heap) (f : Ref → Ref) (x x' : Nat) : Prop :=
  ∃ c c' i : Nat, h.Reaches (.closure c) ∧ f (.closure c) = .closure c' ∧
    (h.closure c).upvalues[i]? = some x ∧ (h'.closure c').upvalues[i]? = some x'

/-- Surveys that have met corresponding objects and variables in the same order. -/
structure Survey.Renamed (h h' : Heap) (f : Ref → Ref) (s s' : Survey) : Prop where
  objects : s'.objects.toList = s.objects.toList.map f
  reached : ∀ r ∈ s.objects.toList, h.Reaches r
  places : ∀ r, h.Reaches r → s'.places[f r]? = s.places[r]?
  owners : ∀ x x', Beside h h' f x x' → s'.owners[x']? = s.owners[x]?

/-- Results of two surveys that went in lock step. -/
inductive InStep (h h' : Heap) (f : Ref → Ref) (R : α → α' → Prop) :
    Except Unlisted (α × Survey) → Except Unlisted (α' × Survey) → Prop
  | ok {a : α} {a' : α'} {s s' : Survey} (results : R a a') (surveys : Survey.Renamed h h' f s s') :
    InStep h h' f R (.ok (a, s)) (.ok (a', s'))
  | error (e : Unlisted) : InStep h h' f R (.error e) (.error e)

theorem InStep.bind {act : SurveyM α} {act' : SurveyM α'} {next : α → SurveyM β} {next' : α' → SurveyM β'}
    {R : α → α' → Prop} {Q : β → β' → Prop} {s s' : Survey} (first : InStep h h' f R (act s) (act' s'))
    (others : ∀ a a' s s', R a a' → Survey.Renamed h h' f s s' → InStep h h' f Q (next a s) (next' a' s')) :
    InStep h h' f Q ((act >>= next) s) ((act' >>= next') s') := by
  change InStep h h' f Q (act s >>= fun r => next r.1 r.2) (act' s' >>= fun r => next' r.1 r.2)
  generalize act s = done at first ⊢
  generalize act' s' = done' at first ⊢
  cases first with
  | ok results surveys => exact others _ _ _ _ results surveys
  | error e => exact .error e

theorem renamed_key {k k' : Key} (same : k.rename f = k') : Value.Renamed f k.value k'.value := by
  subst same
  cases k with
  | bool b => exact .bool b
  | int i => exact .int i
  | float x own => exact .float (.inl rfl)
  | str b => exact .str b
  | ref r => exact .ref r

variable (iso : h.Isomorphism h' f)
include iso

omit iso in
theorem place_eq (r : Ref) (s : Survey) : place r s =
    match s.places[r]? with
    | some n => .ok (n, s)
    | none => .ok (s.objects.size + 1,
      { s with places := s.places.insert r (s.objects.size + 1), objects := s.objects.push r }) := by
  change (match s.places[r]? with | some n => pure n | none => _ : SurveyM Nat) s = _
  cases s.places[r]? <;> rfl

omit iso in
theorem referUpvalue_eq (h : Heap) (n i x : Nat) (s : Survey) : referUpvalue h n i x s =
    match s.owners[x]? with
    | some (o, j) => .ok (.join o j, s)
    | none => (refer (h.cell x) >>= fun r => pure (.value r)) (s.own x (n, i)) := by
  change (match s.owners[x]? with | some (o, j) => pure (.join o j) | none => _ : SurveyM Upvalue) s = _
  cases s.owners[x]? <;> rfl

omit iso in
theorem recordsFrom_succ (h : Heap) (fuel n : Nat) (s : Survey) : recordsFrom h (fuel + 1) n s =
    match s.objects[n - 1]? with
    | none => .ok ([], s)
    | some r => (record h n r >>= fun rec => recordsFrom h fuel (n + 1) >>= fun l => pure (rec :: l)) s := by
  change (match s.objects[n - 1]? with | none => pure [] | some r => _ : SurveyM Listing) s = _
  cases s.objects[n - 1]? <;> rfl

theorem place_inStep {r : Ref} {s s' : Survey} (surveys : Survey.Renamed h h' f s s') (reached : h.Reaches r) :
    InStep h h' f Eq (place r s) (place (f r) s') := by
  have same := surveys.places r reached
  have size : s'.objects.size = s.objects.size := by simpa using congrArg List.length surveys.objects
  rw [place_eq, place_eq, same]
  cases s.places[r]? with
  | some n => exact .ok rfl surveys
  | none =>
    refine .ok (by rw [size]) ⟨?_, ?_, ?_, surveys.owners⟩
    · simp [surveys.objects]
    · intro r' mem
      rcases Array.mem_push.mp (Array.mem_toList_iff.mp mem) with mem | rfl
      · exact surveys.reached r' (Array.mem_toList_iff.mpr mem)
      · exact reached
    · intro r' reached'
      simp only [Std.TreeMap.getElem?_insert, Std.LawfulEqCmp.compare_eq_iff_eq]
      rw [size, surveys.places r' reached']
      by_cases equal : r = r'
      · rw [if_pos equal, if_pos (congrArg f equal)]
      · rw [if_neg equal, if_neg fun same => equal (iso.objects.injOn reached reached' same)]

theorem unlisted?_eq {r : Ref} (reached : h.Reaches r) : unlisted? (f r) = unlisted? r := by
  have sort := iso.sort r reached
  have path := iso.path r reached
  generalize f r = r' at sort path
  cases r with
  | handle id =>
    cases r' with
    | handle id' => rw [unlisted?, unlisted?, path]
    | _ => simp [Ref.sort, Ref.rank] at sort
  | _ =>
    cases r' <;> first
      | rfl
      | simp [Ref.sort, Ref.rank] at sort

theorem refer_inStep {v v' : Value} {s s' : Survey} (surveys : Survey.Renamed h h' f s s')
    (renamed : Value.Renamed f v v') (reached : ∀ r, v = .ref r → h.Reaches r) :
    InStep h h' f Alike (refer v s) (refer v' s') := by
  cases renamed with
  | ref r =>
    have here := reached r rfl
    simp only [refer, unlisted?_eq iso here]
    cases unlisted? r with
    | some e => exact .error e
    | none =>
      refine InStep.bind (place_inStep iso surveys here) ?_
      rintro n _ s₁ s₁' rfl surveys₁
      exact .ok rfl surveys₁
  | float same =>
    refine .ok ?_ surveys
    rcases same with rfl | ⟨odd, odd'⟩
    · rfl
    · simp [Alike, Reference.toDatum, doubleText, odd, odd']
  | _ => exact .ok rfl surveys

theorem referEntry_inStep {kv kv' : Key × Value} {s s' : Survey} (surveys : Survey.Renamed h h' f s s')
    (key : Value.Renamed f kv.1.value kv'.1.value) (value : Value.Renamed f kv.2 kv'.2)
    (reached : ∀ r, kv.1.value = .ref r → h.Reaches r) (reached' : ∀ r, kv.2 = .ref r → h.Reaches r) :
    InStep h h' f AlikeEntry (referEntry kv s) (referEntry kv' s') := by
  refine (refer_inStep iso surveys key reached).bind ?_
  intro k k' s₁ s₁' same surveys₁
  refine (refer_inStep iso surveys₁ value reached').bind ?_
  intro v v' s₂ s₂' same' surveys₂
  exact .ok (by rw [AlikeEntry, entryDatum, entryDatum, same, same']) surveys₂

/-- Corresponding entries are listed in lock step. -/
theorem referEntries_inStep {kvs kvs' : List (Key × Value)} {s s' : Survey} (surveys : Survey.Renamed h h' f s s')
    (renamed : List.Forall₂ (fun kv kv' => kv.1.rename f = kv'.1 ∧ Value.Renamed f kv.2 kv'.2) kvs kvs')
    (reached : ∀ kv ∈ kvs, (∀ r, kv.1.value = .ref r → h.Reaches r) ∧ ∀ r, kv.2 = .ref r → h.Reaches r) :
    InStep h h' f (List.Forall₂ AlikeEntry) (kvs.mapM referEntry s) (kvs'.mapM referEntry s') := by
  induction renamed generalizing s s' with
  | nil => exact .ok .nil surveys
  | @cons kv kv' kvs kvs' first _ ih =>
    have here := reached kv (List.mem_cons_self ..)
    rw [List.mapM_cons, List.mapM_cons]
    refine (referEntry_inStep iso surveys (renamed_key first.1) first.2 here.1 here.2).bind ?_
    intro e e' s₁ s₁' same surveys₁
    refine (ih surveys₁ fun kv mem => reached kv (List.mem_cons_of_mem _ mem)).bind ?_
    intro es es' s₂ s₂' others surveys₂
    exact .ok (.cons same others) surveys₂

/-- A variable gets its owner in both surveys. -/
theorem renamed_own {x x' : Nat} {s s' : Survey} (surveys : Survey.Renamed h h' f s s') (beside : Beside h h' f x x')
    (p : Nat × Nat) : Survey.Renamed h h' f (s.own x p) (s'.own x' p) where
  objects := surveys.objects
  reached := surveys.reached
  places := surveys.places
  owners := by
    intro y y' beside'
    simp only [Survey.own, Std.TreeMap.getElem?_insert, Std.LawfulEqCmp.compare_eq_iff_eq]
    have same : x = y ↔ x' = y' := by
      obtain ⟨c, c', i, reached, there, captured, captured'⟩ := beside
      obtain ⟨d, d', j, reached₂, there₂, captured₂, captured₂'⟩ := beside'
      exact iso.shared c d c' d' reached reached₂ there there₂ i j x y x' y' captured captured₂ captured' captured₂'
    by_cases equal : x = y
    · rw [if_pos equal, if_pos (same.mp equal)]
    · rw [if_neg equal, if_neg fun equal' => equal (same.mpr equal'), surveys.owners y y' beside']

/-- Corresponding variables are listed in lock step. -/
theorem referUpvalue_inStep {n i x x' : Nat} {s s' : Survey} (surveys : Survey.Renamed h h' f s s')
    (beside : Beside h h' f x x') :
    InStep h h' f AlikeUpvalue (referUpvalue h n i x s) (referUpvalue h' n i x' s') := by
  have owner := surveys.owners x x' beside
  rw [referUpvalue_eq, referUpvalue_eq, owner]
  cases s.owners[x]? with
  | some p => exact .ok rfl surveys
  | none =>
    obtain ⟨c, c', j, reached, there, captured, captured'⟩ := beside
    have value := iso.captured c c' reached there j x x' captured captured'
    have own := renamed_own iso surveys ⟨c, c', j, reached, there, captured, captured'⟩ (n, i)
    have inside (r : Ref) (is : h.cell x = .ref r) : h.Reaches r := by
      have held := Heap.Holds.captured (h := h) captured
      exact .step reached (is ▸ held)
    change InStep h h' f AlikeUpvalue ((refer (h.cell x) >>= fun r => pure (.value r)) (s.own x (n, i)))
      ((refer (h'.cell x') >>= fun r => pure (.value r)) (s'.own x' (n, i)))
    refine (refer_inStep iso own value inside).bind ?_
    intro r r' s₁ s₁' same surveys₁
    exact .ok (by rw [AlikeUpvalue, Upvalue.toDatum, Upvalue.toDatum, same]) surveys₁

theorem referUpvalues_inStep {n i : Nat} {xs xs' : List Nat} {s s' : Survey} (surveys : Survey.Renamed h h' f s s')
    (beside : List.Forall₂ (Beside h h' f) xs xs') :
    InStep h h' f (List.Forall₂ AlikeUpvalue) (referUpvalues h n i xs s) (referUpvalues h' n i xs' s') := by
  induction beside generalizing s s' i with
  | nil => exact .ok .nil surveys
  | cons first _ ih =>
    rw [referUpvalues, referUpvalues]
    refine (referUpvalue_inStep iso surveys first).bind ?_
    intro u u' s₁ s₁' same surveys₁
    refine (ih surveys₁).bind ?_
    intro us us' s₂ s₂' others surveys₂
    exact .ok (.cons same others) surveys₂

/-! ### Records in lock step -/

theorem referMetatable_inStep {m m' : Option Nat} {s s' : Survey} (surveys : Survey.Renamed h h' f s s')
    (renamed : m'.map Ref.table = m.map fun m => f (.table m)) (reached : ∀ id, m = some id → h.Reaches (.table id)) :
    InStep h h' f (Option.Rel Alike) (m.mapM (fun m => refer (.table m)) s) (m'.mapM (fun m => refer (.table m)) s') := by
  cases m with
  | none =>
    cases m' with
    | none => exact .ok .none surveys
    | some _ => cases renamed
  | some id =>
    cases m' with
    | none => cases renamed
    | some id' =>
      have named : Ref.table id' = f (.table id) := Option.some.inj renamed
      have value : Value.Renamed f (.table id) (.ref (f (.table id))) := .ref (.table id)
      rw [← named] at value
      change InStep h h' f (Option.Rel Alike) ((refer (.table id) >>= fun y => pure (some y)) s)
        ((refer (.table id') >>= fun y => pure (some y)) s')
      refine (refer_inStep iso surveys value fun r is => Value.ref.inj is ▸ reached id rfl).bind ?_
      intro y y' s₁ s₁' same surveys₁
      exact .ok (.some same) surveys₁

/-- The record of an object and that of the renamed one are written alike. -/
theorem record_inStep {n : Nat} {r : Ref} {s s' : Survey} (surveys : Survey.Renamed h h' f s s') (reached : h.Reaches r)
    (single : h.SingleObjectKeys) : InStep h h' f AlikeRecord (record h n r s) (record h' n (f r) s') := by
  have sort := iso.sort r reached
  have path := iso.path r reached
  cases is : f r with
  | table t' =>
    rw [is] at sort path
    cases r with
    | table t =>
      have renamed := iso.table t t' reached is
      simp only [record, path]
      refine (referEntries_inStep iso surveys (renamed.toList fun r s => single t r s reached) fun kv mem =>
        reaches_entry reached mem).bind ?_
      intro es es' s₁ s₁' entries surveys₁
      refine (referMetatable_inStep iso surveys₁ renamed.metatable fun m named => .step reached (.metatable named)).bind ?_
      intro m m' s₂ s₂' metatable surveys₂
      exact .ok (table_toDatum entries metatable) surveys₂
    | _ => simp [Ref.sort, Ref.rank] at sort
  | closure c' =>
    rw [is] at sort
    cases r with
    | closure c =>
      have code := iso.code c c' reached is
      have beside : List.Forall₂ (Beside h h' f) (h.closure c).upvalues.toList (h'.closure c').upvalues.toList := by
        rw [List.forall₂_iff_get]
        refine ⟨?_, fun i inside inside' => ⟨c, c', i, reached, is, ?_, ?_⟩⟩
        · rw [Array.length_toList, Array.length_toList, Closure.sized, Closure.sized, code]
        · simp
        · simp
      simp only [record, code]
      refine (referUpvalues_inStep iso surveys beside).bind ?_
      intro us us' s₁ s₁' upvalues surveys₁
      exact .ok (function_toDatum upvalues) surveys₁
    | _ => simp [Ref.sort, Ref.rank] at sort
  | _ =>
    have leaf : 2 ≤ r.sort := by
      rw [← sort, is]
      simp [Ref.sort, Ref.rank]
    rw [← is, record_eq_of_leaf leaf, record_eq_of_leaf (sort ▸ leaf), path]
    cases Fixed.pathOf? (.ref r) with
    | some p => exact .ok rfl surveys
    | none => exact .error _

/-- Records are listed in lock step. -/
theorem recordsFrom_inStep (fuel n : Nat) {s s' : Survey} (surveys : Survey.Renamed h h' f s s')
    (single : h.SingleObjectKeys) :
    InStep h h' f (List.Forall₂ AlikeRecord) (recordsFrom h fuel n s) (recordsFrom h' fuel n s') := by
  induction fuel generalizing n s s' with
  | zero => exact .ok .nil surveys
  | succ fuel ih =>
    have same : s'.objects[n - 1]? = s.objects[n - 1]?.map f := by
      rw [← Array.getElem?_toList, surveys.objects, List.getElem?_map, Array.getElem?_toList]
    rw [recordsFrom_succ, recordsFrom_succ, same]
    cases here : s.objects[n - 1]? with
    | none => exact .ok .nil surveys
    | some r =>
      have reached := surveys.reached r (List.mem_of_getElem? (Array.getElem?_toList ▸ here))
      refine (record_inStep iso surveys reached single).bind ?_
      intro rec rec' s₁ s₁' first surveys₁
      refine (ih (n + 1) surveys₁).bind ?_
      intro l l' s₂ s₂' others surveys₂
      exact .ok (.cons first others) surveys₂

end LockStep

/-! ### Whole listings -/

/-- More fuel than there are objects changes nothing. -/
theorem recordsFrom_eq {h : Heap} {fuel fuel' o : Nat} {s : Survey} (valid : s.Valid h) (before : s.Before (o + 1) 1)
    (enough : (mentioned h).length ≤ o + fuel) (more : fuel ≤ fuel') :
    recordsFrom h fuel' (o + 1) s = recordsFrom h fuel (o + 1) s := by
  induction fuel generalizing fuel' o s with
  | zero =>
    have all : s.objects.size ≤ o := valid.size_le.trans enough
    cases fuel' with
    | zero => rfl
    | succ fuel' =>
      rw [recordsFrom_succ, Nat.add_sub_cancel, Array.getElem?_eq_none all]
      rfl
  | succ fuel ih =>
    obtain ⟨fuel', rfl⟩ : ∃ n, fuel' = n + 1 := ⟨fuel' - 1, by omega⟩
    rw [recordsFrom_succ, recordsFrom_succ, Nat.add_sub_cancel]
    cases here : s.objects[o]? with
    | none => rfl
    | some r =>
      change (record h (o + 1) r s >>= fun x => _) = (record h (o + 1) r s >>= fun x => _)
      cases done : record h (o + 1) r s with
      | error e => rfl
      | ok x =>
        obtain ⟨rec, s₁⟩ := x
        rw [← Array.getElem?_toList] at here
        obtain ⟨valid₁, _, before₁, _⟩ := record_spec valid here before done
        have tail := ih valid₁ before₁ (by omega) (Nat.le_of_succ_le_succ more)
        change (recordsFrom h fuel' (o + 1 + 1) s₁ >>= fun x => _) = (recordsFrom h fuel (o + 1 + 1) s₁ >>= fun x => _)
        rw [tail]

/-- The survey in which only the global table has been met. -/
def start : Survey := { places := Std.TreeMap.insert ∅ (.table Fixed.globals) 1, objects := #[.table Fixed.globals] }

theorem refer_globals : refer (.table Fixed.globals) {} = .ok (.object 1, start) := rfl

/-- A listing with any fuel that is enough. -/
theorem capture_eq {h : Heap} {fuel : Nat} (enough : (mentioned h).length ≤ fuel) :
    capture h = Prod.fst <$> recordsFrom h fuel 1 start := by
  have before : ({} : Survey).Before 1 1 := fun c p here => by simp at here
  obtain ⟨valid, _, owners, _⟩ :=
    refer_spec (Survey.valid_empty h) (fun r is => Value.ref.inj is ▸ .root) refer_globals
  rw [recordsFrom_eq (o := 0) valid (before.of_owners owners) (Nat.le_add_left ..) enough]
  rfl

theorem renamed_start {h h' : Heap} {f : Ref → Ref} (iso : h.Isomorphism h' f) :
    Survey.Renamed h h' f start start where
  objects := by simp [start, iso.root]
  reached := by
    intro r mem
    obtain rfl : r = .table Fixed.globals := by simpa [start] using mem
    exact .root
  places := by
    intro r reached
    simp only [start, Std.TreeMap.getElem?_insert, Std.LawfulEqCmp.compare_eq_iff_eq]
    by_cases root : .table Fixed.globals = r
    · rw [if_pos root, ← root, iso.root, if_pos rfl]
    · rw [if_neg root, if_neg]
      · simp
      · intro same
        exact root (iso.objects.injOn .root reached (iso.root.trans same))
  owners := fun x x' _ => by simp [start]

/-- Heaps that differ in the names of objects have listings that are written alike. -/
theorem capture_renamed {h h' : Heap} {f : Ref → Ref} (iso : h.Isomorphism h' f) (single : h.SingleObjectKeys) :
    (capture h).map (List.map Record.toDatum) = (capture h').map (List.map Record.toDatum) := by
  have fuel : (mentioned h).length ≤ max (mentioned h).length (mentioned h').length := le_max_left _ _
  have fuel' : (mentioned h').length ≤ max (mentioned h).length (mentioned h').length := le_max_right _ _
  rw [capture_eq fuel, capture_eq fuel']
  have both := recordsFrom_inStep iso (max (mentioned h).length (mentioned h').length) 1 (renamed_start iso) single
  generalize recordsFrom h _ 1 start = done at both ⊢
  generalize recordsFrom h' _ 1 start = done' at both ⊢
  cases both with
  | ok results _ => exact congrArg Except.ok (map_eq_of_forall₂ results fun _ _ alike => alike)
  | error e => rfl

end Snapshot

end LuaCapsule
