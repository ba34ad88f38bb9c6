import LuaCapsule.Proofs.RoundTrip

/-! The shape of a listing, in terms of what it says and of the heap alone. Each object that can be reached
has one record, and all places that records name are places of records. The entries of a table come in
the order of their keys. A captured variable has its value where it is first mentioned, and each later
mention leads back there: when a record is made, all owners so far stand before it. -/

namespace LuaCapsule

open Lua

/-! ### The order of keys -/

/-- The order of keys in a listing: truth values, false first, then numbers and strings, each as the
language compares them, then objects, of which any may come first. -/
inductive Lua.Key.Precedes : Key → Key → Prop
  | kind {k k' : Key} (less : k.kind < k'.kind) : Precedes k k'
  | truth : Precedes (.bool false) (.bool true)
  | less {k k' : Key} (below : lessThan? k.value k'.value = some true) : Precedes k k'
  | objects {r s : Ref} (other : r ≠ s) : Precedes (.ref r) (.ref s)

theorem Lua.Key.precedes_of_cmp {k k' : Key} (less : Key.cmp k k' = .lt) : k.Precedes k' := by
  have kinds (same : Key.cmp k k' = compare k.kind k'.kind) : k.Precedes k' :=
    .kind (Nat.compare_eq_lt.mp (same ▸ less))
  cases k with
  | bool b =>
    cases k' with
    | bool b' =>
      cases b <;> cases b' <;> first | exact .truth | cases less
    | _ => exact kinds rfl
  | int i =>
    cases k' with
    | int j => exact .less (congrArg some (decide_eq_true (Int.compare_eq_lt.mp less)))
    | float y own =>
      refine .less (congrArg some ?_)
      have above : y.compareInt i.toInt = .gt := Ordering.swap_eq_lt.mp less
      rw [Binary64.isNaN_eq_false own, above]
      rfl
    | _ => exact kinds rfl
  | float x own =>
    cases k' with
    | int j =>
      refine .less (congrArg some ?_)
      have below : x.compareInt j.toInt = .lt := less
      rw [Binary64.isNaN_eq_false own, below]
      rfl
    | float y own' =>
      refine .less (congrArg some ?_)
      have below := Int.compare_eq_lt.mp less
      rw [Binary64.lt, Binary64.isNaN_eq_false own, Binary64.isNaN_eq_false own', decide_eq_true below]
      rfl
    | _ => exact kinds rfl
  | str s =>
    cases k' with
    | str t =>
      refine .less (congrArg some ?_)
      have below : Bytes.cmp s t = .lt := less
      rw [Bytes.lt, below]
      rfl
    | _ => exact kinds rfl
  | ref r =>
    cases k' with
    | ref s =>
      refine .objects ?_
      rintro rfl
      have self : Ref.cmp r r = .eq := Std.ReflCmp.compare_self
      cases less.symm.trans self
    | _ => exact kinds rfl

namespace Snapshot

/-! ### What a listing says -/

/-- The place that a reference names. -/
def Reference.place? : Reference → Option Nat
  | object n => some n
  | _ => none

def Upvalue.places : Upvalue → List Nat
  | value r => r.place?.toList
  | join owner _ => [owner]

/-- The places that a record names. -/
def Record.places : Record → List Nat
  | table _ entries metatable =>
    entries.flatMap (fun e => e.1.place?.toList ++ e.2.place?.toList) ++ (metatable.bind Reference.place?).toList
  | native _ => []
  | function _ upvalues => upvalues.flatMap Upvalue.places

namespace Listing

/-- A captured variable of a function, both counted from 0. -/
def slot? (l : Listing) (n i : Nat) : Option Upvalue :=
  match l[n]? with
  | some (.function _ us) => us[i]?
  | _ => none

theorem slot?_eq {l : Listing} {n i : Nat} {code : Bytes} {us : List Upvalue} (listed : l[n]? = some (.function code us)) :
    l.slot? n i = us[i]? := by
  rw [slot?, listed]

/-- The place and the position, both counted from 1, where the value of a captured variable is listed. -/
def owner? (l : Listing) (n i : Nat) : Option (Nat × Nat) :=
  match l.slot? n i with
  | some (.value _) => some (n + 1, i + 1)
  | some (.join o j) => some (o, j)
  | none => none

end Listing

/-- A listing of the objects that can be reached in a heap. -/
structure Shape (h : Heap) (objs : List Ref) (l : Listing) : Prop where
  nodup : objs.Nodup
  mem_iff : ∀ r, r ∈ objs ↔ h.Reaches r
  length : l.length = objs.length
  root : objs[0]? = some (.table Fixed.globals)
  places : ∀ rec ∈ l, ∀ n ∈ rec.places, 1 ≤ n ∧ n ≤ l.length
  /-- The keys of a table are listed once each and in order, with their values. -/
  table : ∀ n t : Nat, objs[n]? = some (.table t) → ∃ es m, l[n]? = some (.table (Fixed.pathOf? (.table t)) es m) ∧
    DenotesMetatable objs m (h.table t).metatable ∧ ∃ ks : List Key, (∀ k, k ∈ ks ↔ (h.table t).get k ≠ .nil) ∧
      ks.Nodup ∧ ks.Pairwise Key.Precedes ∧
      List.Forall₂ (DenotesEntry objs) es (ks.map fun k => (k, (h.table t).get k))
  native : ∀ (n : Nat) (r : Ref), objs[n]? = some r → 2 ≤ r.sort → ∃ p, Fixed.pathOf? (.ref r) = some p ∧ l[n]? = some (.native p)
  /-- The captured variables of a function are listed one by one. -/
  function : ∀ n c : Nat, objs[n]? = some (.closure c) → ∃ us, l[n]? = some (.function (h.closure c).code.dump us) ∧
    us.length = (h.closure c).upvalues.size
  /-- The value of a captured variable is listed where the variable is owned. -/
  captured : ∀ n c i cell : Nat, objs[n]? = some (.closure c) → (h.closure c).upvalues[i]? = some cell →
    ∃ o j x, l.owner? n i = some (o + 1, j + 1) ∧ l.slot? o j = some (.value x) ∧ Denotes objs x (h.cell cell)
  /-- A join leads back to an earlier variable, which is no join. -/
  joins : ∀ n i o j : Nat, l.slot? n i = some (.join o j) → (o < n + 1 ∨ o = n + 1 ∧ j < i + 1) ∧
    ∃ o' j' x, o = o' + 1 ∧ j = j' + 1 ∧ l.slot? o' j' = some (.value x)
  /-- Captured variables have one owner when they are one variable. -/
  owners : ∀ n c i cell n' c' i' cell' : Nat, objs[n]? = some (.closure c) → (h.closure c).upvalues[i]? = some cell →
    objs[n']? = some (.closure c') → (h.closure c').upvalues[i']? = some cell' →
    (l.owner? n i = l.owner? n' i' ↔ cell = cell')

variable {h : Heap} {s s' : Survey} {objs : List Ref} {owner : Nat → Nat × Nat} {l : Listing}

/-! ### When a record is made -/

/-- Each record was made of its object when all owners that were known stood before it. -/
theorem exists_record {fuel o : Nat} (valid : s.Valid h) (before : s.Before (o + 1) 1) (listed : o ≤ s.objects.size)
    (done : recordsFrom h fuel (o + 1) s = .ok (l, s')) {k : Nat} {rec : Record} (found : l[k]? = some rec) :
    ∃ r s₁ s₂, s₁.Valid h ∧ s₁.Before (o + k + 1) 1 ∧ s₁.objects.toList[o + k]? = some r ∧
      record h (o + k + 1) r s₁ = .ok (rec, s₂) ∧ s₂.Grows s' := by
  induction fuel generalizing s o l k with
  | zero =>
    obtain ⟨rfl, _⟩ := SurveyM.pure_eq_ok done
    cases found
  | succ fuel ih =>
    rw [recordsFrom] at done
    obtain ⟨s₁, _, got, done⟩ := SurveyM.bind_eq_ok done
    cases got
    rw [Nat.add_sub_cancel] at done
    cases here : s.objects[o]? with
    | none =>
      simp only [here] at done
      obtain ⟨rfl, _⟩ := SurveyM.pure_eq_ok done
      cases found
    | some r =>
      simp only [here] at done
      obtain ⟨rec', s₁, first, done⟩ := SurveyM.bind_eq_ok done
      obtain ⟨l', s₂, others, done⟩ := SurveyM.bind_eq_ok done
      obtain ⟨rfl, rfl⟩ := SurveyM.pure_eq_ok done
      rw [← Array.getElem?_toList] at here
      obtain ⟨valid₁, grows₁, before₁, _⟩ := record_spec valid here before first
      have place := (List.getElem?_eq_some_iff.mp (getElem?_later grows₁.objects here)).1
      have listed₁ : o + 1 ≤ s₁.objects.size := by simpa [Nat.succ_le_iff] using place
      cases k with
      | zero =>
        obtain rfl := Option.some.inj found
        obtain ⟨_, grows₂, _⟩ := recordsFrom_spec valid₁ before₁ listed₁ others
        exact ⟨r, s, s₁, valid, before, here, first, grows₂⟩
      | succ k =>
        have later := ih valid₁ before₁ listed₁ others found
        rwa [show o + 1 + k = o + (k + 1) from by omega] at later

/-- The entries of a table are listed in the order of their keys. -/
theorem record_entries {n t : Nat} {path : Option String} {es : List (Reference × Reference)} {m : Option Reference}
    (valid : s.Valid h) (reached : h.Reaches (.table t)) (done : record h n (.table t) s = .ok (.table path es m, s')) :
    List.Forall₂ (DenotesEntry s'.objects.toList) es (h.table t).toList := by
  obtain ⟨es', s₁, first, done⟩ := SurveyM.bind_eq_ok done
  obtain ⟨m', s₂, second, done⟩ := SurveyM.bind_eq_ok done
  obtain ⟨is, rfl⟩ := SurveyM.pure_eq_ok done
  obtain ⟨rfl, rfl, rfl⟩ := Record.table.inj is
  obtain ⟨valid₁, _, _, each⟩ := referEntries_spec valid (fun kv mem => reaches_entry reached mem) first
  obtain ⟨_, grows₂, _⟩ := referMetatable_spec valid₁ (fun m named => .step reached (.metatable named)) second
  exact each.imp fun e kv d => d.later grows₂.objects

/-- A mention that joins a variable leads to an owner that was known. -/
theorem referUpvalue_join {n i c o j : Nat} (before : s.Before n i)
    (done : referUpvalue h n i c s = .ok (.join o j, s')) : o < n ∨ o = n ∧ j < i := by
  unfold referUpvalue at done
  obtain ⟨s₁, _, got, done⟩ := SurveyM.bind_eq_ok done
  cases got
  cases known : s.owners.get? c with
  | some p =>
    simp only [known] at done
    obtain ⟨is, _⟩ := SurveyM.pure_eq_ok done
    obtain ⟨rfl, rfl⟩ := Upvalue.join.inj is
    exact before c p known
  | none =>
    simp only [known] at done
    obtain ⟨_, s₁, _, done⟩ := SurveyM.bind_eq_ok done
    obtain ⟨x, s₂, _, done⟩ := SurveyM.bind_eq_ok done
    obtain ⟨is, _⟩ := SurveyM.pure_eq_ok done
    cases is

/-- Joins among the captured variables of a function lead to earlier ones. -/
theorem referUpvalues_join {o id : Nat} {cells : List Nat} {i : Nat} {us : List Upvalue} (valid : s.Valid h)
    (here : s.objects.toList[o]? = some (.closure id)) (reached : h.Reaches (.closure id))
    (captured : ∀ j c : Nat, cells[j]? = some c → (h.closure id).upvalues[i + j]? = some c)
    (before : s.Before (o + 1) (i + 1)) (done : referUpvalues h (o + 1) (i + 1) cells s = .ok (us, s'))
    {k o' j' : Nat} (join : us[k]? = some (.join o' j')) : o' < o + 1 ∨ o' = o + 1 ∧ j' < i + k + 1 := by
  induction cells generalizing s i us k with
  | nil =>
    obtain ⟨rfl, _⟩ := SurveyM.pure_eq_ok done
    cases join
  | cons c cells ih =>
    rw [referUpvalues] at done
    obtain ⟨u, s₁, first, done⟩ := SurveyM.bind_eq_ok done
    obtain ⟨us', s₂, others, done⟩ := SurveyM.bind_eq_ok done
    obtain ⟨rfl, rfl⟩ := SurveyM.pure_eq_ok done
    obtain ⟨valid₁, grows₁, before₁, _⟩ := referUpvalue_spec valid here reached (captured 0 c rfl) before first
    cases k with
    | zero =>
      obtain rfl := Option.some.inj join
      exact referUpvalue_join before first
    | succ k =>
      have later := ih (i := i + 1) valid₁ (getElem?_later grows₁.objects here)
        (fun j c' place => by rw [← captured (j + 1) c' place]; congr 1; omega) before₁ others join
      rwa [show i + 1 + k = i + (k + 1) from by omega] at later

theorem record_join {o c i o' j' : Nat} {code : Bytes} {us : List Upvalue} (valid : s.Valid h)
    (here : s.objects.toList[o]? = some (.closure c)) (before : s.Before (o + 1) 1)
    (done : record h (o + 1) (.closure c) s = .ok (.function code us, s')) (join : us[i]? = some (.join o' j')) :
    o' < o + 1 ∨ o' = o + 1 ∧ j' < i + 1 := by
  obtain ⟨us', s₁, listed, done⟩ := SurveyM.bind_eq_ok done
  obtain ⟨is, rfl⟩ := SurveyM.pure_eq_ok done
  obtain ⟨rfl, rfl⟩ := Record.function.inj is
  have reached := valid.reached _ (List.mem_of_getElem? here)
  have earlier := referUpvalues_join (i := 0) valid here reached (fun j c place => by simpa using place) before listed join
  rwa [Nat.zero_add] at earlier

/-! ### Places and owners -/

theorem Denotes.place_le {x : Reference} {v : Value} (d : Denotes objs x v) {n : Nat} (named : x.place? = some n) :
    1 ≤ n ∧ n ≤ objs.length := by
  cases d with
  | object here =>
    obtain rfl := Option.some.inj named
    exact ⟨Nat.succ_pos _, (List.getElem?_eq_some_iff.mp here).1⟩
  | _ => cases named

theorem DenotesUpvalue.place_le {n i cell : Nat} {u : Upvalue} (d : DenotesUpvalue h objs owner n i cell u) {p : Nat}
    (named : p ∈ u.places) : 1 ≤ p ∧ p ≤ objs.length := by
  by_cases own : owner cell = (n, i)
  · obtain ⟨x, rfl, denotes⟩ := d.owned own
    exact denotes.place_le (Option.mem_toList.mp named)
  · obtain ⟨o, j, c, is, here, _⟩ := d.owns
    rw [d.joined own, is] at named
    obtain rfl := List.mem_singleton.mp named
    exact ⟨Nat.succ_pos _, (List.getElem?_eq_some_iff.mp here).1⟩

/-- All places that a record names are places of objects. -/
theorem Records.place_le {n : Nat} {r : Ref} {rec : Record} (d : Records h objs owner n r rec) {p : Nat}
    (named : p ∈ rec.places) : 1 ≤ p ∧ p ≤ objs.length := by
  cases d with
  | native => cases named
  | @table t path es m kvs _ _ each metatable =>
    rcases List.mem_append.mp named with entry | meta'
    · obtain ⟨e, mem, here⟩ := List.mem_flatMap.mp entry
      obtain ⟨kv, _, denotes⟩ := (exists_beside each).1 e mem
      rcases List.mem_append.mp here with key | value
      · exact denotes.1.place_le (Option.mem_toList.mp key)
      · exact denotes.2.place_le (Option.mem_toList.mp value)
    · obtain ⟨x, rfl, here⟩ := Option.bind_eq_some_iff.mp (Option.mem_toList.mp meta')
      generalize (h.table t).metatable = m at metatable
      cases metatable with
      | some denotes => exact denotes.place_le here
  | @function c code us dumped size each =>
    obtain ⟨u, mem, here⟩ := List.mem_flatMap.mp named
    obtain ⟨i, place⟩ := List.getElem?_of_mem mem
    have bound := (List.getElem?_eq_some_iff.mp place).1
    exact (each i u _ place (Array.getElem?_eq_getElem (size ▸ bound))).place_le here

/-- The owner of a variable can be read off its mention. -/
theorem Describes.owner?_eq (d : Describes h objs owner l) {n c i cell : Nat} (here : objs[n]? = some (.closure c))
    (captured : (h.closure c).upvalues[i]? = some cell) : l.owner? n i = some (owner cell) := by
  obtain ⟨us, u, listed, place, mention⟩ := d.upvalue here captured
  have slot : l.slot? n i = some u := (Listing.slot?_eq listed).trans place
  rw [Listing.owner?, slot]
  by_cases own : owner cell = (n + 1, i + 1)
  · obtain ⟨x, rfl, _⟩ := mention.owned own
    rw [own]
  · rw [mention.joined own]

/-- A slot of a listing is a captured variable. -/
theorem Describes.captured_of_slot? (d : Describes h objs owner l) {n i : Nat} {u : Upvalue} (slot : l.slot? n i = some u) :
    ∃ c cell us, objs[n]? = some (.closure c) ∧ (h.closure c).upvalues[i]? = some cell ∧
      DenotesUpvalue h objs owner (n + 1) (i + 1) cell u ∧ l[n]? = some (.function (h.closure c).code.dump us) ∧
      us[i]? = some u := by
  unfold Listing.slot? at slot
  split at slot
  next code us listed =>
    have bound : n < objs.length := d.length ▸ (List.getElem?_eq_some_iff.mp listed).1
    have here := List.getElem?_eq_getElem bound
    have record := d.records n _ _ here listed
    generalize objs[n] = r at here record
    cases record with
    | function dumped size each =>
      have captured := Array.getElem?_eq_getElem (size ▸ (List.getElem?_eq_some_iff.mp slot).1)
      exact ⟨_, _, us, here, captured, each i u _ slot captured, dumped ▸ listed, slot⟩
  next => cases slot

/-! ### The shape -/

theorem shape_of_survey {s₁ : Survey} {fuel : Nat} (valid : s₁.Valid h) (before : s₁.Before 1 1)
    (made : recordsFrom h fuel 1 s₁ = .ok (l, s')) (valid' : s'.Valid h) (d : Describes h s'.objects.toList owner l) :
    Shape h s'.objects.toList l := by
  have moment {n : Nat} {r : Ref} {rec : Record} (here : s'.objects.toList[n]? = some r) (found : l[n]? = some rec) :
      ∃ s₁ s₂, s₁.Valid h ∧ s₁.Before (n + 1) 1 ∧ s₁.objects.toList[n]? = some r ∧
        record h (n + 1) r s₁ = .ok (rec, s₂) ∧ s₂.Grows s' := by
    obtain ⟨r', s₁, s₂, valid₁, before₁, place, done, grows⟩ := exists_record (o := 0) valid before (Nat.zero_le _) made found
    rw [Nat.zero_add] at before₁ place done
    obtain ⟨_, grows₁, _⟩ := record_spec valid₁ place before₁ done
    have same := here.symm.trans (getElem?_later (grows₁.trans grows).objects place)
    obtain rfl := Option.some.inj same
    exact ⟨s₁, s₂, valid₁, before₁, place, done, grows⟩
  refine ⟨d.nodup, fun r => ⟨valid'.reached r, d.mem_of_reaches⟩, d.length, d.root, ?_, ?_, ?_, ?_, ?_, ?_, ?_⟩
  case refine_1 =>
    intro rec mem p named
    obtain ⟨n, found⟩ := List.getElem?_of_mem mem
    have bound := (List.getElem?_eq_some_iff.mp found).1
    rw [d.length]
    exact (d.records n _ rec (List.getElem?_eq_getElem (d.length ▸ bound)) found).place_le named
  case refine_2 =>
    intro n t here
    obtain ⟨rec, found, record⟩ := d.record here
    cases record with
    | native _ leaf => simp [Ref.sort, Ref.rank] at leaf
    | table named _ _ metatable =>
      subst named
      obtain ⟨s₁, s₂, valid₁, _, _, done, grows⟩ := moment here found
      have each := record_entries valid₁ (valid'.reached _ (List.mem_of_getElem? here)) done
      refine ⟨_, _, found, metatable, (h.table t).toList.map Prod.fst, fun _ => Table.mem_keys, (h.table t).nodup_keys,
        (h.table t).keys_sorted.imp Key.precedes_of_cmp, ?_⟩
      rw [← Table.toList_eq_map]
      exact each.imp fun e kv denotes => denotes.later grows.objects
  case refine_3 =>
    intro n r here leaf
    obtain ⟨rec, found, record⟩ := d.record here
    cases record with
    | native path _ => exact ⟨_, path, found⟩
    | _ => simp [Ref.sort, Ref.rank] at leaf
  case refine_4 =>
    intro n c here
    obtain ⟨rec, found, record⟩ := d.record here
    cases record with
    | native _ leaf => simp [Ref.sort, Ref.rank] at leaf
    | function dumped size _ => exact ⟨_, dumped ▸ found, size⟩
  case refine_5 =>
    intro n c i cell here captured
    obtain ⟨o, j, code, us, x, own, listed, place, denotes⟩ := d.owned here captured
    exact ⟨o, j, x, own ▸ d.owner?_eq here captured, (Listing.slot?_eq listed).trans place, denotes⟩
  case refine_6 =>
    intro n i o j slot
    obtain ⟨c, cell, us, here, captured, mention, listed, place⟩ := d.captured_of_slot? slot
    obtain ⟨s₁, s₂, valid₁, before₁, here₁, done, _⟩ := moment here listed
    refine ⟨record_join valid₁ here₁ before₁ done place, ?_⟩
    obtain ⟨o', j', code, us', x, own, listed', place', _⟩ := d.owned here captured
    have other : owner cell ≠ (n + 1, i + 1) := by
      intro own
      obtain ⟨x, is, _⟩ := mention.owned own
      cases is
    obtain ⟨rfl, rfl⟩ := Upvalue.join.inj (mention.joined other)
    rw [own]
    exact ⟨o', j', x, rfl, rfl, (Listing.slot?_eq listed').trans place'⟩
  case refine_7 =>
    intro n c i cell n' c' i' cell' here captured here' captured'
    obtain ⟨_, _, _, _, mention⟩ := d.upvalue here captured
    obtain ⟨_, _, _, _, mention'⟩ := d.upvalue here' captured'
    rw [d.owner?_eq here captured, d.owner?_eq here' captured', eq_iff_owner_eq mention mention', Option.some_inj]

/-- The heap of an interpreter is listed in this shape as long as lists answer for themselves. -/
theorem externalize_shape {vm vm' : Vm} {records : Datum} (plain : vm.heap.PlainLists)
    (done : externalize vm = .ok records vm') :
    vm' = vm ∧ rootPlace = 1 ∧ ∃ objs l, records = Listing.toDatum l ∧ Shape vm.heap objs l := by
  rw [externalize_eq (isIdle_of_plainLists plain)] at done
  cases captured : capture vm.heap with
  | error e =>
    rw [captured] at done
    cases done
  | ok l =>
    rw [captured] at done
    dsimp only at done
    split at done
    · cases done
      obtain ⟨s₁, s, valid, before, made, valid', d⟩ := exists_survey captured
      exact ⟨rfl, rfl, _, l, rfl, shape_of_survey valid before made valid' d⟩
    · cases done

theorem exists_externalize {vm : Vm} (ready : isReady vm.heap = true) : ∃ records, externalize vm = .ok records vm := by
  have listed := (Bool.and_eq_true_iff.mp ready).2
  rw [externalize_eq (isIdle_of_plainLists (plainLists_of_isReady ready))]
  split at listed
  next l captured =>
    rw [captured]
    exact ⟨_, if_pos listed⟩
  next => cases listed

/-- Two functions share a variable, and a table is its own key and metatable. -/
theorem externalize_shape_shared : shared.heap.PlainLists ∧ ∃ records objs l, externalize shared = .ok records shared ∧
    records = Listing.toDatum l ∧ Shape shared.heap objs l := by
  have plain := plainLists_of_isReady isReady_shared
  obtain ⟨records, done⟩ := exists_externalize isReady_shared
  obtain ⟨_, _, objs, l, is, shape⟩ := externalize_shape plain done
  exact ⟨plain, records, objs, l, done, is, shape⟩

end Snapshot

end LuaCapsule
