import LuaCapsule.Codec.Decode
import Mathlib.Tactic.ByContra

/-! Decoding by raw contents. A decoder runs what a script has put behind the equality of metatables,
and nothing else of a script. Where no table that it comes to has such a thing, what it answers is
told by the contents of the tables alone, and it leaves an interpreter as it was if it answers. -/

namespace LuaCapsule

open Lua

/-! ### The entries of a table -/

theorem Lua.Table.enumerate_perm (t : Table) : t.enumerate.Perm t.toList := by
  have parts (p : Key × Value → Bool) (l : List (Key × Value)) : ((l.partition p).1 ++ (l.partition p).2).Perm l := by
    rw [List.partition_eq_filter_filter]
    exact List.filter_append_perm p l
  unfold enumerate
  exact ((parts _ _).append_right _).trans (List.perm_append_comm.trans (parts _ _))

/-! ### The mark of lists -/

namespace Lua.Heap

variable {h : Heap} {t : Nat}

/-- Does a table have the metatable of lists? -/
def isMarked (h : Heap) (t : Nat) : Bool := (h.table t).metatable == some Fixed.sequence

/-- A table with a metatable other than that of lists, which a metamethod is asked about when the two
are compared. -/
def Disguised (h : Heap) (t : Nat) : Prop :=
  ∃ m, (h.table t).metatable = some m ∧ m ≠ Fixed.sequence ∧
    h.binaryMetamethod (.table m) (.table Fixed.sequence) "__eq" ≠ .nil

/-- Nothing is run to find the mark of a table that is not disguised. -/
theorem isSequence_eq {vm : Vm} (honest : ¬vm.heap.Disguised t) :
    Vm.isSequence t vm = .ok (vm.heap.isMarked t) vm := by
  rw [Vm.isSequence, Vm.getHeap_bind, isMarked]
  cases own : (vm.heap.table t).metatable with
  | none => rfl
  | some m =>
    dsimp only
    by_cases list : m = Fixed.sequence
    · rw [list, equal_self, beq_self_eq_true]
      rfl
    · have silent : vm.heap.binaryMetamethod (.table m) (.table Fixed.sequence) "__eq" = .nil := by
        by_contra answer
        exact honest ⟨m, own, list, answer⟩
      rw [equal_of_silent list silent, beq_false_of_ne fun same => list (Option.some.inj same)]
      rfl

end Lua.Heap

namespace Codec

variable {h g : Heap} {limit : Int} {fuel t : Nat} {v w : Value} {vm : Vm} {α β : Type}

/-! ### What a decoder comes to -/

/-- A value that is met inside another one, in so many tables that are nested in one another. -/
inductive Met (h : Heap) : Value → Value → Nat → Prop
  | here (v : Value) : Met h v v 0
  | inside {t : Nat} {k : Key} {w : Value} {n : Nat} (there : (h.table t).get k ≠ .nil)
    (met : Met h ((h.table t).get k) w n) : Met h (.table t) w (n + 1)

/-- No table that is met inside a value before so many tables are nested is disguised. -/
def Candid (h : Heap) (fuel : Nat) (v : Value) : Prop := ∀ t n, Met h v (.table t) n → n < fuel → ¬h.Disguised t

theorem Candid.honest (candid : Candid h (fuel + 1) (.table t)) : ¬h.Disguised t :=
  candid t 0 (.here _) (Nat.succ_pos _)

theorem Candid.entry (candid : Candid h (fuel + 1) (.table t)) {e : Key × Value} (mem : e ∈ (h.table t).toList) :
    Candid h fuel e.2 := by
  obtain ⟨is, there⟩ := Table.mem_toList.mp mem
  intro u n met less
  rw [← is] at there met
  exact candid u (n + 1) (.inside there met) (Nat.succ_lt_succ less)

theorem candid_of_ne_table (other : ∀ t, v ≠ .table t) : Candid h fuel v := by
  intro t n met
  cases met with
  | here => exact absurd rfl (other t)
  | inside => exact absurd rfl (other _)

theorem candid_table (honest : ¬h.Disguised t)
    (entries : ∀ k, (h.table t).get k ≠ .nil → Candid h fuel ((h.table t).get k)) : Candid h (fuel + 1) (.table t) := by
  intro u n met less
  cases met with
  | here => exact honest
  | inside there met => exact entries _ there u _ met (Nat.lt_of_succ_lt_succ less)

/-! ### Decoding without metamethods -/

/-- Is a table decoded as a list by its contents? -/
def isListed (h : Heap) (t : Nat) : Bool :=
  (h.isMarked t && ((h.table t).enumerate.map (·.1)).all isInt) || isRange ((h.table t).enumerate.map (·.1))

/-- Decodes a value by contents. -/
def decodeFrom (h : Heap) (limit : Int) : Nat → Value → Except Fault Datum
  | 0, v =>
    match v with
    | .ref (.table _) => .error (nestingFault limit)
    | v => leaf h v
  | fuel + 1, v =>
    match v with
    | .ref (.table t) => do
      checkEntries h (h.table t).enumerate
      if isListed h t then return .list (← ((h.table t).toList.map Prod.snd).mapM (decodeFrom h limit fuel))
      else return .ofPairs (← (h.table t).enumerate.mapM fun e => do
        return ((scalar? e.1.value).getD .null, ← decodeFrom h limit fuel e.2))
    | v => leaf h v

/-- Decodes an entry of a mapping. -/
def decodeField (h : Heap) (limit : Int) (fuel : Nat) (e : Key × Value) : Except Fault (Datum × Datum) := do
  return ((scalar? e.1.value).getD .null, ← decodeFrom h limit fuel e.2)

/-- Decodes a value by contents with a limit. -/
def decodeIn (h : Heap) (limit : Int) (v : Value) : Except Fault Datum := decodeFrom h limit limit.toNat v

theorem decodeFrom_table (h : Heap) (limit : Int) (fuel t : Nat) : decodeFrom h limit (fuel + 1) (.table t) = (do
    checkEntries h (h.table t).enumerate
    if isListed h t then return .list (← ((h.table t).toList.map Prod.snd).mapM (decodeFrom h limit fuel))
    else return .ofPairs (← (h.table t).enumerate.mapM (decodeField h limit fuel))) := rfl

/-- All values but tables are decoded on their own. -/
theorem decodeFrom_eq_leaf (other : ∀ t, v ≠ .table t) (fuel : Nat) : decodeFrom h limit fuel v = leaf h v := by
  cases v with
  | ref r =>
    cases r with
    | table t => exact absurd rfl (other t)
    | _ => cases fuel <;> rfl
  | _ => cases fuel <;> rfl

theorem decodeNested_eq_leaf (other : ∀ t, v ≠ .table t) (fuel : Nat) :
    decodeNested limit fuel h v = VmM.ofExcept (leaf h v) := by
  cases v with
  | ref r =>
    cases r with
    | table t => exact absurd rfl (other t)
    | _ => cases fuel <;> rfl
  | _ => cases fuel <;> rfl

/-! ### Objects that the host has seen -/

/-- The kind of a value before and after its coroutine gave its function away. -/
def SameKind (kind kind' : Option String) : Prop := kind' = kind ∨ kind = some "function" ∧ kind' = some "thread"

theorem SameKind.trans {a b c : Option String} (one : SameKind a b) (other : SameKind b c) : SameKind a c := by
  rcases one with rfl | ⟨rfl, rfl⟩
  · exact other
  · rcases other with rfl | ⟨is, rfl⟩
    · exact .inr ⟨rfl, rfl⟩
    · exact .inr ⟨rfl, rfl⟩

/-- Objects after the host has seen some of them: coroutines may have given their functions away. -/
structure Seen (h g : Heap) : Prop where
  tables : g.tables = h.tables
  kinds : ∀ v, SameKind (Vm.kind? h v) (Vm.kind? g v)

theorem Seen.refl (h : Heap) : Seen h h := ⟨rfl, fun _ => .inl rfl⟩

theorem Seen.table (seen : Seen h g) (t : Nat) : g.table t = h.table t := by rw [Heap.table, seen.tables, Heap.table]

theorem thread_setThread_dead (g : Heap) (t u : Nat) :
    (g.setThread t .dead).thread u = if t = u then .dead else g.thread u := by
  simp only [Heap.setThread, Heap.thread, Array.getD_eq_getD_getElem?, Array.getElem?_setIfInBounds]
  split
  · split <;> rfl
  · rfl

theorem kind?_afterSeeing (g : Heap) (v w : Value) : SameKind (Vm.kind? g w) (Vm.kind? (Vm.afterSeeing g v) w) := by
  unfold Vm.afterSeeing
  split
  next t =>
    split
    next body began =>
      cases w with
      | ref r =>
        cases r with
        | thread u =>
          simp only [Vm.kind?, thread_setThread_dead]
          by_cases same : t = u
          · subst same
            rw [if_pos rfl, began]
            exact .inr ⟨rfl, rfl⟩
          · rw [if_neg same]
            exact .inl rfl
        | _ => exact .inl rfl
      | _ => exact .inl rfl
    next => exact .inl rfl
  next => exact .inl rfl

theorem tables_afterSeeing (g : Heap) (v : Value) : (Vm.afterSeeing g v).tables = g.tables := by
  unfold Vm.afterSeeing
  split
  · split <;> rfl
  · rfl

theorem Seen.after (seen : Seen h g) (v : Value) : Seen h (Vm.afterSeeing g v) :=
  ⟨(tables_afterSeeing g v).trans seen.tables, fun w => (seen.kinds w).trans (kind?_afterSeeing g v w)⟩

/-- The objects after all keys and values of some entries were seen. -/
def afterEntries (entries : List (Key × Value)) (g : Heap) : Heap :=
  entries.foldl (fun h e => Vm.afterSeeing (Vm.afterSeeing h e.1.value) e.2) g

theorem Seen.afterEntries (seen : Seen h g) (entries : List (Key × Value)) : Seen h (afterEntries entries g) := by
  induction entries generalizing g with
  | nil => exact seen
  | cons e entries ih => exact ih ((seen.after _).after _)

theorem Seen.disguised_iff (seen : Seen h g) (t : Nat) : g.Disguised t ↔ h.Disguised t := by
  have meta' (u : Nat) : g.metamethod (.table u) "__eq" = h.metamethod (.table u) "__eq" := by
    simp only [Heap.metamethod, Heap.metatable?, seen.table]
  simp only [Heap.Disguised, Heap.binaryMetamethod, meta', seen.table]

/-- What is no coroutine is not changed when it is seen. -/
theorem afterSeeing_of_ne_thread (known : ∀ t, v ≠ .thread t) : Vm.afterSeeing g v = g := by
  unfold Vm.afterSeeing
  split
  next t => exact absurd rfl (known t)
  next => rfl

/-! ### Two decoders -/

/-- The same fault, but for a coroutine that has given its function away. -/
inductive SameFault : Fault → Fault → Prop
  | same (f : Fault) : SameFault f f
  | coroutine (detail : String) : SameFault (.decode "function" detail) (.decode "thread" detail)

/-- An operation on an interpreter that answers as a computation on values does, and leaves the
interpreter as it was if it answers. -/
def Follows (vm : Vm) (r : Except Fault α) (r' : EStateM.Result Fault Vm α) : Prop :=
  match r with
  | .ok a => r' = .ok a vm
  | .error f => ∃ f' vm', r' = .error f' vm' ∧ SameFault f f'

theorem Follows.bind {r : Except Fault α} {next : α → Except Fault β} {act : VmM α} {next' : α → VmM β}
    (one : Follows vm r (act vm)) (others : ∀ a, Follows vm (next a) (next' a vm)) :
    Follows vm (r >>= next) ((act >>= next') vm) := by
  cases r with
  | ok a =>
    rw [bind_of_ok one]
    exact others a
  | error f =>
    obtain ⟨f', vm', one, same⟩ := one
    change ∃ f'' vm'', EStateM.bind act next' vm = .error f'' vm'' ∧ SameFault f f''
    rw [EStateM.bind, one]
    exact ⟨f', vm', rfl, same⟩

theorem Follows.pure (a : α) : Follows vm (.ok a) ((pure a : VmM α) vm) := rfl

theorem Follows.mapM {f : α → Except Fault β} {f' : α → VmM β} {l : List α}
    (each : ∀ a ∈ l, Follows vm (f a) (f' a vm)) : Follows vm (l.mapM f) (l.mapM f' vm) := by
  induction l with
  | nil => exact .pure []
  | cons a l ih =>
    obtain ⟨one, others⟩ := List.forall_mem_cons.mp each
    rw [List.mapM_cons, List.mapM_cons]
    exact one.bind fun b => (ih others).bind fun bs => .pure (b :: bs)

/-- Nothing is lost if an interpreter is as it was once there is an answer. -/
theorem Follows.of_eq {vm₁ : Vm} {r : Except Fault α} {r' : EStateM.Result Fault Vm α} (follows : Follows vm₁ r r')
    (same : ∀ a, r = .ok a → vm₁ = vm) : Follows vm r r' := by
  cases r with
  | ok a => exact same a rfl ▸ follows
  | error f => exact follows

/-- Too many nested tables are reported by both. -/
theorem Follows.nestingFault {r' : EStateM.Result Fault Vm α} (follows : Follows vm (.error (nestingFault limit)) r') :
    ∃ vm', r' = .error (Codec.nestingFault limit) vm' := by
  obtain ⟨f, vm', is, same⟩ := follows
  generalize fault : Codec.nestingFault limit = f₀ at same
  cases same with
  | same => exact ⟨vm', fault ▸ is⟩
  | coroutine => simp [Codec.nestingFault, Fault.decode, Fault.of] at fault

/-- What the decoders say of one value. -/
theorem follows_leaf (taken : Seen h g) (v : Value) : Follows vm (leaf h v) (VmM.ofExcept (leaf g v) vm) := by
  unfold leaf
  cases scalar? v with
  | some d => exact rfl
  | none =>
    rcases taken.kinds v with same | ⟨function, thread⟩
    · rw [same]
      cases Vm.kind? h v with
      | none => exact ⟨_, _, rfl, .same _⟩
      | some kind => exact ⟨_, _, rfl, .same _⟩
    · rw [function, thread]
      exact ⟨_, _, rfl, .coroutine _⟩

theorem sameKind_findSome? {f f' : α → Option String} (each : ∀ a, SameKind (f a) (f' a)) (l : List α) :
    SameKind (l.findSome? f) (l.findSome? f') := by
  induction l with
  | nil => exact .inl rfl
  | cons a l ih =>
    rw [List.findSome?_cons, List.findSome?_cons]
    rcases each a with same | ⟨function, thread⟩
    · rw [same]
      cases f a with
      | none => exact ih
      | some kind => exact .inl rfl
    · rw [function, thread]
      exact .inr ⟨rfl, rfl⟩

theorem follows_checkEntries (taken : Seen h g) (entries : List (Key × Value)) :
    Follows vm (checkEntries h entries) (VmM.ofExcept (checkEntries g entries) vm) := by
  unfold checkEntries
  split
  · exact ⟨_, _, rfl, .same _⟩
  · rcases sameKind_findSome? (fun e : Key × Value => taken.kinds e.1.value) entries with same | ⟨function, thread⟩
    · rw [same]
      cases entries.findSome? fun e => Vm.kind? h e.1.value with
      | none => exact .pure ()
      | some kind => exact ⟨_, _, rfl, .same _⟩
    · rw [function, thread]
      exact ⟨_, _, rfl, .coroutine _⟩

/-! ### What an answer tells -/

theorem exists_of_mem_of_mapM {f : α → Except Fault β} {l : List α} {bs : List β} (done : l.mapM f = .ok bs) {a : α}
    (mem : a ∈ l) : ∃ b, f a = .ok b := by
  induction l generalizing bs with
  | nil => cases mem
  | cons a' l ih =>
    rw [List.mapM_cons] at done
    cases first : f a' with
    | error e =>
      rw [first] at done
      cases done
    | ok b =>
      cases others : l.mapM f with
      | error e =>
        rw [first, others] at done
        cases done
      | ok bs' =>
        rcases List.mem_cons.mp mem with rfl | mem
        · exact ⟨b, first⟩
        · exact ih others mem

/-- A table is decoded when its entries pass and each value in it is decoded. -/
theorem decodeFrom_table_eq_ok {d : Datum} (done : decodeFrom h limit (fuel + 1) (.table t) = .ok d) :
    checkEntries h (h.table t).enumerate = .ok () ∧
      if isListed h t then
        ∃ ds, ((h.table t).toList.map Prod.snd).mapM (decodeFrom h limit fuel) = .ok ds ∧ d = .list ds
      else ∃ es, (h.table t).enumerate.mapM (decodeField h limit fuel) = .ok es ∧ d = .ofPairs es := by
  rw [decodeFrom_table] at done
  cases checked : checkEntries h (h.table t).enumerate with
  | error f =>
    rw [checked] at done
    cases done
  | ok =>
    rw [checked] at done
    change (if _ then _ else _ : Except Fault Datum) = _ at done
    refine ⟨rfl, ?_⟩
    split at done
    next list =>
      rw [if_pos list]
      cases listed : ((h.table t).toList.map Prod.snd).mapM (decodeFrom h limit fuel) with
      | error => rw [listed] at done; cases done
      | ok ds =>
        rw [listed] at done
        cases done
        exact ⟨ds, rfl, rfl⟩
    next other =>
      rw [if_neg other]
      cases listed : (h.table t).enumerate.mapM (decodeField h limit fuel) with
      | error => rw [listed] at done; cases done
      | ok es =>
        rw [listed] at done
        cases done
        exact ⟨es, rfl, rfl⟩

theorem value_of_decodeField {e : Key × Value} {field : Datum × Datum} (done : decodeField h limit fuel e = .ok field) :
    field.1 = (scalar? e.1.value).getD .null ∧ decodeFrom h limit fuel e.2 = .ok field.2 := by
  rw [decodeField] at done
  cases value : decodeFrom h limit fuel e.2 with
  | error =>
    rw [value] at done
    cases done
  | ok d =>
    rw [value] at done
    cases done
    exact ⟨rfl, rfl⟩

theorem checkEntries_eq_ok {entries : List (Key × Value)} : checkEntries h entries = .ok () ↔
    ∀ e ∈ entries, isText e.1.value = true ∧ isText e.2 = true ∧ Vm.kind? h e.1.value = none := by
  unfold checkEntries
  split
  next garbled =>
    refine iff_of_false (by rintro ⟨⟩) fun each => ?_
    obtain ⟨e, mem, bad⟩ := List.any_eq_true.mp garbled
    rw [(each e mem).1, (each e mem).2.1] at bad
    cases bad
  next texts =>
    have texts := List.any_eq_false.mp (Bool.eq_false_iff.mpr texts)
    split
    next kind found =>
      refine iff_of_false (by rintro ⟨⟩) fun each => ?_
      obtain ⟨e, mem, is⟩ := List.exists_of_findSome?_eq_some found
      cases (each e mem).2.2.symm.trans is
    next none =>
      refine iff_of_true rfl fun e mem => ?_
      have fine := texts e mem
      simp only [Bool.or_eq_true, Bool.not_eq_true', not_or, Bool.not_eq_false] at fine
      exact ⟨fine.1, fine.2, List.findSome?_eq_none_iff.mp none e mem⟩

theorem exists_kind? (h : Heap) (t : Nat) : ∃ kind, Vm.kind? h (.thread t) = some kind := by
  unfold Vm.kind? Value.thread
  dsimp only
  split <;> exact ⟨_, rfl⟩

/-- No coroutine is decoded. -/
theorem ne_thread_of_decodeFrom {d : Datum} (done : decodeFrom h limit fuel v = .ok d) (t : Nat) : v ≠ .thread t := by
  rintro rfl
  rw [decodeFrom_eq_leaf (fun t => by simp [Value.thread, Value.table]) fuel] at done
  obtain ⟨kind, known⟩ := exists_kind? h t
  rw [leaf, known] at done
  cases done

/-- A table that is decoded holds no coroutine. -/
theorem afterEntries_eq {d : Datum} (done : decodeFrom h limit (fuel + 1) (.table t) = .ok d) (g : Heap) :
    afterEntries (h.table t).enumerate g = g := by
  obtain ⟨checked, each⟩ := decodeFrom_table_eq_ok done
  have keys := checkEntries_eq_ok.mp checked
  have values : ∀ e ∈ (h.table t).enumerate, ∃ d, decodeFrom h limit fuel e.2 = .ok d := by
    intro e mem
    split at each
    · obtain ⟨ds, listed, _⟩ := each
      exact exists_of_mem_of_mapM listed (List.mem_map_of_mem ((h.table t).enumerate_perm.mem_iff.mp mem))
    · obtain ⟨es, listed, _⟩ := each
      obtain ⟨field, is⟩ := exists_of_mem_of_mapM listed mem
      exact ⟨_, (value_of_decodeField is).2⟩
  have same : ∀ e ∈ (h.table t).enumerate, ∀ g, Vm.afterSeeing (Vm.afterSeeing g e.1.value) e.2 = g := by
    intro e mem g
    obtain ⟨d, decoded⟩ := values e mem
    rw [afterSeeing_of_ne_thread (ne_thread_of_decodeFrom decoded)]
    refine afterSeeing_of_ne_thread fun u is => ?_
    have none := (keys e mem).2.2
    obtain ⟨kind, known⟩ := exists_kind? h u
    rw [is, known] at none
    cases none
  generalize (h.table t).enumerate = entries at same
  induction entries with
  | nil => rfl
  | cons e entries ih =>
    obtain ⟨one, others⟩ := List.forall_mem_cons.mp same
    rw [afterEntries, List.foldl_cons, one]
    exact ih others

/-! ### One decoder follows the other -/

theorem follows_of_ne_table (taken : Seen h g) (other : ∀ t, v ≠ .table t) :
    Follows vm (decodeFrom h limit fuel v) (decodeNested limit fuel g v vm) := by
  rw [decodeFrom_eq_leaf other, decodeNested_eq_leaf other]
  exact follows_leaf taken v

/-- What is done about a table once its entries were seen. -/
theorem decodeNested_table (limit : Int) (fuel : Nat) (g : Heap) (t : Nat) (vm : Vm) :
    decodeNested limit (fuel + 1) g (.table t) vm = (do
      VmM.ofExcept (checkEntries vm.heap (vm.heap.table t).enumerate)
      let marked ← Vm.isSequence t
      let keys := (vm.heap.table t).enumerate.map (·.1)
      if (marked && keys.all isInt) || isRange keys then
        return .list (← ((vm.heap.table t).toList.map Prod.snd).mapM (decodeNested limit fuel vm.heap))
      else
        return .ofPairs (← (vm.heap.table t).enumerate.mapM fun e => do
          return ((scalar? e.1.value).getD .null, ← decodeNested limit fuel vm.heap e.2))
      : VmM Datum) { vm with heap := afterEntries (vm.heap.table t).enumerate vm.heap } := by
  rw [List.mapM_map]
  rfl

/-- Where no table is disguised, a value is decoded by contents. -/
theorem decodeNested_follows (taken : Seen h g) (seen : Seen h vm.heap) (candid : Candid h fuel v) :
    Follows vm (decodeFrom h limit fuel v) (decodeNested limit fuel g v vm) := by
  induction fuel generalizing g v vm with
  | zero =>
    by_cases table : ∃ t, v = .table t
    · obtain ⟨t, rfl⟩ := table
      exact ⟨_, _, rfl, .same _⟩
    · exact follows_of_ne_table taken fun t is => table ⟨t, is⟩
  | succ fuel ih =>
    by_cases table : ∃ t, v = .table t
    case neg => exact follows_of_ne_table taken fun t is => table ⟨t, is⟩
    obtain ⟨t, rfl⟩ := table
    let seen' : Vm := { vm with heap := afterEntries (h.table t).enumerate vm.heap }
    have after : Seen h seen'.heap := seen.afterEntries _
    have marked : Vm.isSequence t seen' = .ok (h.isMarked t) seen' := by
      rw [Heap.isSequence_eq (mt (after.disguised_iff t).mp candid.honest), Heap.isMarked, after.table, Heap.isMarked]
    have each (e : Key × Value) (mem : e ∈ (h.table t).toList) :
        Follows seen' (decodeFrom h limit fuel e.2) (decodeNested limit fuel vm.heap e.2 seen') :=
      ih seen after (candid.entry mem)
    have rest : Follows seen' (decodeFrom h limit (fuel + 1) (.table t)) (decodeNested limit (fuel + 1) g (.table t) vm) := by
      rw [decodeNested_table, decodeFrom_table, seen.table]
      refine (follows_checkEntries seen _).bind fun _ => ?_
      rw [bind_of_ok marked]
      change Follows seen' (if isListed h t then _ else _) ((if isListed h t then _ else _ : VmM Datum) seen')
      cases isListed h t with
      | true =>
        refine Follows.bind (.mapM fun w inside => ?_) fun ds => .pure _
        obtain ⟨e, mem, rfl⟩ := List.mem_map.mp inside
        exact each e mem
      | false =>
        refine Follows.bind (.mapM fun e mem => ?_) fun es => .pure _
        exact (each e ((h.table t).enumerate_perm.mem_iff.mp mem)).bind fun d => .pure _
    refine rest.of_eq fun d done => ?_
    simp only [seen', afterEntries_eq done]

/-- Decoding a value follows its contents unless it comes to a disguised table. -/
theorem decode_follows (candid : Candid vm.heap limit.toNat v) :
    Follows vm (decodeIn vm.heap limit v) (decode limit v vm) := by
  have follows : Follows { vm with heap := Vm.afterSeeing vm.heap v } (decodeIn vm.heap limit v) (decode limit v vm) :=
    decodeNested_follows (.refl _) ((Seen.refl _).after v) candid
  refine follows.of_eq fun d done => ?_
  rw [afterSeeing_of_ne_thread (ne_thread_of_decodeFrom done)]

end Codec

end LuaCapsule
