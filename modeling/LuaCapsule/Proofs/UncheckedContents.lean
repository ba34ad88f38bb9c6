import LuaCapsule.Proofs.UncheckedObjects
import LuaCapsule.Proofs.WellFormed

/-! The second pass of an unchecked rebuild, over records that can be read. What it stores goes to the
objects of the records, never to the records themselves; it ends well only if keys can be keys,
metatables are tables and the variables that are joined exist. -/

namespace LuaCapsule.Snapshot.Unchecked

open Lua Codec

/-- Is a table no part of the records, which stand in the tables that a heap had but for the library? -/
def Outside (h₀ : Heap) (t : Nat) : Prop := t < libraryTables ∨ h₀.tables.size ≤ t

/-- A heap in which the tables outside of the records say nothing of equality, and have no others as
metatables. -/
structure Mute (h₀ h : Heap) : Prop where
  silent : ∀ t, Outside h₀ t → (h.table t).get (.text "__eq") = .nil
  closed : ∀ t, Outside h₀ t → ∀ m, (h.table t).metatable = some m → Outside h₀ m

/-- A heap while it is being filled: the records are as they were, and functions have their code. Nothing is
said of equality if the listing does not say it. -/
structure Filling (l : Listing) (h₀ g h : Heap) : Prop where
  keeps : Keeps h₀ libraryTables h
  code : codeAt? h = codeAt? g
  mute : IsMute l → Mute h₀ h

variable {st : State} {l : Listing} {h₀ g h : Heap} {all : Table} {os : List Value}

/-! ### Values -/

theorem text_beq (s s' : String) : (Value.text s == Value.text s') = (s == s') := by
  rw [Bool.eq_iff_iff, beq_iff_eq, beq_iff_eq]
  exact ⟨fun same => text_inj (congrArg Key.str (Value.str.inj same)), fun same => same ▸ rfl⟩

theorem double_text {s : String} {x : Binary64} (read : readDouble? s = some x) : double (.text s) = .float x := by
  unfold readDouble? at read
  unfold double
  simp only [text_beq]
  by_cases nan : (s == "nan") = true
  · rw [if_pos nan] at read ⊢
    exact congrArg Value.float (Option.some.inj read)
  rw [if_neg nan] at read ⊢
  by_cases infinity : (s == "inf") = true
  · rw [if_pos infinity] at read ⊢
    exact congrArg Value.float (Option.some.inj read)
  rw [if_neg infinity] at read ⊢
  by_cases negative : (s == "-inf") = true
  · rw [if_pos negative] at read ⊢
    exact congrArg Value.float (Option.some.inj read)
  rw [if_neg negative] at read ⊢
  have numeral : Numeral.read? (Bytes.ofString s) = some (.float x) := by
    split at read
    next y is =>
      cases read
      exact is
    next => cases read
  show (parseNumber? (Bytes.ofString s)).getD .nil = _
  rw [parseNumber?, numeral]
  rfl

theorem lookup_int (places : ∀ k, all.get k = itemAt os k) {n : Nat} (fits : isInt64 n = true) :
    lookup all (.int (Int64.ofInt n)) = (Reference.object n).at os := by
  have place : (Int64.ofInt n).toInt = n := Binary64.toInt_ofInt_of_isInt64 fits
  show all.get (.int (Int64.ofInt n)) = _
  rw [places, itemAt, place]
  cases n with
  | zero => rfl
  | succ n =>
    rw [if_pos (by omega)]
    rfl

/-- A field of a mapping, as it is read while the mapping is kept. -/
theorem exists_field {d d' : Datum} {w : Value} (encoded : Encoded h₀ libraryTables d w) (tree : Datum.IsTree d) {known : String}
    (mapping : field? known d = some d') (name : String) : ∃ v, FieldOf h₀ libraryTables (field? name d) v ∧
      ∀ h, Keeps h₀ libraryTables h → h.index w (.text name) = .value v := by
  cases d with
  | mapping es => exact index_field encoded tree name
  | _ => cases mapping

theorem tree_of_field {d d' : Datum} (tree : Datum.IsTree d) {name : String} (found : field? name d = some d') : Datum.IsTree d' := by
  cases d with
  | mapping es => exact tree.value found
  | _ => cases found

theorem tag_of_read {d : Datum} {r : Reference} (read : Reference.ofDatum? d = some r) : ∃ s, field? "t" d = some (.text s) := by
  unfold Reference.ofDatum? at read
  split at read
  all_goals first | exact ⟨_, ‹_›⟩ | cases read

/-- A reference that can be read stands for its value, wherever its fields are found. -/
theorem value_eq {d : Datum} {w : Value} {first : Nat} {r : Reference} (read : Reference.ofDatum? d = some r)
    (fields : ∀ name, ∃ v, FieldOf h₀ first (field? name d) v ∧ st.heap.index w (.text name) = .value v)
    (place : ∀ n : Nat, isInt64 n = true → r = .object n → lookup all (.int (Int64.ofInt n)) = r.at os) :
    value all w st = .ok (r.at os) st := by
  obtain ⟨tag, named⟩ := tag_of_read read
  obtain ⟨_, tagIs, tagHere⟩ := fields "t"
  obtain ⟨payload, payloadIs, payloadHere⟩ := fields "v"
  rw [named] at tagIs
  cases tagIs
  have fetch (line : Nat) := field_eq payloadHere line (origin "local" "r")
  unfold value
  rw [bind_of_ok (field_eq tagHere 237 _)]
  simp only [text_beq]
  unfold Reference.ofDatum? at read
  rw [named] at read
  split at read
  next is none =>
    cases is
    cases read
    simp only [String.reduceBEq, Bool.false_eq_true, if_false, if_true]
    rfl
  next b is given =>
    cases is
    cases read
    rw [given] at payloadIs
    cases payloadIs
    simp only [String.reduceBEq, Bool.false_eq_true, if_false]
    exact fetch 242
  next i is given =>
    cases is
    rw [given] at payloadIs
    obtain ⟨fits, rfl⟩ := int_of_scalar payloadIs
    simp only [readInt64?, fits, if_true, Option.map_some, Option.some.injEq] at read
    subst read
    simp only [String.reduceBEq, Bool.false_eq_true, if_false]
    exact fetch 242
  next s is given =>
    cases is
    rw [given] at payloadIs
    cases payloadIs
    obtain ⟨x, spelt, rfl⟩ := Option.map_eq_some_iff.mp read
    simp only [String.reduceBEq, Bool.false_eq_true, if_false, if_true]
    rw [bind_of_ok (fetch 239), double_text spelt]
    rfl
  next s is given =>
    cases is
    cases read
    rw [given] at payloadIs
    cases payloadIs
    simp only [String.reduceBEq, Bool.false_eq_true, if_false]
    exact fetch 242
  next s is given =>
    cases is
    rw [given] at payloadIs
    cases payloadIs
    obtain ⟨b, spelt, rfl⟩ := Option.map_eq_some_iff.mp read
    simp only [String.reduceBEq, Bool.false_eq_true, if_false, if_true]
    rw [bind_of_ok (fetch 240), bind_of_ok (unhex_eq spelt)]
    rfl
  next s is given =>
    cases is
    cases read
    rw [given] at payloadIs
    obtain ⟨fits, rfl⟩ := int_of_scalar payloadIs
    simp only [String.reduceBEq, if_true]
    rw [bind_of_ok (fetch 238)]
    exact congrArg (EStateM.Result.ok · st) (place _ fits rfl)
  next => cases read

theorem works_value {d : Datum} {w : Value} (encoded : Encoded h₀ libraryTables d w) (tree : Datum.IsTree d) {r : Reference}
    (read : Reference.ofDatum? d = some r) (places : ∀ k, all.get k = itemAt os k) (keeps : Keeps h₀ libraryTables st.heap) :
    Works st (fun v h => v = r.at os ∧ h = st.heap) (value all w) := by
  obtain ⟨_, named⟩ := tag_of_read read
  have fields (name : String) : ∃ v, FieldOf h₀ libraryTables (field? name d) v ∧ st.heap.index w (.text name) = .value v := by
    obtain ⟨v, is, here⟩ := exists_field encoded tree named name
    exact ⟨v, is, here _ keeps⟩
  exact .of_ok (value_eq read fields fun n fits is => is ▸ lookup_int places fits) rfl ⟨rfl, rfl⟩

/-! ### Records that can be read -/

theorem forall₂_of_mapM {α β : Type} {f : α → Option β} : ∀ {l : List α} {l' : List β}, l.mapM f = some l' →
    List.Forall₂ (fun a b => f a = some b) l l'
  | [], l', done => by
    cases done
    exact .nil
  | a :: l, l', done => by
    rw [List.mapM_cons] at done
    obtain ⟨b, one, done⟩ := Option.bind_eq_some_iff.mp done
    obtain ⟨bs, others, done⟩ := Option.bind_eq_some_iff.mp done
    cases done
    exact .cons one (forall₂_of_mapM others)

/-- The fields of a record that can be read. -/
inductive ReadsRecord (d : Datum) : Record → Prop
  | table {path : Option String} {entries : List (Reference × Reference)} {ds : List Datum} {metatable : Option Reference}
    (kind : field? "kind" d = some (.text "table")) (named : field? "builtin" d = path.map .text)
    (given : field? "entries" d = some (.list ds)) (each : List.Forall₂ (fun d e => entryOfDatum? d = some e) ds entries)
    (there : Option.Rel (fun d r => Reference.ofDatum? d = some r) (field? "metatable" d) metatable) :
    ReadsRecord d (.table path entries metatable)
  | native {path : String} (kind : field? "kind" d = some (.text "native")) (named : field? "builtin" d = some (.text path)) :
    ReadsRecord d (.native path)
  | function {code : Bytes} {s : String} {upvalues : List Upvalue} {ds : List Datum}
    (kind : field? "kind" d = some (.text "function")) (spelt : field? "code" d = some (.text s)) (digits : unhex? s = some code)
    (given : field? "upvalues" d = some (.list ds)) (each : List.Forall₂ (fun d u => Upvalue.ofDatum? d = some u) ds upvalues) :
    ReadsRecord d (.function code upvalues)

/-- The fields of a captured variable that can be read. -/
inductive ReadsUpvalue (d : Datum) : Upvalue → Prop
  | value {d' : Datum} {r : Reference} (only : field? "join" d = none) (given : field? "value" d = some d')
    (read : Reference.ofDatum? d' = some r) : ReadsUpvalue d (.value r)
  | join {owner index : Nat} (given : field? "join" d = some (.list [.int owner, .int index])) : ReadsUpvalue d (.join owner index)

section Records

variable {d : Datum}

theorem readsRecord {r : Record} (read : Record.ofDatum? d = some r) : ReadsRecord d r := by
  unfold Record.ofDatum? at read
  split at read
  next kind =>
    dsimp only at read
    split at read
    next path ds m pathIs given metatableIs =>
      obtain ⟨es, each, rfl⟩ := Option.map_eq_some_iff.mp read
      refine .table kind ?_ given (forall₂_of_mapM each) ?_
      · split at pathIs
        next none =>
          cases pathIs
          exact none
        next p named =>
          cases pathIs
          exact named
        next => cases pathIs
      · split at metatableIs
        next none =>
          cases metatableIs
          rw [none]
          exact .none
        next d' there =>
          obtain ⟨r, readable, rfl⟩ := Option.map_eq_some_iff.mp metatableIs
          rw [there]
          exact .some readable
    next => cases read
  next kind named =>
    cases read
    exact .native kind named
  next kind =>
    split at read
    next s ds spelt given =>
      split at read
      next digits each =>
        cases read
        exact .function kind spelt digits given (forall₂_of_mapM each)
      next => cases read
    next => cases read
  next => cases read

theorem readsUpvalue {u : Upvalue} (read : Upvalue.ofDatum? d = some u) : ReadsUpvalue d u := by
  unfold Upvalue.ofDatum? at read
  split at read
  next d' given none =>
    obtain ⟨r, readable, rfl⟩ := Option.map_eq_some_iff.mp read
    exact .value none given readable
  next given =>
    cases read
    exact .join given
  next => cases read

theorem entry_of_read {e : Reference × Reference} (read : entryOfDatum? d = some e) :
    ∃ k v, d = .list [k, v] ∧ Reference.ofDatum? k = some e.1 ∧ Reference.ofDatum? v = some e.2 := by
  unfold entryOfDatum? at read
  split at read
  next k v =>
    split at read
    next key value =>
      cases read
      exact ⟨k, v, rfl, key, value⟩
    next => cases read
  next => cases read

end Records

/-! ### What is stored -/

theorem works_rawset (line t : Nat) (k v : Value) : Works st (fun _ h => ∃ key, Key.ofValue? k = some key ∧ h = st.heap.rawSet t key v)
    (library line (.base .rawset) "rawset" [.table t, k, v]) := by
  refine .atLine line ?_
  refine (Works.checkTable _ 1).bind fun id _ _ one => (Works.checkAny _ 2).bind fun k' _ _ two =>
    (Works.checkAny _ 3).bind fun v' st' _ three => ?_
  obtain ⟨same, is⟩ := one
  obtain ⟨same', is'⟩ := two
  obtain ⟨same'', is''⟩ := three
  cases is
  cases is'
  cases is''
  cases known : Key.ofValue? k with
  | some key =>
    rw [Heap.storeRaw_of_key known]
    refine (Works.setEntry t key v).bind fun _ _ _ set => .pure ⟨key, rfl, ?_⟩
    rw [set, same'', same', same]
  | none =>
    obtain ⟨c, fault⟩ := Heap.storeRaw_of_none (t := t) known
    rw [fault]
    exact .getHeap_bind (.never_bind (.raiseBare _))

theorem works_setmetatable (line : Nat) (o m : Value) : Works st (fun _ h =>
      ((m = .nil ∧ h = st.heap.setMetatable o none) ∨ ∃ t, m = .table t ∧ h = st.heap.setMetatable o (some t)))
    (library line (.debug .setmetatable) "setmetatable" [o, m]) := by
  refine .atLine line ?_
  let s : Site := ⟨.debug .setmetatable, some (origin "upvalue" "setmetatable"), [o, m], Machine.callFunction (some (.debug .setmetatable))⟩
  show Works _ _ (Debugging.setmetatable s)
  unfold Debugging.setmetatable
  split
  next is =>
    cases is
    refine .pure_bind (.modifyHeap_bind (.pure ?_))
    exact .inl ⟨rfl, rfl⟩
  next t is =>
    cases is
    refine .pure_bind (.modifyHeap_bind (.pure ?_))
    exact .inr ⟨t, rfl, rfl⟩
  next => exact .never_bind (.typeError s 2 _)

theorem works_setupvalue (line : Nat) (o v : Value) (i : Int64) : Works st (fun _ h => h = st.heap ∨ ∃ x, h = st.heap.setCell x v)
    (library line (.debug .setupvalue) "setupvalue" [o, .int i, v]) := by
  refine .atLine line ?_
  refine (Works.checkAny _ 3).bind fun v' _ _ one => (Works.checkInt _ 2).bind fun i' _ _ two =>
    (Works.checkFunction _ 1).bind fun f st' _ three => .getHeap_bind ?_
  obtain ⟨same, is⟩ := one
  have same' : st'.heap = st.heap := (three.1.trans two.1).trans same
  cases is
  split
  next cell _ =>
    refine .modifyHeap_bind (.pure ?_)
    exact .inr ⟨cell, by rw [same']⟩
  next =>
    refine .pure ?_
    exact .inl same'

theorem works_upvaluejoin (line : Nat) (o f : Value) (i j : Int64) : Works st (fun _ h =>
      (Debugging.upvalue? st.heap o i.toInt).isSome ∧ (Debugging.upvalue? st.heap f j.toInt).isSome ∧
        ∃ id n cell, h = st.heap.setUpvalue id n cell)
    (library line (.debug .upvaluejoin) "upvaluejoin" [o, .int i, f, .int j]) := by
  refine .atLine line ?_
  refine (Works.checkInt _ 2).bind fun i' _ _ one => (Works.checkFunction _ 1).bind fun o' st₁ _ two => .getHeap_bind ?_
  obtain ⟨same, v, number, whole⟩ := one
  obtain ⟨same', is, _⟩ := two
  cases number
  cases whole
  cases is
  have same : st₁.heap = st.heap := same'.trans same
  rw [same]
  split
  next => exact .never_bind (.argumentError _ 2 _)
  next present =>
    refine (Works.checkInt _ 4).bind fun j' _ _ three => (Works.checkFunction _ 3).bind fun f' st₂ _ four => ?_
    obtain ⟨same₁, v, number, whole⟩ := three
    obtain ⟨same₂, is, _⟩ := four
    cases number
    cases whole
    cases is
    have same : st₂.heap = st.heap := (same₂.trans same₁).trans same
    split
    next cell id there _ =>
      refine .modifyHeap_bind (.pure ⟨?_, Option.isSome_of_eq_some there, id, i.toInt.toNat - 1, cell, ?_⟩)
      · exact Option.isSome_iff_ne_none.mpr fun none => present (Option.isNone_iff_eq_none.mpr none)
      · rw [same]
    next => exact .argumentError _ 4 _

/-- A captured variable that is found belongs to a function that captures so many. -/
theorem upvalue?_isSome {f : Value} {i : Int} (found : (Debugging.upvalue? h f i).isSome) :
    ∃ id c, f = .closure id ∧ codeAt? h id = some c ∧ 1 ≤ i ∧ i.toNat ≤ c.proto.captures.size := by
  unfold Debugging.upvalue? at found
  split at found
  next id =>
    split at found
    next c here =>
      split at found
      next => cases found
      next positive =>
        obtain ⟨x, found⟩ := Option.isSome_iff_exists.mp found
        obtain ⟨cell, inside, _⟩ := Option.bind_eq_some_iff.mp found
        have bound := (Array.getElem?_eq_some_iff.mp inside).1
        rw [c.sized] at bound
        exact ⟨id, c.code, rfl, by rw [codeAt?, here]; rfl, by omega, by omega⟩
    next => cases found
  next => cases found

/-! ### What filling leaves alone -/

theorem codeAt?_setUpvalue (h : Heap) (id n cell : Nat) : codeAt? (h.setUpvalue id n cell) = codeAt? h := by
  funext id'
  simp only [codeAt?, Heap.closure?, Heap.setUpvalue, Array.getElem?_modify]
  split
  · cases h.closures[id']? <;> rfl
  · rfl

namespace Filling

variable {t : Nat} (filling : Filling l h₀ g h)
include filling

theorem setCell (x : Nat) (v : Value) : Filling l h₀ g (h.setCell x v) :=
  ⟨⟨filling.keeps.size, filling.keeps.table, filling.keeps.quiet⟩, filling.code,
    fun mute => ⟨(filling.mute mute).silent, (filling.mute mute).closed⟩⟩

theorem setUpvalue (id n cell : Nat) : Filling l h₀ g (h.setUpvalue id n cell) :=
  ⟨⟨filling.keeps.size, filling.keeps.table, filling.keeps.quiet⟩, (codeAt?_setUpvalue h id n cell).trans filling.code,
    fun mute => ⟨(filling.mute mute).silent, (filling.mute mute).closed⟩⟩

variable (outside : Outside h₀ t)
include outside

theorem modifyTable {f : Table → Table} (quiet : t = Fixed.sequence → ∀ table : Table, table.get (.text "__index") = .nil →
      (f table).get (.text "__index") = .nil)
    (silent : IsMute l → ∀ table : Table, table.get (.text "__eq") = .nil → (f table).get (.text "__eq") = .nil)
    (closed : ∀ (table : Table) m, (f table).metatable = some m → table.metatable = some m ∨ Outside h₀ m) :
    Filling l h₀ g (h.modifyTable t f) where
  keeps := by
    refine ⟨by simpa [Heap.modifyTable] using filling.keeps.size, fun t' first inside => ?_, ?_⟩
    · unfold Outside at outside
      rw [Heap.table_modifyTable, if_neg (by omega)]
      exact filling.keeps.table t' first inside
    · rw [Heap.table_modifyTable]
      split
      next here => exact quiet here.1 _ filling.keeps.quiet
      next => exact filling.keeps.quiet
  code := filling.code
  mute := by
    intro mute
    have before := filling.mute mute
    refine ⟨fun t' own => ?_, fun t' own m is => ?_⟩
    · rw [Heap.table_modifyTable]
      split
      next => exact silent mute _ (before.silent t' own)
      next => exact before.silent t' own
    · rw [Heap.table_modifyTable] at is
      split at is
      next =>
        obtain same | new := closed _ m is
        · exact before.closed t' own m same
        · exact new
      next => exact before.closed t' own m is

theorem rawSet {k : Key} (v : Value) (quiet : t = Fixed.sequence → k ≠ .text "__index") (mute : IsMute l → k ≠ .text "__eq") :
    Filling l h₀ g (h.rawSet t k v) :=
  filling.modifyTable outside (fun is table missing => by rw [Table.get_set, if_neg (quiet is), missing])
    (fun silent table missing => by rw [Table.get_set, if_neg (mute silent), missing])
    fun table m is => .inl ((Table.metatable_set table k v).symm.trans is)

theorem setMetatable {m : Option Nat} (own : ∀ t ∈ m, Outside h₀ t) : Filling l h₀ g (h.setMetatable (.table t) m) :=
  filling.modifyTable outside (fun _ _ missing => missing) (fun _ _ missing => missing) fun _ m is => .inr (own m is)

end Filling

/-! ### Filling objects -/

/-- Only a name is the key of a name. -/
theorem isName_of_key {r : Reference} {name : String} (refs : ∀ o ∈ os, ∃ x, o = .ref x)
    (known : Key.ofValue? (r.at os) = some (.text name)) :
    r.isName name = true := by
  cases r with
  | nil => cases known
  | bool b => cases known
  | int i => cases known
  | float x =>
    have known : (if own : x.isKey then some (.float x own) else x.toInt64?.map .int : Option Key) = some (.text name) := known
    split at known
    · cases known
    · obtain ⟨i, _, is⟩ := Option.map_eq_some_iff.mp known
      cases is
  | text s =>
    have same : s = name := text_inj (Option.some.inj known)
    rw [same]
    exact beq_self_eq_true name
  | bytes b =>
    cases known
    exact decide_eq_true rfl
  | object n =>
    cases n with
    | zero => cases known
    | succ n =>
      have known : Key.ofValue? (os.getD n .nil) = some (.text name) := known
      rw [List.getD_eq_getElem?_getD] at known
      cases here : os[n]? with
      | none =>
        rw [here] at known
        cases known
      | some o =>
        obtain ⟨x, rfl⟩ := refs o (List.mem_of_getElem? here)
        rw [here] at known
        cases known

theorem eq_null_of_nil {first : Nat} {d : Datum} (encoded : Encoded h first d .nil) : d = .null := by
  cases d with
  | null => rfl
  | int i => cases (int_of_scalar encoded).2
  | list ds =>
    obtain ⟨t, vs, is, _⟩ := encoded
    cases is
  | tuple ds =>
    obtain ⟨t, vs, is, _⟩ := encoded
    cases is
  | mapping es =>
    obtain ⟨t, kvs, is, _⟩ := encoded
    cases is
  | _ => cases encoded

/-- A loop over a list, all items of which can be read. -/
theorem works_each_read {α : Type} (read : Datum → Option α) (present : read .null = none)
    {ds : List Datum} {xs : List α} {w : Value} (encoded : Encoded h₀ libraryTables (.list ds) w) (tree : Datum.IsTree (.list ds))
    (items : List.Forall₂ (fun d x => read d = some x) ds xs) (good : Nat → Prop) {act : Nat → Value → M Unit}
    (step : ∀ i d x v st, ds[i]? = some d → xs[i]? = some x → read d = some x → Encoded h₀ libraryTables d v → Datum.IsTree d →
      Filling l h₀ g st.heap →      good i → Works st (fun _ h => Filling l h₀ g h ∧ good (i + 1)) (act (i + 1) v))
    (filling : Filling l h₀ g st.heap) (start : good 0) : Works st (fun _ h => Filling l h₀ g h ∧ good xs.length) (each w act) := by
  obtain ⟨vs, values, reads⟩ := index_item encoded
  have length : vs.length = xs.length := values.length_eq.trans items.length_eq
  have item {i : Nat} {v : Value} (found : vs[i]? = some v) : ∃ d x, ds[i]? = some d ∧ xs[i]? = some x ∧ read d = some x ∧
      Encoded h₀ libraryTables d v ∧ Datum.IsTree d := by
    have bound := (List.getElem?_eq_some_iff.mp found).1
    have bound' : i < ds.length := values.length_eq ▸ bound
    have bound'' : i < xs.length := length ▸ bound
    obtain ⟨v', found', one⟩ := values.get (List.getElem?_eq_getElem bound')
    obtain rfl := Option.some.inj (found.symm.trans found')
    exact ⟨ds[i], xs[i], List.getElem?_eq_getElem bound', List.getElem?_eq_getElem bound'', items.get bound' bound'', one,
      Datum.AreTrees.item tree.1 _ (List.getElem_mem bound')⟩
  rw [← length]
  refine works_each (fun i h => Filling l h₀ g h ∧ good i) (fun _ h now => reads h now.1.keeps) (fun v mem => ?_)
    (fun i v st found now => ?_) ⟨filling, start⟩
  · obtain ⟨i, found⟩ := List.getElem?_of_mem mem
    obtain ⟨d, x, _, _, readable, one, _⟩ := item found
    rintro rfl
    rw [eq_null_of_nil one, present] at readable
    cases readable
  · obtain ⟨d, x, here, found', readable, one, tree'⟩ := item found
    exact step i d x v st here found' readable one tree' now.1 now.2

/-! ### The second pass -/

/-- The objects of records: none of them is a record itself. -/
structure Places (h₀ : Heap) (all : Table) (os : List Value) : Prop where
  get : ∀ k, all.get k = itemAt os k
  refs : ∀ o ∈ os, ∃ x, o = .ref x
  tables : ∀ t, .table t ∈ os → Outside h₀ t

/-- A table that is referred to is an object of a record. -/
theorem Places.outside (places : Places h₀ all os) {r : Reference} {t : Nat} (is : r.at os = .table t) : Outside h₀ t := by
  cases r with
  | object n =>
    cases n with
    | zero => cases is
    | succ n =>
      have is : os.getD n .nil = .table t := is
      rw [List.getD_eq_getElem?_getD] at is
      cases here : os[n]? with
      | none =>
        rw [here] at is
        cases is
      | some o =>
        rw [here] at is
        cases is
        exact places.tables t (List.mem_of_getElem? here)
  | _ => cases is

/-- An entry that can be read is stored in its table, if its key can be one. -/
theorem works_fillEntry {d : Datum} {w : Value} {e : Reference × Reference} {t : Nat} (encoded : Encoded h₀ libraryTables d w)
    (tree : Datum.IsTree d) (read : entryOfDatum? d = some e) (places : Places h₀ all os) (filling : Filling l h₀ g st.heap)
    (outside : Outside h₀ t) (quiet : t = Fixed.sequence → e.1.isName "__index" = false)
    (mute : IsMute l → e.1.isName "__eq" = false) : Works st (fun _ h => Filling l h₀ g h ∧ (Key.ofValue? (e.1.at os)).isSome) (do
      let k ← value all (← access 249 (origin "local" "entry") w (.ofNat 1))
      let v ← value all (← access 249 (origin "local" "entry") w (.ofNat 2))
      let _ ← library 249 (.base .rawset) "rawset" [.table t, k, v]) := by
  obtain ⟨k, v, rfl, keyRead, valueRead⟩ := entry_of_read read
  obtain ⟨vs, values, reads⟩ := index_item encoded
  obtain ⟨w₁, _, rfl, keyIs, w₂, _, rfl, valueIs, rfl⟩ := values
  obtain ⟨keyTree, valueTree, _⟩ := tree.1
  refine (works_access (reads _ filling.keeps 0 (by omega)) 249 _).keep_bind filling fun st₁ filling => ?_
  refine (works_value keyIs keyTree keyRead places.get filling.keeps).keep_bind filling fun st₂ filling => ?_
  refine (works_access (reads _ filling.keeps 1 (by omega)) 249 _).keep_bind filling fun st₃ filling => ?_
  refine (works_value valueIs valueTree valueRead places.get filling.keeps).keep_bind filling fun st₄ filling => ?_
  refine (works_rawset 249 t _ _).bind fun _ st₅ _ set => .pure ?_
  obtain ⟨key, known, set⟩ := set
  rw [set]
  refine ⟨filling.rawSet outside _ (fun is same => ?_) (fun silent same => ?_), Option.isSome_of_eq_some known⟩
  · rw [same] at known
    cases (isName_of_key places.refs known).symm.trans (quiet is)
  · rw [same] at known
    cases (isName_of_key places.refs known).symm.trans (mute silent)

/-- A table gets its metatable, if that is one or nil. -/
theorem works_fillMetatable {t : Nat} (filling : Filling l h₀ g st.heap) (outside : Outside h₀ t) (line : Nat)
    {m : Value} (own : ∀ t, m = .table t → Outside h₀ t) : Works st (fun _ h => Filling l h₀ g h ∧ (m = .nil ∨ ∃ t, m = .table t)) (do
      let _ ← library line (.debug .setmetatable) "setmetatable" [.table t, m]) := by
  refine (works_setmetatable line _ m).bind fun _ _ _ set => .pure ?_
  obtain ⟨rfl, set⟩ | ⟨id, rfl, set⟩ := set
  · rw [set]
    exact ⟨filling.setMetatable outside nofun, .inl rfl⟩
  · rw [set]
    refine ⟨filling.setMetatable outside fun t is => ?_, .inr ⟨id, rfl⟩⟩
    cases is
    exact own id rfl

section Filled

variable {d : Datum} {w : Value} (encoded : Encoded h₀ libraryTables d w) (tree : Datum.IsTree d) (places : Places h₀ all os)
  (filling : Filling l h₀ g st.heap)
include encoded tree places filling

theorem works_fillTable {t : Nat} {path : Option String} {entries : List (Reference × Reference)} {metatable : Option Reference}
    (read : Record.ofDatum? d = some (.table path entries metatable)) (outside : Outside h₀ t)
    (quiet : t = Fixed.sequence → ∀ e ∈ entries, e.1.isName "__index" = false)
    (mute : IsMute l → ∀ e ∈ entries, e.1.isName "__eq" = false) :
    Works st (fun _ h => Filling l h₀ g h ∧ (Record.table path entries metatable).Filled (codeAt? g) os (.table t))
      (fillTable all (.table t) w) := by
  cases readsRecord read with
  | @table _ _ ds _ kind _ given items there =>
    obtain ⟨list, listIs, listHere⟩ := exists_field encoded tree kind "entries"
    obtain ⟨m, metatableIs, metatableHere⟩ := exists_field encoded tree kind "metatable"
    rw [given] at listIs
    unfold fillTable
    refine (works_field (listHere _ filling.keeps) 248 _).keep_bind filling fun st₁ filling => ?_
    refine (works_each_read entryOfDatum? rfl listIs (tree_of_field tree given) items
      (fun i => ∀ e ∈ entries.take i, (Key.ofValue? (e.1.at os)).isSome)
      (fun i d' e v st _ found readable one tree' filling keys => ?_) filling nofun).bind fun _ st₂ _ done => ?_
    · have own : t = Fixed.sequence → e.1.isName "__index" = false := fun is => quiet is e (List.mem_of_getElem? found)
      have silent (mute' : IsMute l) : e.1.isName "__eq" = false := mute mute' e (List.mem_of_getElem? found)
      refine (works_fillEntry one tree' readable places filling outside own silent).imp fun _ h filled => ?_
      refine ⟨filled.1, fun e' mem => ?_⟩
      rw [List.take_add_one, found, List.mem_append, Option.toList_some, List.mem_singleton] at mem
      obtain mem | rfl := mem
      · exact keys e' mem
      · exact filled.2
    obtain ⟨filling, keys⟩ := done
    rw [List.take_length] at keys
    refine (works_field (metatableHere _ filling.keeps) 251 _).keep_bind filling fun st₃ filling => ?_
    cases found : field? "metatable" d with
    | none =>
      rw [found] at there metatableIs
      cases there
      cases metatableIs
      exact (works_fillMetatable filling outside 254 (m := .nil) nofun).imp fun _ h done => ⟨done.1, keys, nofun⟩
    | some d' =>
      rw [found] at there metatableIs
      cases there with
      | @some _ r readable =>
        have truthy : m.truthy = true := by
          obtain ⟨tag, named⟩ := tag_of_read readable
          cases d' with
          | mapping es =>
            obtain ⟨t', kvs, rfl, _⟩ := metatableIs
            rfl
          | _ => cases named
        rw [if_pos truthy]
        refine (works_field (metatableHere _ filling.keeps) 252 _).keep_bind filling fun st₄ filling => ?_
        refine (works_value metatableIs (tree_of_field tree found) readable places.get filling.keeps).keep_bind filling fun st₅ filling => ?_
        have named := works_fillMetatable filling outside (if m.truthy = true then 252 else 254) (m := r.at os) fun _ => places.outside
        refine named.imp fun _ h done => ⟨done.1, keys, fun r' mem => ?_⟩
        cases mem
        exact done.2

end Filled

/-- A captured variable gets a value, if it is there. -/
theorem works_storeUpvalue (filling : Filling l h₀ g st.heap) (o v : Value) (i : Int64) : Works st (fun _ h => Filling l h₀ g h) (do
      let _ ← library 261 (.debug .setupvalue) "setupvalue" [o, .int i, v]) := by
  refine (works_setupvalue 261 o v i).bind fun _ _ _ set => .pure ?_
  obtain set | ⟨x, set⟩ := set
  · rw [set]
    exact filling
  · rw [set]
    exact filling.setCell x v

/-- A captured variable becomes another one, if both exist. -/
theorem works_joinUpvalue {owner index i : Nat} (filling : Filling l h₀ g st.heap) (o : Value) (small : isInt64 (i + 1) = true)
    (fits : isInt64 index = true) :
    Works st (fun _ h => Filling l h₀ g h ∧ (Upvalue.join owner index).Joins (codeAt? g) os o i) (do
      let _ ← library 259 (.debug .upvaluejoin) "upvaluejoin"
        [o, .ofNat (i + 1), (Reference.object owner).at os, .int (Int64.ofInt index)]) := by
  refine (works_upvaluejoin 259 o _ _ _).bind fun _ _ _ set => .pure ?_
  obtain ⟨own, other, id, n, cell, set⟩ := set
  rw [set]
  refine ⟨filling.setUpvalue id n cell, ?_, ?_⟩
  · obtain ⟨id, c, is, here, _, inside⟩ := upvalue?_isSome own
    rw [filling.code] at here
    rw [ofNat_succ, Binary64.toInt_ofInt_of_isInt64 small] at inside
    exact ⟨id, c, is, here, by omega⟩
  · obtain ⟨id, c, is, here, positive, inside⟩ := upvalue?_isSome other
    rw [filling.code] at here
    rw [Binary64.toInt_ofInt_of_isInt64 fits] at positive inside
    exact ⟨id, c, is, here, by omega, by omega⟩

/-- A captured variable gets its value, or joins another one if both exist. -/
theorem works_fillUpvalue {d : Datum} {w o : Value} {u : Upvalue} {i : Nat} (encoded : Encoded h₀ libraryTables d w)
    (tree : Datum.IsTree d) (read : Upvalue.ofDatum? d = some u) (places : Places h₀ all os) (filling : Filling l h₀ g st.heap)
    (small : isInt64 (i + 1) = true) :
    Works st (fun _ h => Filling l h₀ g h ∧ u.Joins (codeAt? g) os o i) (do
      let join ← field 258 (origin "local" "up") w "join"
      if join.truthy then
        let owner ← access 259 (origin "field" "join") (← field 259 (origin "local" "up") w "join") (.ofNat 1)
        let index ← access 259 (origin "field" "join") (← field 259 (origin "local" "up") w "join") (.ofNat 2)
        let _ ← library 259 (.debug .upvaluejoin) "upvaluejoin" [o, .ofNat (i + 1), lookup all owner, index]
      else
        let v ← value all (← field 261 (origin "local" "up") w "value")
        let _ ← library 261 (.debug .setupvalue) "setupvalue" [o, .ofNat (i + 1), v]) := by
  cases readsUpvalue read with
  | value only given readable =>
    obtain ⟨_, joinIs, joinHere⟩ := exists_field encoded tree given "join"
    obtain ⟨v, valueIs, valueHere⟩ := exists_field encoded tree given "value"
    rw [only] at joinIs
    cases joinIs
    refine (works_field (joinHere _ filling.keeps) 258 _).keep_bind filling fun st₁ filling => ?_
    rw [if_neg (show ¬Value.nil.truthy = true from nofun)]
    refine (works_field (valueHere _ filling.keeps) 261 _).keep_bind filling fun st₂ filling => ?_
    rw [given] at valueIs
    have tree' : Datum.IsTree _ := tree_of_field tree given
    refine (works_value valueIs tree' readable places.get filling.keeps).bind fun v st₃ _ found => ?_
    rw [← found.2] at filling
    exact (works_storeUpvalue filling o v _).imp fun _ _ filled => ⟨filled, trivial⟩
  | @join owner index given =>
    obtain ⟨list, listIs, listHere⟩ := exists_field encoded tree given "join"
    rw [given] at listIs
    have truthy : list.truthy = true := by
      obtain ⟨t, vs, rfl, _⟩ := listIs
      rfl
    obtain ⟨vs, values, reads⟩ := index_item listIs
    obtain ⟨w₁, _, rfl, ownerIs, w₂, _, rfl, indexIs, rfl⟩ := values
    obtain ⟨ownerFits, rfl⟩ := int_of_scalar ownerIs
    obtain ⟨indexFits, rfl⟩ := int_of_scalar indexIs
    refine (works_field (listHere _ filling.keeps) 258 _).keep_bind filling fun st₁ filling => ?_
    rw [if_pos truthy]
    refine (works_field (listHere _ filling.keeps) 259 _).keep_bind filling fun st₂ filling => ?_
    refine (works_access (reads _ filling.keeps 0 (by omega)) 259 _).keep_bind filling fun st₃ filling => ?_
    refine (works_field (listHere _ filling.keeps) 259 _).keep_bind filling fun st₄ filling => ?_
    refine (works_access (reads _ filling.keeps 1 (by omega)) 259 _).keep_bind filling fun st₅ filling => ?_
    show Works st₅ _ (do
      let _ ← library 259 (.debug .upvaluejoin) "upvaluejoin"
        [o, .ofNat (i + 1), lookup all (.int (Int64.ofInt owner)), .int (Int64.ofInt index)])
    rw [lookup_int places.get ownerFits]
    exact works_joinUpvalue filling o small indexFits

theorem isInt64_place {ds : List Datum} (tree : Datum.IsTree (.list ds)) {i : Nat} (inside : i < ds.length) : isInt64 (i + 1) = true :=
  isInt64_of_le (show i + 1 ≤ ds.length from inside) tree.2

section

variable {d : Datum} {w : Value} (encoded : Encoded h₀ libraryTables d w) (tree : Datum.IsTree d) (places : Places h₀ all os)
  (filling : Filling l h₀ g st.heap)
include encoded tree places filling

theorem works_fillFunction {o : Value} {code : Bytes} {upvalues : List Upvalue} (read : Record.ofDatum? d = some (.function code upvalues)) :
    Works st (fun _ h => Filling l h₀ g h ∧ (Record.function code upvalues).Filled (codeAt? g) os o) (fillFunction all o w) := by
  cases readsRecord read with
  | @function _ _ _ ds kind _ _ given items =>
    obtain ⟨list, listIs, listHere⟩ := exists_field encoded tree kind "upvalues"
    rw [given] at listIs
    have listTree := tree_of_field tree given
    unfold fillFunction
    refine (works_field (listHere _ filling.keeps) 257 _).keep_bind filling fun st₁ filling => ?_
    refine Works.imp (works_each_read Upvalue.ofDatum? rfl listIs listTree items
      (fun i => ∀ j u, j < i → upvalues[j]? = some u → u.Joins (codeAt? g) os o j)
      (fun i d' u v st _ found readable one tree' filling joins => ?_) filling nofun) fun _ _ done =>
        ⟨done.1, fun i u found => done.2 i u ?_ found⟩
    · have inside : i < ds.length := items.length_eq ▸ (List.getElem?_eq_some_iff.mp found).1
      refine (works_fillUpvalue one tree' readable places filling (isInt64_place listTree inside)).imp fun _ _ filled => ?_
      refine ⟨filled.1, fun j u' before found' => ?_⟩
      obtain before | rfl := Nat.lt_succ_iff_lt_or_eq.mp before
      · exact joins j u' before found'
      · cases found.symm.trans found'
        exact filled.2
    · exact (List.getElem?_eq_some_iff.mp found).1

end

/-! ### All records -/

section Begun

variable {n : Nat} {d : Datum} {o : Value} (begun : Begun n h d o)
include begun

/-- The object of a record of the first pass is the one that the record says. -/
theorem begins_of_begun (large : libraryTables ≤ n) {r : Record} (read : Record.ofDatum? d = some r) : r.Begins (codeAt? h) o := by
  have new {t : Nat} (inside : n ≤ t) : Fixed.pathOf? (.table t) = none := by
    refine List.getElem?_eq_none ?_
    exact Nat.le_trans (by decide) (Nat.le_trans large inside)
  cases readsRecord read with
  | @table path _ _ _ kind named =>
    cases begun with
    | @library p t _ named' known =>
      refine ⟨t, rfl, .inl ?_⟩
      cases path with
      | none => cases named'.symm.trans named
      | some p' =>
        cases named'.symm.trans named
        exact known
    | @table t _ unknown inside =>
      refine ⟨t, rfl, .inr ⟨?_, new inside⟩⟩
      cases path with
      | none => rfl
      | some p => exact unknown p named
    | native kind' => simp [kind] at kind'
    | function kind' => simp [kind] at kind'
  | native kind named =>
    cases begun with
    | native _ named' known =>
      cases named.symm.trans named'
      exact known
    | library kind' => simp [kind] at kind'
    | table kind' => simp [kind] at kind'
    | function kind' => simp [kind] at kind'
  | @function code s _ _ kind spelt digits =>
    cases begun with
    | @function id c _ here loads => exact ⟨id, c, rfl, here, loads s code spelt digits⟩
    | library kind' => simp [kind] at kind'
    | table kind' => simp [kind] at kind'
    | native kind' => simp [kind] at kind'

/-- A table that is an object of a record is no part of the records. -/
theorem outside_of_begun {t : Nat} (is : o = .table t) (size : n = h₀.tables.size) : Outside h₀ t := by
  have library {p : String} (known : Fixed.valueOf? p = some (.table t)) : t < libraryTables :=
    Nat.lt_trans (Fixed.lt_length (Option.ne_none_iff_exists'.mpr ⟨p, Fixed.pathOf?_of_valueOf? known⟩)) (by decide)
  cases begun with
  | library _ _ known =>
    cases is
    exact .inl (library known)
  | table _ _ inside =>
    cases is
    exact .inr (size ▸ inside)
  | native _ _ known => exact .inl (library (is ▸ known))
  | function => cases is

/-- The object of a table is none of the records, and it is the metatable of lists if it is named so. -/
theorem table_of_begun (large : libraryTables ≤ n) (kind : field? "kind" d = some (.text "table")) :
    ∃ t, o = .table t ∧ (t < libraryTables ∨ n ≤ t) ∧ (t = Fixed.sequence → field? "builtin" d = some (.text "@sequence")) := by
  cases begun with
  | @library p t _ named known =>
    have path := Fixed.pathOf?_of_valueOf? known
    have small := Fixed.lt_length (Option.ne_none_iff_exists'.mpr ⟨p, path⟩)
    refine ⟨t, rfl, .inl (Nat.lt_trans small (by decide)), fun is => ?_⟩
    rw [is] at path
    cases path
    exact named
  | @table t _ _ inside =>
    refine ⟨t, rfl, .inr inside, fun is => ?_⟩
    have old : Fixed.sequence < libraryTables := by decide
    omega
  | native kind' => simp [kind] at kind'
  | function kind' => simp [kind] at kind'

end Begun

/-- The object of a record that can be read is filled, if there is nothing wrong about the record. -/
theorem works_fillRecord {d : Datum} {r : Record} {w o : Value} (encoded : Encoded h₀ libraryTables d w) (tree : Datum.IsTree d)
    (read : Record.ofDatum? d = some r) (places : Places h₀ all os) (filling : Filling l h₀ g st.heap)
    (begun : Begun h₀.tables.size g d o) (calm : ∀ entries metatable, r = .table (some "@sequence") entries metatable →
      ∀ e ∈ entries, e.1.isName "__index" = false)
    (mute : IsMute l → ∀ path entries metatable, r = .table path entries metatable → ∀ e ∈ entries, e.1.isName "__eq" = false) :
    Works st (fun _ h => Filling l h₀ g h ∧ r.Filled (codeAt? g) os o) (do
      let kind ← field 247 (origin "local" "record") w "kind"
      if kind == .text "table" then fillTable all o w
      else if (← field 256 (origin "local" "record") w "kind") == .text "function" then fillFunction all o w) := by
  have named : ∃ s, field? "kind" d = some (.text s) := by
    cases readsRecord read with
    | table kind => exact ⟨_, kind⟩
    | native kind => exact ⟨_, kind⟩
    | function kind => exact ⟨_, kind⟩
  obtain ⟨s, named⟩ := named
  obtain ⟨kind, kindIs, kindHere⟩ := exists_field encoded tree named "kind"
  rw [named] at kindIs
  cases kindIs
  refine (works_field (kindHere _ filling.keeps) 247 _).keep_bind filling fun st₁ filling => ?_
  have again := works_field (kindHere _ filling.keeps) 256 (origin "local" "record")
  rw [text_beq]
  cases readsRecord read with
  | @table path entries ds metatable kind path' given each there =>
    cases named.symm.trans kind
    obtain ⟨t, rfl, outside, sequence⟩ := table_of_begun begun h₀.founded kind
    rw [if_pos (beq_self_eq_true _)]
    refine works_fillTable encoded tree places filling read outside (fun is => ?_) fun silent => mute silent _ _ _ rfl
    have is := (sequence is).symm.trans path'
    cases path with
    | none => cases is
    | some p =>
      cases is
      exact calm entries metatable rfl
  | native kind _ =>
    cases named.symm.trans kind
    rw [if_neg (by simp)]
    refine again.keep_bind filling fun st₂ filling => ?_
    rw [text_beq, if_neg (by simp)]
    exact .pure ⟨filling, trivial⟩
  | function kind _ _ _ _ =>
    cases named.symm.trans kind
    rw [if_neg (by simp)]
    refine again.keep_bind filling fun st₂ filling => ?_
    rw [text_beq, if_pos (beq_self_eq_true _)]
    exact works_fillFunction encoded tree places filling read

/-- The objects of all records that can be read are filled, if there is nothing wrong about any record. -/
theorem works_fillRecords {ds : List Datum} {l : Listing} {heap : Value} (encoded : Encoded h₀ libraryTables (.list ds) heap)
    (tree : Datum.IsTree (.list ds)) (read : ds.mapM Record.ofDatum? = some l) (calm : Calm l) (places : Places h₀ all os)
    (begun : List.Forall₂ (Begun h₀.tables.size g) ds os) (filling : Filling l h₀ g st.heap) :
    Works st (fun _ h => Filling l h₀ g h ∧ ∀ (i : Nat) r o, l[i]? = some r → os[i]? = some o → r.Filled (codeAt? g) os o)
      (each heap fun i record => do
      let o := all.getInt i
      let kind ← field 247 (origin "local" "record") record "kind"
      if kind == .text "table" then fillTable all o record
      else if (← field 256 (origin "local" "record") record "kind") == .text "function" then fillFunction all o record) := by
  have items := forall₂_of_mapM read
  -- Before a position all objects are filled; a later record does not undo what was found out before it.
  refine Works.imp (works_each_read Record.ofDatum? rfl encoded tree items
    (fun i => ∀ j r o, j < i → l[j]? = some r → os[j]? = some o → r.Filled (codeAt? g) os o)
    (fun i d r w st here found readable one tree' filling filled => ?_) filling fun _ _ _ before => absurd before (Nat.not_lt_zero _))
      fun _ _ done => ⟨done.1, fun i r o found here => ?_⟩
  · have inside : i < ds.length := (List.getElem?_eq_some_iff.mp here).1
    have inside' : i < os.length := begun.length_eq ▸ inside
    have there : os[i]? = some os[i] := List.getElem?_eq_getElem inside'
    have small : i < 2 ^ 63 - 1 := by
      have fits := isInt64_place tree inside
      rw [Binary64.isInt64_iff] at fits
      omega
    have own : all.getInt (i + 1) = os[i] := by
      show all.get (.int (Int64.ofNat (i + 1))) = _
      rw [places.get, itemAt_ofNat os small, List.getD_eq_getElem?_getD, there]
      rfl
    have begun' : Begun h₀.tables.size g d os[i] := by
      rw [List.getElem?_eq_getElem inside] at here
      cases here
      exact begun.get inside inside'
    dsimp only
    rw [own]
    refine (works_fillRecord one tree' readable places filling begun' ?_ ?_).imp fun _ _ done => ⟨done.1, fun j r' o before found' at' => ?_⟩
    · rintro entries metatable rfl
      exact calm entries metatable (List.mem_of_getElem? found)
    · rintro mute path entries metatable rfl
      exact mute path entries metatable (List.mem_of_getElem? found)
    · obtain before | rfl := Nat.lt_succ_iff_lt_or_eq.mp before
      · exact filled j r' o before found' at'
      · cases found.symm.trans found'
        cases there.symm.trans at'
        exact done.2
  · exact done.2 i r o (List.getElem?_eq_some_iff.mp found).1 found here

theorem lookup_root (places : ∀ k, all.get k = itemAt os k) {root : Int} (fits : isInt64 root = true) :
    lookup all (.int (Int64.ofInt root)) = (Reference.object root.toNat).at os := by
  cases root with
  | ofNat n => exact lookup_int places fits
  | negSucc n =>
    show all.get (.int (Int64.ofInt (.negSucc n))) = .nil
    rw [places, itemAt, Binary64.toInt_ofInt_of_isInt64 fits, if_neg (by omega)]

/-- Tables that say nothing of equality are what they are. -/
theorem Mute.binaryMetamethod_eq (mute : Mute h₀ h) {t t' : Nat} (own : Outside h₀ t) (own' : Outside h₀ t') :
    h.binaryMetamethod (.table t) (.table t') "__eq" = .nil := by
  have silent {t : Nat} (own : Outside h₀ t) : h.metamethod (.table t) "__eq" = .nil := by
    rw [Heap.metamethod, Heap.metatable?]
    cases named : (h.table t).metatable with
    | none => rfl
    | some m => exact mute.silent m (mute.closed t own m named)
  rw [Heap.binaryMetamethod, silent own, silent own']

/-- What is taken for the global table is the global table, if no metatable answers for it. -/
theorem works_isGlobals {o : Value} (silent : o = .table Fixed.globals ∨
      ∀ t, o = .table t → st.heap.binaryMetamethod o (.table Fixed.globals) "__eq" = .nil) :
    Works st (fun same h => h = st.heap ∧ (same = true → o = .table Fixed.globals)) (isGlobals o) := by
  refine .getHeap_bind ?_
  by_cases own : o = .table Fixed.globals
  · rw [own]
    exact .pure ⟨rfl, fun _ => rfl⟩
  · have other : st.heap.equal o (.table Fixed.globals) = .value (.bool false) := by
      cases o with
      | ref r =>
        cases r with
        | table t => exact Heap.equal_of_silent (fun same => own (congrArg Value.table same)) (silent.resolve_left own t rfl)
        | _ => rfl
      | _ => rfl
    rw [other]
    exact .pure ⟨rfl, nofun⟩

/-- An unchecked rebuild of records that can be read ends well only if there is nothing to find out about them. -/
theorem works_rebuild {ds : List Datum} {l : Listing} {root : Int} {heap : Value} (fresh : Fresh h₀)
    (encoded : Encoded h₀ libraryTables (.list ds) heap) (json : Json.IsJson (.list ds)) (tree : Datum.IsTree (.list ds))
    (mappings : ∀ d ∈ ds, ∃ es, d = .mapping es) (read : ds.mapM Record.ofDatum? = some l) (calm : Calm l) (direct : Direct l root)
    (fits : isInt64 root = true) (start : st.heap = h₀) :
    Works st (fun _ _ => Checked l root) (rebuild (.int (Int64.ofInt root)) heap) := by
  have items := forall₂_of_mapM read
  unfold rebuild
  refine (works_objects fresh encoded json tree mappings start).bind fun all st₁ _ made => ?_
  obtain ⟨advances, os, begun, get⟩ := made
  have begins : List.Forall₂ (fun r o => Record.Begins (codeAt? st₁.heap) o r) l os := by
    refine List.forall₂_iff_get.mpr ⟨items.length_eq.symm.trans begun.length_eq, fun i inside inside' => ?_⟩
    have inside'' : i < ds.length := items.length_eq ▸ inside
    exact begins_of_begun (begun.get inside'' inside') h₀.founded (items.get inside'' inside)
  have places : Places h₀ all os := by
    refine ⟨get, fun o mem => ?_, fun t mem => ?_⟩
    · obtain ⟨i, bound, rfl⟩ := List.getElem_of_mem mem
      have bound' : i < l.length := begins.length_eq ▸ bound
      exact Record.Begins.ref (begins.get bound' bound)
    · obtain ⟨i, bound, is⟩ := List.getElem_of_mem mem
      have bound' : i < ds.length := begun.length_eq ▸ bound
      exact outside_of_begun (begun.get bound' bound) is rfl
  have mute : Mute h₀ st₁.heap := by
    refine ⟨fun t own => (bare_of_advances fresh advances own).2, fun t own m named => ?_⟩
    cases (bare_of_advances fresh advances own).1.symm.trans named
  have filling : Filling l h₀ st₁.heap st₁.heap := ⟨keeps_of_advances fresh advances, rfl, fun _ => mute⟩
  refine (works_fillRecords encoded tree read calm places begun filling).bind fun _ st₂ _ done => ?_
  obtain ⟨filling, filled⟩ := done
  rw [lookup_root get fits]
  refine (works_isGlobals ?_).bind fun same st₃ _ compared => ?_
  · obtain ⟨r, here, named⟩ | mute := direct
    · refine .inl ?_
      obtain ⟨none, _⟩ | ⟨r', x, here', is, begun'⟩ := at_object begins root.toNat
      · cases none.symm.trans here
      · cases here.symm.trans here'
        exact is.trans (begun'.eq_library named)
    · refine .inr fun t is => ?_
      rw [is]
      exact (filling.mute mute).binaryMetamethod_eq (places.outside is) (.inl (by decide))
  · split
    next there => exact .pure (checked_of_filled begins filled (compared.2 there))
    next => exact .raise _

end LuaCapsule.Snapshot.Unchecked
