import LuaCapsule.Proofs.UncheckedContents

/-! Which listings are rebuilt in order: only those whose records pass all checks, and all that are well
formed and leave the metatable of lists alone. -/

namespace LuaCapsule.Snapshot

open Lua
open Unchecked (codeAt? codeAt?_newFunction codeAt?_setUpvalue)

variable {h h' : Heap} {l : Listing} {os : List Ref} {code? : Nat → Option Code}

/-! ### References -/

/-- What a reference is said to stand for, it stands for. -/
theorem at_of_valueOf? {x : Reference} {v : Value} (found : valueOf? os.toArray x = some v) : x.at (os.map .ref) = v := by
  cases x with
  | object n =>
    cases n with
    | zero => cases found
    | succ n =>
      obtain ⟨o, here, rfl⟩ := Option.map_eq_some_iff.mp (show (os.toArray[n]?).map Value.ref = some v from found)
      show (os.map Value.ref).getD n .nil = _
      rw [List.getD_eq_getElem?_getD, List.getElem?_map, ← List.getElem?_toArray, here]
      rfl
  | _ =>
    cases found
    rfl

theorem valueOf?_of_closed (length : os.length = l.length) {x : Reference} (closed : x.IsClosed l) :
    valueOf? os.toArray x = some (x.at (os.map .ref)) := by
  cases x with
  | object n =>
    cases n with
    | zero => cases closed
    | succ n =>
      have bound : n < os.length := by
        obtain ⟨r, here⟩ := Option.isSome_iff_exists.mp (show (l[n]?).isSome from closed)
        exact length ▸ (List.getElem?_eq_some_iff.mp here).1
      show (os.toArray[n]?).map Value.ref = some ((os.map Value.ref).getD n .nil)
      rw [List.getElem?_toArray, List.getD_eq_getElem?_getD, List.getElem?_map, List.getElem?_eq_getElem bound]
      rfl
  | _ => rfl

/-! ### Objects -/

/-- There are as many objects as records. -/
theorem length_of_begins (begins : List.Forall₂ (fun r o => Record.Begins code? o r) l (os.map .ref)) : os.length = l.length := by
  simpa using begins.length_eq.symm

theorem Record.Begins.later {code?' : Nat → Option Code} {r : Record} {o : Value} (begins : r.Begins code? o)
    (kept : ∀ id c, code? id = some c → code?' id = some c) : r.Begins code?' o := by
  cases r with
  | table path entries metatable => exact begins
  | native path => exact begins
  | function code upvalues =>
    obtain ⟨id, c, rfl, here, loads⟩ := begins
    exact ⟨id, c, rfl, kept id c here, loads⟩

theorem object?_begins {r : Record} {o : Ref} (made : object? h r = some (o, h')) :
    r.Begins (codeAt? h') (.ref o) ∧ ∀ id c, codeAt? h id = some c → codeAt? h' id = some c := by
  cases r with
  | table path entries metatable =>
    cases path with
    | some p =>
      obtain ⟨t, known, made⟩ := Option.bind_eq_some_iff.mp (show (libraryTable? p).bind _ = some _ from made)
      cases made
      refine ⟨⟨t, rfl, .inl ?_⟩, fun _ _ here => here⟩
      unfold libraryTable? at known
      split at known
      next id is =>
        cases known
        exact is
      next => cases known
    | none =>
      cases made
      refine ⟨⟨h.tables.size, rfl, .inr ⟨rfl, ?_⟩⟩, fun _ _ here => here⟩
      exact List.getElem?_eq_none (Nat.le_trans (by decide) h.founded)
  | native path =>
    obtain ⟨o', known, made⟩ := Option.bind_eq_some_iff.mp (show (libraryLeaf? path).bind _ = some _ from made)
    cases made
    refine ⟨?_, fun _ _ here => here⟩
    unfold libraryLeaf? at known
    split at known
    next => cases known
    next r _ is =>
      cases known
      exact is
    next => cases known
  | function code upvalues =>
    cases loads : Code.undump code with
    | error m =>
      simp only [object?, loads] at made
      cases made
    | ok c =>
      simp only [object?, loads] at made
      cases made
      refine ⟨⟨h.closures.size, c, rfl, ?_, loads⟩, fun id c' here => ?_⟩
      · rw [codeAt?_newFunction, if_pos rfl]
      · rw [codeAt?_newFunction, if_neg, here]
        rintro rfl
        simp [codeAt?, Heap.closure?] at here

theorem object?_of_wellFormed {r : Record} (wellFormed : r.WellFormed l) (h : Heap) : ∃ o h', object? h r = some (o, h') := by
  cases r with
  | table path entries metatable =>
    cases path with
    | some p =>
      obtain ⟨t, known⟩ := wellFormed.1 p rfl
      have table : libraryTable? p = some t := by rw [libraryTable?, known]
      refine ⟨.table t, h.modifyTable t Table.cleared, ?_⟩
      show (libraryTable? p).bind _ = _
      rw [table]
      rfl
    | none => exact ⟨_, _, rfl⟩
  | native path =>
    obtain ⟨v, known, leaf⟩ := wellFormed
    obtain ⟨o, rfl⟩ : ∃ o, v = .ref o := Record.Begins.ref (show Record.Begins (codeAt? h) v (.native path) from known)
    have named : libraryLeaf? path = some o := by
      rw [libraryLeaf?, known]
      cases o with
      | table t => exact absurd rfl (leaf t)
      | _ => rfl
    refine ⟨o, h, ?_⟩
    show (libraryLeaf? path).bind _ = _
    rw [named]
    rfl
  | function code upvalues =>
    obtain ⟨c, loads, _⟩ := wellFormed
    refine ⟨.closure h.closures.size, (h.newFunction c).2, ?_⟩
    simp only [object?, loads]
    rfl

theorem objects?_begins : ∀ {l : Listing} {h h' : Heap} {os : List Ref}, objects? h l = some (os, h') →
    List.Forall₂ (fun r o => Record.Begins (codeAt? h') o r) l (os.map .ref) ∧ ∀ id c, codeAt? h id = some c → codeAt? h' id = some c
  | [], _, _, _, made => by
    cases made
    exact ⟨.nil, fun _ _ here => here⟩
  | r :: l, h, h', os, made => by
    obtain ⟨⟨o, h₁⟩, one, made⟩ := Option.bind_eq_some_iff.mp (show (object? h r).bind _ = some _ from made)
    obtain ⟨⟨os', h₂⟩, others, made⟩ := Option.bind_eq_some_iff.mp (show (objects? h₁ l).bind _ = some _ from made)
    cases made
    obtain ⟨begins, kept⟩ := object?_begins one
    obtain ⟨each, kept'⟩ := objects?_begins others
    exact ⟨.cons (begins.later kept') each, fun id c here => kept' id c (kept id c here)⟩

theorem objects?_of_wellFormed {l' : Listing} (wellFormed : ∀ r ∈ l, r.WellFormed l') (h : Heap) :
    ∃ os h', objects? h l = some (os, h') := by
  induction l generalizing h with
  | nil => exact ⟨_, _, rfl⟩
  | cons r l ih =>
    obtain ⟨o, h₁, one⟩ := object?_of_wellFormed (wellFormed r List.mem_cons_self) h
    obtain ⟨os, h₂, others⟩ := ih (fun r mem => wellFormed r (List.mem_cons_of_mem _ mem)) h₁
    refine ⟨o :: os, h₂, ?_⟩
    show (object? h r).bind _ = _
    rw [one]
    show (objects? h₁ l).bind _ = _
    rw [others]
    rfl

/-! ### Tables -/

/-- Entries are stored only if their keys can be keys. -/
theorem isSome_of_fillEntries? {entries : List (Reference × Reference)} {t t' : Table}
    (filled : fillEntries? os.toArray t entries = some t') :
    ∀ e ∈ entries, (Key.ofValue? (e.1.at (os.map .ref))).isSome := by
  induction entries generalizing t with
  | nil => exact fun e mem => absurd mem List.not_mem_nil
  | cons e entries ih =>
    obtain ⟨key, known, filled⟩ := Option.bind_eq_some_iff.mp (show (keyOf? os.toArray e.1).bind _ = some t' from filled)
    obtain ⟨v, _, filled⟩ := Option.bind_eq_some_iff.mp (show (valueOf? os.toArray e.2).bind _ = some t' from filled)
    obtain ⟨k, found, isKey⟩ := Option.bind_eq_some_iff.mp known
    intro e' mem
    obtain rfl | mem := List.mem_cons.mp mem
    · rw [at_of_valueOf? found, isKey]
      rfl
    · exact ih filled e' mem

/-- A metatable that is found is a table. -/
theorem at_of_metatableOf? {m : Option Reference} {t : Option Nat} (found : metatableOf? os.toArray m = some t) :
    ∀ x ∈ m, ∃ t, x.at (os.map .ref) = .table t := by
  rintro x rfl
  unfold metatableOf? at found
  dsimp only at found
  split at found
  next id is => exact ⟨id, at_of_valueOf? is⟩
  next => cases found

section Begun

variable (begins : List.Forall₂ (fun r o => Record.Begins code? o r) l (os.map .ref))
include begins

theorem keyOf?_of_isKey {x : Reference} (isKey : x.IsKey l) : ∃ k, keyOf? os.toArray x = some k := by
  have length := length_of_begins begins
  have closed : x.IsClosed l := by
    cases x with
    | object n => exact isKey
    | _ => trivial
  obtain ⟨k, known⟩ := Option.isSome_iff_exists.mp ((isKey_iff begins x).mp isKey)
  refine ⟨k, ?_⟩
  rw [keyOf?, valueOf?_of_closed length closed]
  exact known

theorem fillEntries?_of_wellFormed {entries : List (Reference × Reference)} (values : ∀ e ∈ entries, e.1.IsKey l ∧ e.2.IsClosed l)
    (t : Table) :
    ∃ t', fillEntries? os.toArray t entries = some t' := by
  have length := length_of_begins begins
  induction entries generalizing t with
  | nil => exact ⟨t, rfl⟩
  | cons e entries ih =>
    obtain ⟨isKey, closed⟩ := values e List.mem_cons_self
    obtain ⟨k, known⟩ := keyOf?_of_isKey begins isKey
    obtain ⟨t', filled⟩ := ih (fun e' mem => values e' (List.mem_cons_of_mem _ mem)) (t.set k (e.2.at (os.map .ref)))
    refine ⟨t', ?_⟩
    show (keyOf? os.toArray e.1).bind _ = _
    rw [known]
    show (valueOf? os.toArray e.2).bind _ = _
    rw [valueOf?_of_closed length closed]
    exact filled

theorem isTable_at {n : Nat} {r : Record} (here : recordAt? l n = some r) (isTable : r.IsTable) :
    ∃ t, (Reference.object n).at (os.map .ref) = .table t := by
  obtain ⟨missing, _⟩ | ⟨r', x, here', is, begun⟩ := at_object begins n
  · cases missing.symm.trans here
  · cases here.symm.trans here'
    rw [is]
    obtain ⟨path, entries, metatable, rfl⟩ | ⟨t, library⟩ := isTable
    · obtain ⟨t, same, _⟩ := begun
      exact ⟨t, same⟩
    · exact ⟨t, begun.eq_library library⟩

theorem metatableOf?_of_wellFormed {m : Option Reference}
    (named : ∀ x ∈ m, ∃ n r, x = .object n ∧ recordAt? l n = some r ∧ r.IsTable) :
    ∃ t, metatableOf? os.toArray m = some t := by
  have length := length_of_begins begins
  cases m with
  | none => exact ⟨none, rfl⟩
  | some x =>
    obtain ⟨n, r, rfl, here, isTable⟩ := named x rfl
    obtain ⟨t, is⟩ := isTable_at begins here isTable
    have closed : (Reference.object n).IsClosed l := Option.isSome_of_eq_some here
    refine ⟨some t, ?_⟩
    rw [metatableOf?, valueOf?_of_closed length closed, is]

end Begun

/-! ### Functions -/

theorem joined?_succ (o p : Nat) : joined? h os.toArray (o + 1) (p + 1) =
    match os[o]? with
    | some (.closure id) => (h.closure? id).bind fun f => f.upvalues[p]?
    | _ => none := by
  simp only [joined?, Nat.add_sub_cancel, List.getElem?_toArray]
  rfl

/-- A captured variable is found just if there is a function that captures so many. -/
theorem isSome_joined?_iff (owner index : Nat) : (joined? h os.toArray owner index).isSome ↔
    ∃ id c, (Reference.object owner).at (os.map .ref) = .closure id ∧ codeAt? h id = some c ∧ 1 ≤ index ∧ index ≤ c.proto.captures.size := by
  cases owner with
  | zero =>
    constructor
    · rintro ⟨⟩
    · rintro ⟨_, _, ⟨⟩, _⟩
  | succ o =>
    cases index with
    | zero =>
      constructor
      · intro found
        simp [joined?] at found
      · rintro ⟨_, _, _, _, positive, _⟩
        exact absurd positive (Nat.not_lt_zero _)
    | succ p =>
      have at' : (Reference.object (o + 1)).at (os.map .ref) = ((os[o]?).map Value.ref).getD .nil := by
        show (os.map Value.ref).getD o .nil = _
        rw [List.getD_eq_getElem?_getD, List.getElem?_map]
      rw [joined?_succ, at']
      cases os[o]? with
      | none =>
        constructor
        · rintro ⟨⟩
        · rintro ⟨_, _, ⟨⟩, _⟩
      | some r =>
        cases r with
        | closure id =>
          have code : codeAt? h id = (h.closure? id).map (·.code) := rfl
          show ((h.closure? id).bind fun f => f.upvalues[p]?).isSome ↔ _
          cases here : h.closure? id with
          | none =>
            rw [here] at code
            constructor
            · rintro ⟨⟩
            · rintro ⟨_, _, ⟨⟩, here', _⟩
              cases code.symm.trans here'
          | some f =>
            rw [here] at code
            show (f.upvalues[p]?).isSome ↔ _
            have inside : (f.upvalues[p]?).isSome ↔ p < f.code.proto.captures.size := by simp [← f.sized]
            rw [inside]
            constructor
            · exact fun bound => ⟨id, f.code, rfl, code, by omega, bound⟩
            · rintro ⟨_, c, ⟨⟩, here', _, bound⟩
              cases code.symm.trans here'
              exact bound
        | _ =>
          constructor
          · rintro ⟨⟩
          · rintro ⟨_, _, ⟨⟩, _⟩

theorem joins_of_fillUpvalues? {id : Nat} {upvalues : List Upvalue} {i : Nat} (filled : fillUpvalues? os.toArray id i h upvalues = some h')
    {c : Code} (here : codeAt? h id = some c) (inside : i + upvalues.length ≤ c.proto.captures.size) :
    codeAt? h' = codeAt? h ∧ ∀ (j : Nat) u, upvalues[j]? = some u → u.Joins (codeAt? h) (os.map .ref) (.closure id) (i + j) := by
  induction upvalues generalizing h i with
  | nil =>
    cases filled
    exact ⟨rfl, nofun⟩
  | cons u upvalues ih =>
    have rest (x : Heap) (same : codeAt? x = codeAt? h) (filled : fillUpvalues? os.toArray id (i + 1) x upvalues = some h')
        (own : u.Joins (codeAt? h) (os.map .ref) (.closure id) i) :
        codeAt? h' = codeAt? h ∧ ∀ (j : Nat) u', (u :: upvalues)[j]? = some u' → u'.Joins (codeAt? h) (os.map .ref) (.closure id) (i + j) := by
      rw [← same] at here own ⊢
      obtain ⟨code, joins⟩ := ih filled here (by simp at inside; omega)
      refine ⟨code, fun j u' found => ?_⟩
      cases j with
      | zero =>
        cases found
        exact own
      | succ j =>
        have joins := joins j u' found
        rwa [Nat.add_right_comm] at joins
    cases u with
    | value r =>
      rw [fillUpvalues?] at filled
      obtain ⟨f, _, filled⟩ := Option.bind_eq_some_iff.mp filled
      obtain ⟨cell, _, filled⟩ := Option.bind_eq_some_iff.mp filled
      obtain ⟨v, _, filled⟩ := Option.bind_eq_some_iff.mp filled
      exact rest (h.setCell cell v) rfl filled trivial
    | join owner index =>
      rw [fillUpvalues?] at filled
      obtain ⟨cell, joined, filled⟩ := Option.bind_eq_some_iff.mp filled
      have other := (isSome_joined?_iff owner index).mp (Option.isSome_of_eq_some joined)
      refine rest _ (codeAt?_setUpvalue h id i cell) filled ⟨⟨id, c, rfl, here, ?_⟩, other⟩
      simp at inside
      omega

/-- What a well-formed variable joins is a variable of a function. -/
theorem captured_of_wellFormed (begins : List.Forall₂ (fun r o => Record.Begins code? o r) l (os.map .ref)) {owner index : Nat}
    (wellFormed : (Upvalue.join owner index).WellFormed l) :
    ∃ id c, (Reference.object owner).at (os.map .ref) = .closure id ∧ code? id = some c ∧ 1 ≤ index ∧ index ≤ c.proto.captures.size := by
  obtain ⟨r, here, positive, bound⟩ := wellFormed
  obtain ⟨missing, _⟩ | ⟨r', x, here', is, begun⟩ := at_object begins owner
  · cases missing.symm.trans here
  · cases here.symm.trans here'
    cases r with
    | table path entries metatable => exact absurd (Nat.le_trans positive bound) (Nat.not_lt_zero _)
    | native path => exact absurd (Nat.le_trans positive bound) (Nat.not_lt_zero _)
    | function code upvalues =>
      obtain ⟨id, c, same, known, loads⟩ := begun
      rw [Record.captures, loads] at bound
      exact ⟨id, c, is.trans same, known, positive, bound⟩

theorem fillUpvalues?_of_wellFormed (begins : List.Forall₂ (fun r o => Record.Begins (codeAt? h) o r) l (os.map .ref)) {id : Nat}
    {upvalues : List Upvalue} {i : Nat} (wellFormed : ∀ u ∈ upvalues, u.WellFormed l) {c : Code} (here : codeAt? h id = some c)
    (inside : i + upvalues.length ≤ c.proto.captures.size) : ∃ h', fillUpvalues? os.toArray id i h upvalues = some h' := by
  have length := length_of_begins begins
  induction upvalues generalizing h i with
  | nil => exact ⟨h, rfl⟩
  | cons u upvalues ih =>
    have inside' : i + 1 + upvalues.length ≤ c.proto.captures.size := by
      simp at inside
      omega
    have rest (x : Heap) (same : codeAt? x = codeAt? h) : ∃ h', fillUpvalues? os.toArray id (i + 1) x upvalues = some h' :=
      ih (same ▸ begins) (fun u mem => wellFormed u (List.mem_cons_of_mem _ mem)) (same ▸ here) inside'
    have own := wellFormed u List.mem_cons_self
    cases u with
    | value r =>
      obtain ⟨f, there, rfl⟩ := Option.map_eq_some_iff.mp here
      have bound : i < f.upvalues.size := by
        rw [f.sized]
        omega
      obtain ⟨h', filled⟩ := rest (h.setCell f.upvalues[i] (r.at (os.map .ref))) rfl
      refine ⟨h', ?_⟩
      rw [fillUpvalues?, there]
      simp only [Option.bind_eq_bind, Option.bind_some]
      rw [Array.getElem?_eq_getElem bound, valueOf?_of_closed length own]
      exact filled
    | join owner index =>
      obtain ⟨cell, joined⟩ := Option.isSome_iff_exists.mp ((isSome_joined?_iff owner index).mpr (captured_of_wellFormed begins own))
      obtain ⟨h', filled⟩ := rest (h.setUpvalue id i cell) (codeAt?_setUpvalue h id i cell)
      refine ⟨h', ?_⟩
      rw [fillUpvalues?, joined]
      exact filled

/-! ### All records -/

theorem filled_of_fill? {r : Record} {o : Ref} (filled : fill? os.toArray h r o = some h') :
    codeAt? h' = codeAt? h ∧ r.Filled (codeAt? h) (os.map .ref) (.ref o) := by
  cases r with
  | table path entries metatable =>
    cases o with
    | table id =>
      rw [fill?] at filled
      split at filled
      next => cases filled
      next =>
        obtain ⟨t, entered, filled⟩ := Option.bind_eq_some_iff.mp filled
        obtain ⟨m, named, filled⟩ := Option.bind_eq_some_iff.mp filled
        cases filled
        exact ⟨rfl, isSome_of_fillEntries? entered, fun x mem => .inr (at_of_metatableOf? named x mem)⟩
    | _ => cases filled
  | native path =>
    cases filled
    exact ⟨rfl, trivial⟩
  | function code upvalues =>
    cases o with
    | closure id =>
      rw [fill?] at filled
      obtain ⟨f, there, filled⟩ := Option.bind_eq_some_iff.mp filled
      split at filled
      next => cases filled
      next same =>
        have here : codeAt? h id = some f.code := by rw [codeAt?, there]; rfl
        have count : upvalues.length = f.code.proto.captures.size := by
          rw [← f.sized]
          simpa using same
        obtain ⟨code, joins⟩ := joins_of_fillUpvalues? filled here (by omega)
        refine ⟨code, fun i u found => ?_⟩
        have joins := joins i u found
        rwa [Nat.zero_add] at joins
    | _ => cases filled

theorem filled_of_fillAll? {pairs : List (Record × Ref)} (filled : fillAll? os.toArray h pairs = some h') :
    ∀ p ∈ pairs, p.1.Filled (codeAt? h) (os.map .ref) (.ref p.2) := by
  induction pairs generalizing h with
  | nil => exact fun p mem => absurd mem List.not_mem_nil
  | cons p pairs ih =>
    obtain ⟨r, o⟩ := p
    rw [fillAll?] at filled
    obtain ⟨x, one, others⟩ := Option.bind_eq_some_iff.mp filled
    obtain ⟨code, first⟩ := filled_of_fill? one
    -- Filling an object leaves the code of all functions as it was.
    have rest := ih others
    rw [code] at rest
    intro p mem
    obtain rfl | mem := List.mem_cons.mp mem
    · exact first
    · exact rest p mem

/-- A listing is rebuilt only if its records pass the checks. -/
theorem checked_of_rebuild? {root : Int} (rebuilt : rebuild? h root.toNat l = some h') : Checked l root := by
  obtain ⟨⟨os, h₁⟩, made, rebuilt⟩ := Option.bind_eq_some_iff.mp rebuilt
  obtain ⟨begins, _⟩ := objects?_begins made
  dsimp only at rebuilt
  split at rebuilt
  next => cases rebuilt
  next there =>
    have each := filled_of_fillAll? rebuilt
    refine checked_of_filled begins (fun i r o found here => ?_) (at_of_valueOf? (by simpa using there))
    rw [List.getElem?_map] at here
    obtain ⟨o', there, rfl⟩ := Option.map_eq_some_iff.mp here
    exact each (r, o') (List.mem_of_getElem? (List.getElem?_zip_eq_some.mpr ⟨found, there⟩))

section

variable (calm : Calm l) (begins : List.Forall₂ (fun r o => Record.Begins (codeAt? h) o r) l (os.map .ref))
include calm begins

theorem fill?_of_wellFormed {r : Record} {o : Ref} (mem : r ∈ l) (wellFormed : r.WellFormed l) (begun : r.Begins (codeAt? h) (.ref o)) :
    ∃ h', fill? os.toArray h r o = some h' := by
  cases r with
  | table path entries metatable =>
    obtain ⟨paths, values, named⟩ := wellFormed
    obtain ⟨id, is, known⟩ := begun
    cases is
    have quiet : isQuiet (.table id) entries = true := by
      by_cases same : id = Fixed.sequence
      · obtain rfl := same
        obtain is | ⟨_, new⟩ := known
        · obtain ⟨p, rfl, is⟩ := Option.bind_eq_some_iff.mp is
          cases Fixed.pathOf?_of_valueOf? is
          simpa [isQuiet] using calm entries metatable mem
        · cases new
      · simp [isQuiet, same]
    obtain ⟨t, entered⟩ := fillEntries?_of_wellFormed begins values (h.table id)
    obtain ⟨m, there⟩ := metatableOf?_of_wellFormed begins named
    refine ⟨h.modifyTable id fun _ => { t with metatable := m }, ?_⟩
    rw [fill?, quiet, entered, there]
    rfl
  | native path => exact ⟨h, rfl⟩
  | function code upvalues =>
    obtain ⟨c, loads, count, each⟩ := wellFormed
    obtain ⟨id, c', is, here, loads'⟩ := begun
    cases is
    cases loads.symm.trans loads'
    obtain ⟨f, there, rfl⟩ := Option.map_eq_some_iff.mp here
    obtain ⟨h', filled⟩ := fillUpvalues?_of_wellFormed begins each here (show 0 + upvalues.length ≤ f.code.proto.captures.size by omega)
    refine ⟨h', ?_⟩
    have same : (upvalues.length != f.upvalues.size) = false := by
      rw [f.sized, count]
      simp
    rw [fill?, there]
    simp only [Option.bind_eq_bind, Option.bind_some, same]
    exact filled

end

theorem fillAll?_of_wellFormed (calm : Calm l) {pairs : List (Record × Ref)}
    (begins : List.Forall₂ (fun r o => Record.Begins (codeAt? h) o r) l (os.map .ref))
    (each : ∀ p ∈ pairs, p.1 ∈ l ∧ p.1.WellFormed l ∧ p.1.Begins (codeAt? h) (.ref p.2)) :
    ∃ h', fillAll? os.toArray h pairs = some h' := by
  induction pairs generalizing h with
  | nil => exact ⟨h, rfl⟩
  | cons p pairs ih =>
    obtain ⟨r, o⟩ := p
    obtain ⟨mem, wellFormed, begun⟩ := each _ List.mem_cons_self
    obtain ⟨x, one⟩ := fill?_of_wellFormed calm begins mem wellFormed begun
    have code := (filled_of_fill? one).1
    obtain ⟨h', others⟩ := ih (code ▸ begins) fun p mem => code ▸ each p (List.mem_cons_of_mem _ mem)
    refine ⟨h', ?_⟩
    rw [fillAll?, one]
    exact others

/-- A well-formed listing that leaves the metatable of lists alone is rebuilt. -/
theorem rebuild?_of_wellFormed {root : Int} (wellFormed : WellFormed l root) (calm : Calm l) (h : Heap) :
    ∃ h', rebuild? h root.toNat l = some h' := by
  obtain ⟨os, h₁, made⟩ := objects?_of_wellFormed wellFormed.records h
  obtain ⟨begins, _⟩ := objects?_begins made
  have length := length_of_begins begins
  have there : valueOf? os.toArray (.object root.toNat) = some (.table Fixed.globals) := by
    obtain ⟨r, here, library⟩ := wellFormed.root
    have closed : (Reference.object root.toNat).IsClosed l := Option.isSome_of_eq_some here
    rw [valueOf?_of_closed length closed]
    obtain ⟨missing, _⟩ | ⟨r', x, here', is, begun⟩ := at_object begins root.toNat
    · cases missing.symm.trans here
    · cases here.symm.trans here'
      rw [is, begun.eq_library library]
  have each : ∀ p ∈ l.zip os, p.1 ∈ l ∧ p.1.WellFormed l ∧ p.1.Begins (codeAt? h₁) (.ref p.2) := by
    rintro ⟨r, o⟩ mem
    obtain ⟨i, found⟩ := List.getElem?_of_mem mem
    obtain ⟨left, right⟩ := List.getElem?_zip_eq_some.mp found
    have own := List.mem_of_getElem? left
    obtain ⟨bound, rfl⟩ := List.getElem?_eq_some_iff.mp left
    obtain ⟨bound', rfl⟩ := List.getElem?_eq_some_iff.mp right
    refine ⟨own, wellFormed.records _ own, ?_⟩
    have begun := begins.get bound (by simpa using bound')
    simpa using begun
  obtain ⟨h', filled⟩ := fillAll?_of_wellFormed calm begins each
  refine ⟨h', ?_⟩
  rw [rebuild?, made]
  simp only [Option.bind_eq_bind, Option.bind_some]
  rw [there]
  exact filled

end LuaCapsule.Snapshot
