import LuaCapsule.Proofs.EncodedReading
import LuaCapsule.Proofs.LibraryPaths
import LuaCapsule.Proofs.Spelling

/-! The first pass of an unchecked rebuild. Whatever the records are, the pass ends well only if each
of them has a kind that is known, if the paths of natives are known, and if the code of functions can
be loaded; there is an object for each of them then. -/

namespace LuaCapsule.Snapshot

open Lua Codec

/-! ### Digits -/

section Digits

variable {a b c : Char}

theorem low_of_isDigit (digit : unhexList.isDigit c = true) : c.toNat < 128 := by
  simp only [unhexList.isDigit, Bool.or_eq_true, Bool.and_eq_true, decide_eq_true_eq] at digit
  obtain ⟨_, high⟩ | ⟨_, high⟩ := digit
  · exact Nat.lt_of_le_of_lt (show c.toNat ≤ 57 from high) (by decide)
  · exact Nat.lt_of_le_of_lt (show c.toNat ≤ 102 from high) (by decide)

/-- What is a digit here is one for the language, and neither a blank nor a sign. -/
theorem digit_read (digit : unhexList.isDigit c = true) :
    (Bytes.isAlnum c.toNat.toUInt8 = true ∧ Bytes.isSpace c.toNat.toUInt8 = false) ∧
    (c.toNat.toUInt8 ≠ 45 ∧ c.toNat.toUInt8 ≠ 43) ∧
    Base.digit c.toNat.toUInt8 = unhexList.digitValue c ∧ unhexList.digitValue c < 16 := by
  have all : ∀ i : Fin 128, unhexList.isDigit (Char.ofNat i) = true →
      (Bytes.isAlnum (Char.ofNat i).toNat.toUInt8 = true ∧ Bytes.isSpace (Char.ofNat i).toNat.toUInt8 = false) ∧
      ((Char.ofNat i).toNat.toUInt8 ≠ 45 ∧ (Char.ofNat i).toNat.toUInt8 ≠ 43) ∧
      Base.digit (Char.ofNat i).toNat.toUInt8 = unhexList.digitValue (Char.ofNat i) ∧
      unhexList.digitValue (Char.ofNat i) < 16 := by
    decide
  have one := all ⟨c.toNat, low_of_isDigit digit⟩
  simp only [Char.ofNat_toNat] at one
  exact one digit

/-- The number that two digits spell. -/
theorem intInBase?_pair (high : unhexList.isDigit a = true) (low : unhexList.isDigit b = true) :
    Base.intInBase? (Bytes.ofList [a.toNat.toUInt8, b.toNat.toUInt8]) 16 =
      some (Int64.ofNat (unhexList.digitValue a * 16 + unhexList.digitValue b)) := by
  obtain ⟨⟨alnum, solid⟩, ⟨minus, plus⟩, value, small⟩ := digit_read high
  obtain ⟨⟨alnum', _⟩, _, value', small'⟩ := digit_read low
  have trimmed : Numeral.trimLeft [a.toNat.toUInt8, b.toNat.toUInt8] = [a.toNat.toUInt8, b.toNat.toUInt8] := by
    simp [Numeral.trimLeft, List.dropWhile, solid]
  have unsigned : Numeral.sign [a.toNat.toUInt8, b.toNat.toUInt8] = (false, [a.toNat.toUInt8, b.toNat.toUInt8]) := by
    unfold Numeral.sign
    split
    next is => exact absurd (List.cons.inj is).1 minus
    next is => exact absurd (List.cons.inj is).1 plus
    next => rfl
  have digits : [a.toNat.toUInt8, b.toNat.toUInt8].takeWhile Bytes.isAlnum = [a.toNat.toUInt8, b.toNat.toUInt8] := by
    simp [List.takeWhile, alnum, alnum']
  have number : [a.toNat.toUInt8, b.toNat.toUInt8].foldl (fun n c => (n * 16 + Base.digit c) % 18446744073709551616) 0 =
      unhexList.digitValue a * 16 + unhexList.digitValue b := by
    simp only [List.foldl_cons, List.foldl_nil, value, value']
    omega
  unfold Base.intInBase?
  simp only [show (Bytes.ofList [a.toNat.toUInt8, b.toNat.toUInt8]).data.toList = [a.toNat.toUInt8, b.toNat.toUInt8] from rfl,
    trimmed, unsigned, digits]
  rw [if_neg (by simp [Numeral.isBlank, value, value', small, small'])]
  exact congrArg some ((congrArg (fun n : Nat => Int64.ofInt n) number).trans (Int64.ofInt_eq_ofNat))

theorem low_of_unhexList : ∀ {cs : List Char} {code : List UInt8}, unhexList cs = some code → ∀ c ∈ cs, c.toNat < 128
  | [], _, _ => nofun
  | [_], _, spelt => by cases spelt
  | a :: b :: cs, _, spelt => by
    unfold unhexList at spelt
    split at spelt
    next digits =>
      obtain ⟨high, low⟩ := Bool.and_eq_true_iff.mp digits
      obtain ⟨code', spelt', rfl⟩ := Option.map_eq_some_iff.mp spelt
      simp only [List.mem_cons, forall_eq_or_imp]
      exact ⟨low_of_isDigit high, low_of_isDigit low, low_of_unhexList spelt'⟩
    next => cases spelt

end Digits

namespace Unchecked

variable {st : State} {h₀ h : Heap} {first : Nat}

/-! ### Operations at a line -/

theorem atLine_eq {α : Type} {st' : State} {act : M α} {line : Nat} {x : α}
    (done : act { st with frames := .host line :: st.frames } = .ok x { st' with frames := .host line :: st'.frames }) :
    Reporting.atLine line act st = .ok x st' := by
  unfold Reporting.atLine
  rw [bind_of_ok (rfl : (modify fun st => { st with frames := .host line :: st.frames } : M Unit) st = .ok ⟨⟩ _), bind_of_ok done]
  rfl

theorem access_eq {o k v : Value} (here : st.heap.index o k = .value v) (line : Nat) (object : Origin) :
    access line object o k st = .ok v st := by
  refine atLine_eq ?_
  rw [bind_of_ok (rfl : getHeap _ = .ok st.heap { st with frames := .host line :: st.frames }), here]
  rfl

theorem field_eq {o w : Value} {name : String} (here : st.heap.index o (.text name) = .value w) (line : Nat)
    (object : Origin) : field line object o name st = .ok w st :=
  access_eq here line object

theorem works_access {o k v : Value} (here : st.heap.index o k = .value v) (line : Nat) (object : Origin) :
    Works st (fun a h => a = v ∧ h = st.heap) (access line object o k) :=
  .of_ok (access_eq here line object) rfl ⟨rfl, rfl⟩

theorem works_field {o : Value} {w : Value} {name : String} (here : st.heap.index o (.text name) = .value w) (line : Nat)
    (object : Origin) : Works st (fun a h => a = w ∧ h = st.heap) (field line object o name) :=
  works_access here line object

theorem works_eachFrom {list v : Value} {act : Nat → Value → M Unit} {fuel i : Nat} {P : Unit → Heap → Prop}
    (rest : Works st P (match v with
      | .nil => Pure.pure ⟨⟩
      | v => do
        act i v
        eachFrom list act fuel (i + 1)))
    (here : st.heap.index list (.ofNat i) = .value v) : Works st P (eachFrom list act (fuel + 1) i) := by
  unfold eachFrom
  refine .getHeap_bind ?_
  rw [here]
  exact rest

/-- What a loop over a list keeps with every item, it has kept in the end. The list must not be lost
on the way. -/
theorem works_each {list : Value} {vs : List Value} (inv : Nat → Heap → Prop) {act : Nat → Value → M Unit}
    (reads : ∀ n h, inv n h → ∀ i < 2 ^ 63 - 1, h.index list (.ofNat (i + 1)) = .value (vs.getD i .nil))
    (present : ∀ v ∈ vs, v ≠ .nil)
    (step : ∀ i v st, vs[i]? = some v → inv i st.heap → Works st (fun _ h => inv (i + 1) h) (act (i + 1) v))
    (start : inv 0 st.heap) : Works st (fun _ h => inv vs.length h) (each list act) := by
  have loop (fuel : Nat) : ∀ i st, i ≤ vs.length → i + fuel ≤ Machine.maxSteps → inv i st.heap →
      Works st (fun _ h => inv vs.length h) (eachFrom list act fuel (i + 1)) := by
    induction fuel with
    | zero => exact fun _ _ _ _ _ => .throw _
    | succ fuel ih =>
      intro i st inside small now
      have small' : i < 2 ^ 63 - 1 := by
        simp only [Machine.maxSteps] at small
        omega
      refine works_eachFrom ?_ (reads i st.heap now i small')
      cases found : vs[i]? with
      | none =>
        have last : i = vs.length := Nat.le_antisymm inside (List.getElem?_eq_none_iff.mp found)
        rw [List.getD_eq_getElem?_getD, found]
        exact .pure (last ▸ now)
      | some v =>
        rw [List.getD_eq_getElem?_getD, found]
        have bound := (List.getElem?_eq_some_iff.mp found).1
        have more : Works st (fun _ h => inv vs.length h) (do
            act (i + 1) v
            eachFrom list act fuel (i + 1 + 1)) :=
          (step i v st found now).bind fun _ st' _ later => ih (i + 1) st' bound (by omega) later
        have some := present v (List.mem_of_getElem? found)
        cases v with
        | nil => exact absurd rfl some
        | _ => exact more
  exact loop Machine.maxSteps 0 st (Nat.zero_le _) (by omega) start

/-! ### Scalars -/

/-- The string of one byte. -/
theorem char_eq {n : Nat} (small : n < 256) :
    library 84 (.string .char) "char" [.ofNat n] st = .ok [.str (Bytes.ofList [n.toUInt8])] st := by
  refine atLine_eq ?_
  let s : Site := ⟨.string .char, some (origin "upvalue" "char"), [.ofNat n], Machine.callFunction (some (.string .char))⟩
  have one : [0] = List.range s.arguments.length := rfl
  have place : (Int64.ofNat n).toInt = n := Int64.toInt_ofNat_of_lt (by omega)
  have given : s.checkInt 1 = pure (Int64.ofNat n) := rfl
  show Strings.char s _ = _
  unfold Strings.char
  rw [← one]
  simp only [List.mapM_cons, List.mapM_nil, given, pure_bind, place]
  rw [if_pos (by simp; omega)]
  rfl

theorem unhexFrom_eq : ∀ {cs : List Char} {code : List UInt8}, unhexList cs = some code →
    unhexFrom (Numeral.ascii cs) st = .ok code st
  | [], _, spelt => by
    cases spelt
    rfl
  | [_], _, spelt => by cases spelt
  | a :: b :: cs, _, spelt => by
    unfold unhexList at spelt
    split at spelt
    next digits =>
      obtain ⟨high, low⟩ := Bool.and_eq_true_iff.mp digits
      obtain ⟨code, others, rfl⟩ := Option.map_eq_some_iff.mp spelt
      obtain ⟨_, _, _, small⟩ := digit_read high
      obtain ⟨_, _, _, small'⟩ := digit_read low
      have number : ((Base.intInBase? (Bytes.ofList [a.toNat.toUInt8, b.toNat.toUInt8]) 16).map Value.int).getD .nil =
          .ofNat (unhexList.digitValue a * 16 + unhexList.digitValue b) := by
        rw [intInBase?_pair high low]
        rfl
      show unhexFrom (a.toNat.toUInt8 :: b.toNat.toUInt8 :: Numeral.ascii cs) st = _
      unfold unhexFrom
      dsimp only
      rw [number, bind_of_ok (char_eq (by omega)), bind_of_ok (unhexFrom_eq others)]
      rfl
    next => cases spelt

/-- Digits are read as the bytes that they spell. -/
theorem unhex_eq {s : String} {code : Bytes} (spelt : unhex? s = some code) : unhex (.text s) st = .ok code st := by
  obtain ⟨code, digits, rfl⟩ := Option.map_eq_some_iff.mp spelt
  have bytes : (Bytes.ofString s).data.toList = Numeral.ascii s.toList := by
    have low := low_of_unhexList digits
    simpa only [String.ofList_toList] using Numeral.toList_ofString low
  let site : Site := ⟨.string .gsub, some (origin "upvalue" "gsub"), [.text s], Machine.callFunction (some (.string .gsub))⟩
  have given : Reporting.atLine 84 (site.checkString 1) st = .ok (Bytes.ofString s) st := atLine_eq rfl
  unfold unhex
  rw [bind_of_ok given, bytes, bind_of_ok (unhexFrom_eq digits)]
  rfl

theorem works_char (v : Value) : Works st (fun _ h => h = st.heap) (library 84 (.string .char) "char" [v]) := by
  refine .atLine 84 ?_
  let s : Site := ⟨.string .char, some (origin "upvalue" "char"), [v], Machine.callFunction (some (.string .char))⟩
  have one : [0] = List.range s.arguments.length := rfl
  show Works _ _ (Strings.char s)
  unfold Strings.char
  rw [← one]
  simp only [List.mapM_cons, List.mapM_nil, bind_assoc, pure_bind]
  refine (Works.checkInt s 1).bind fun i st' _ read => ?_
  split
  · exact .pure read.1
  · exact .never_bind (.never_bind (.argumentError s 1 _))

theorem works_unhexFrom : ∀ (bs : List UInt8) (st : State), Works st (fun _ h => h = st.heap) (unhexFrom bs)
  | [], _ => .pure rfl
  | [_], _ => .pure rfl
  | _ :: _ :: rest, _ =>
    (works_char _).bind fun _ st' _ same => (works_unhexFrom rest st').bind fun _ _ _ later => .pure (later.trans same)

theorem works_unhex (v : Value) : Works st (fun b h => h = st.heap ∧ ∀ s code, v = .text s → unhex? s = some code → b = code)
    (unhex v) := by
  by_cases known : ∃ s code, v = .text s ∧ unhex? s = some code
  · obtain ⟨s, code, rfl, spelt⟩ := known
    refine .of_ok (unhex_eq spelt) rfl ⟨rfl, fun s' code' same spelt' => ?_⟩
    obtain rfl := text_inj (congrArg Key.str (Value.str.inj same))
    exact Option.some.inj (spelt.symm.trans spelt')
  · refine (Works.atLine 84 (.checkString _ 1)).bind fun b st' _ read =>
      (works_unhexFrom b.data.toList st').bind fun bs st'' _ later => .pure ⟨later.trans read.1, fun s code is spelt => ?_⟩
    exact absurd ⟨s, code, is, spelt⟩ known

theorem works_display {v : Value} (silent : st.heap.metamethod v "__tostring" = .nil) (line : Nat) :
    Works st (fun _ h => h = st.heap) (display line v) := by
  let s : Site := ⟨.base .tostring, some (origin "upvalue" "tostring"), [v], Machine.callFunction (some (.base .tostring))⟩
  have text (st' : State) (same : st'.heap = st.heap) : Works st' (fun _ h => h = st.heap) (s.toText v) := by
    refine .getHeap_bind ?_
    rw [same, silent]
    cases v with
    | nil => exact .pure same
    | bool b => exact .pure same
    | int i => exact .pure same
    | float x => exact .pure same
    | str b => exact .pure same
    | ref r => exact .pure same
  have shown : Works st (fun _ h => h = st.heap) (library line (.base .tostring) "tostring" [v]) := by
    refine .atLine line ((Works.checkAny s 1).bind fun w st' _ given => ?_)
    obtain ⟨same, is⟩ := given
    obtain rfl := Option.some.inj is
    exact (text st' same).bind fun _ _ _ same' => .pure same'
  refine shown.bind fun vs st' _ same => ?_
  split
  · exact .pure same
  · exact .pure same

/-! ### Objects -/

/-- The code of a function. -/
def codeAt? (h : Heap) (id : Nat) : Option Code := (h.closure? id).map (·.code)

/-- Has a table no metatable, and does it say nothing of equality as a metatable? -/
def IsBare (t : Table) : Prop := t.metatable = none ∧ t.get (.text "__eq") = .nil

instance (t : Table) : Decidable (IsBare t) := inferInstanceAs (Decidable (_ ∧ _))

/-- What a first pass does to a heap with so many tables at its beginning: it makes objects, and library tables
lose their entries. -/
structure Advances (n : Nat) (h h' : Heap) : Prop where
  size : h.tables.size ≤ h'.tables.size
  made : ∀ t, libraryTables ≤ t → t < n → h'.table t = h.table t
  library : ∀ t < libraryTables, h'.table t = h.table t ∨ h'.table t = (h.table t).cleared
  metatables : h'.metatables = h.metatables
  bare : ∀ t, IsBare (h.table t) → IsBare (h'.table t)
  code : ∀ id c, codeAt? h id = some c → codeAt? h' id = some c

section Advances

variable {n : Nat} {h h' h'' : Heap}

theorem Advances.refl (n : Nat) (h : Heap) : Advances n h h :=
  ⟨Nat.le_refl _, fun _ _ _ => rfl, fun _ _ => .inl rfl, rfl, fun _ bare => bare, fun _ _ is => is⟩

theorem Advances.trans (one : Advances n h h') (other : Advances n h' h'') : Advances n h h'' where
  size := Nat.le_trans one.size other.size
  made := fun t old inside => (other.made t old inside).trans (one.made t old inside)
  library := fun t inside => by
    obtain same | cleared := one.library t inside
    · rw [← same]
      exact other.library t inside
    · obtain same' | cleared' := other.library t inside
      · exact .inr (same'.trans cleared)
      · refine .inr ?_
        rw [cleared', cleared]
        rfl
  metatables := other.metatables.trans one.metatables
  bare := fun t bare => other.bare t (one.bare t bare)
  code := fun id c is => other.code id c (one.code id c is)

theorem Advances.of_le {m : Nat} (advances : Advances n h h') (le : m ≤ n) : Advances m h h' :=
  ⟨advances.size, fun t old inside => advances.made t old (Nat.lt_of_lt_of_le inside le), advances.library, advances.metatables,
    advances.bare, advances.code⟩

theorem advances_newTable (h : Heap) : Advances h.tables.size h (h.newTable {}).2 where
  size := by simp [Heap.newTable]
  made := fun t' _ inside => by rw [Heap.table_newTable, if_neg (Nat.ne_of_lt inside)]
  library := fun t' inside => .inl (by rw [Heap.table_newTable, if_neg (Nat.ne_of_lt (Nat.lt_of_lt_of_le inside h.founded))])
  metatables := rfl
  bare := fun t' bare => by rwa [Heap.table_newTable_empty]
  code := fun _ _ is => is

theorem advances_cleared (n : Nat) (h : Heap) {t : Nat} (old : t < libraryTables) : Advances n h (h.modifyTable t Table.cleared) where
  size := by simp [Heap.modifyTable]
  made := fun t' new _ => by rw [Heap.table_modifyTable, if_neg (by omega)]
  library := fun t' _ => by
    rw [Heap.table_modifyTable]
    split
    · exact .inr rfl
    · exact .inl rfl
  metatables := rfl
  bare := fun t' bare => by
    rw [Heap.table_modifyTable]
    split
    · exact ⟨bare.1, Table.get_cleared _ _⟩
    · exact bare
  code := fun _ _ is => is

theorem advances_rawSet (h : Heap) {t : Nat} (own : n ≤ t) (new : libraryTables ≤ t) {k : Key} (other : k ≠ .text "__eq") (v : Value) :
    Advances n h (h.rawSet t k v) where
  size := by simp [Heap.rawSet, Heap.modifyTable]
  made := fun t' _ inside => by rw [Heap.rawSet, Heap.table_modifyTable, if_neg (by omega)]
  library := fun t' inside => .inl (by rw [Heap.rawSet, Heap.table_modifyTable, if_neg (by omega)])
  metatables := rfl
  bare := fun t' bare => by
    rw [Heap.rawSet, Heap.table_modifyTable]
    split
    · exact ⟨(Table.metatable_set _ _ _).trans bare.1, by rw [Table.get_set, if_neg other, bare.2]⟩
    · exact bare
  code := fun _ _ is => is

theorem codeAt?_newFunction (h : Heap) (c : Code) (id : Nat) :
    codeAt? (h.newFunction c).2 id = if id = h.closures.size then some c else codeAt? h id := by
  simp only [codeAt?, Heap.closure?, Heap.newFunction, Heap.newClosure, Array.getElem?_push]
  split <;> rfl

theorem advances_newFunction (n : Nat) (h : Heap) (c : Code) : Advances n h (h.newFunction c).2 where
  size := Nat.le_refl _
  made := fun _ _ _ => rfl
  library := fun _ _ => .inl rfl
  metatables := rfl
  bare := fun _ bare => bare
  code := fun id d is => by
    rw [codeAt?_newFunction, if_neg, is]
    rintro rfl
    simp [codeAt?, Heap.closure?] at is

theorem advances_setCell (n : Nat) (h : Heap) (x : Nat) (v : Value) : Advances n h (h.setCell x v) :=
  ⟨Nat.le_refl _, fun _ _ _ => rfl, fun _ _ => .inl rfl, rfl, fun _ bare => bare, fun _ _ is => is⟩

end Advances

theorem works_loadFunction (text name : Bytes) (environment : Value) :
    Works st (fun r h => Advances st.heap.tables.size st.heap h ∧ ∀ id, r = .ok id → ∃ c, Code.undump text = .ok c ∧ codeAt? h id = some c)
      (Base.loadFunction text name (Bytes.ofString "b") environment) := by
  unfold Base.loadFunction
  by_cases binary : (text.at0 0 == 0x1b && decide (text.size > 0)) = true
  · have accepted : ((Bytes.ofString "b").find? (· == 98) 0).isNone = false := by decide +kernel
    simp only [binary, if_true, accepted, Bool.false_eq_true, if_false]
    cases loaded : Code.undump text with
    | error m => exact .pure ⟨.refl _ _, nofun⟩
    | ok c =>
      -- The function is made, and its first captured variable is the environment.
      have here : codeAt? (st.heap.newFunction c).2 st.heap.closures.size = some c := by
        rw [codeAt?_newFunction, if_pos rfl]
      have advances := advances_newFunction st.heap.tables.size st.heap c
      dsimp only
      refine .make_bind (.getHeap_bind ?_)
      split
      next cell _ =>
        refine .modifyHeap_bind (.pure ⟨advances.trans (advances_setCell _ _ _ _), fun id is => ⟨c, rfl, ?_⟩⟩)
        cases is
        exact here
      next =>
        refine .pure ⟨advances, fun id is => ⟨c, rfl, ?_⟩⟩
        cases is
        exact here
  · have refused : ((Bytes.ofString "b").find? (· == 116) 0).isNone = true := by decide +kernel
    simp only [binary, Bool.false_eq_true, if_false, refused, if_true]
    exact .pure ⟨.refl _ _, nofun⟩

/-! ### Records -/

/-- A heap whose library tables are as at the beginning. -/
structure Fresh (h : Heap) : Prop where
  table : ∀ t < libraryTables, h.table t = Fixed.heap.table t
  metatables : h.metatables = Fixed.heap.metatables

section Fresh

variable (fresh : Fresh h₀) (advances : Advances h₀.tables.size h₀ h)
include fresh advances

/-- What no library table had, it does not have later. -/
theorem get_library {t : Nat} (old : t < libraryTables) {k : Key} (missing : (Fixed.heap.table t).get k = .nil) :
    (h.table t).get k = .nil := by
  obtain same | cleared := advances.library t old
  · rw [same, fresh.table t old, missing]
  · rw [cleared, Table.get_cleared]

theorem keeps_of_advances : Keeps h₀ libraryTables h :=
  ⟨advances.size, advances.made, get_library fresh advances (by decide) (by decide +kernel)⟩

/-- Library tables and new ones are bare after the first pass. -/
theorem bare_of_advances {t : Nat} (outside : t < libraryTables ∨ h₀.tables.size ≤ t) : IsBare (h.table t) := by
  refine advances.bare t ?_
  obtain old | new := outside
  · have all : ∀ t < libraryTables, IsBare (Fixed.heap.table t) := by decide +kernel
    rw [fresh.table t old]
    exact all t old
  · rw [Heap.table_of_size_le new]
    exact ⟨rfl, rfl⟩

/-- What was encoded says itself how it is shown. -/
theorem metamethod_tostring {d : Option Datum} {v : Value} (value : FieldOf h₀ libraryTables d v) : h.metamethod v "__tostring" = .nil := by
  have types : h.metatables = Fixed.heap.metatables := advances.metatables.trans fresh.metatables
  have kept {t : Nat} (first : libraryTables ≤ t) (inside : t < h₀.tables.size) :
      h.metatable? (.table t) = (h₀.table t).metatable := congrArg Table.metatable (advances.made t first inside)
  unfold Heap.metamethod
  cases v with
  | nil => rw [Heap.metatable?, types]; rfl
  | bool b => rw [Heap.metatable?, types]; rfl
  | int i => rw [Heap.metatable?, types]; rfl
  | float x => rw [Heap.metatable?, types]; rfl
  | str b =>
    rw [Heap.metatable?, types]
    exact get_library fresh advances (show Fixed.string < libraryTables by decide) (by decide +kernel)
  | ref r =>
    cases d with
    | none => cases value
    | some d =>
      cases d with
      | list ds =>
        obtain ⟨t, vs, is, _, stands⟩ := value
        cases is
        rw [kept stands.first stands.inside, stands.metatable]
        exact get_library fresh advances (show Fixed.sequence < libraryTables by decide) (by decide +kernel)
      | tuple ds =>
        obtain ⟨t, vs, is, _, stands⟩ := value
        cases is
        rw [kept stands.first stands.inside, stands.metatable]
        exact get_library fresh advances (show Fixed.sequence < libraryTables by decide) (by decide +kernel)
      | mapping es =>
        obtain ⟨t, kvs, is, _, stands⟩ := value
        cases is
        rw [kept stands.first stands.inside, stands.metatable]
      | int i => cases (int_of_scalar value).2
      | _ => cases value

end Fresh

theorem text_of_str {d : Option Datum} {b : Bytes} (value : FieldOf h first d (.str b)) (json : ∀ d' ∈ d, Json.IsJson d') :
    ∃ s, d = some (.text s) ∧ Bytes.ofString s = b := by
  cases d with
  | none => cases value
  | some d =>
    cases json d rfl with
    | text s =>
      cases value
      exact ⟨s, rfl, rfl⟩
    | list each =>
      obtain ⟨t, vs, is, _⟩ := value
      cases is
    | mapping texts distinct each =>
      obtain ⟨t, kvs, is, _⟩ := value
      cases is
    | int i => cases (int_of_scalar value).2
    | null => cases value
    | bool b => cases value
    | float x => cases value

theorem eq_of_text {d : Option Datum} {s : String} (value : FieldOf h first d (.text s)) (json : ∀ d' ∈ d, Json.IsJson d') :
    d = some (.text s) := by
  obtain ⟨s', is, same⟩ := text_of_str value json
  rw [is, text_inj (congrArg Key.str same)]

theorem libraryValue_text (p : String) : libraryValue (.text p) = (Fixed.valueOf? p).getD .nil := by
  show ((Bytes.ofString p).toText?.bind Fixed.valueOf?).getD .nil = _
  rw [Bytes.toText?_ofString]
  rfl

theorem ref_of_valueOf? {p : String} {v : Value} (known : Fixed.valueOf? p = some v) : ∃ r, v = .ref r := by
  have path := Fixed.pathOf?_of_valueOf? known
  cases v with
  | ref r => exact ⟨r, rfl⟩
  | _ => cases path

/-- The library value that a field names, if there is one. -/
theorem libraryValue_eq {d : Option Datum} {v : Value} (value : FieldOf h first d v) (json : ∀ d' ∈ d, Json.IsJson d') :
    (libraryValue v = .nil ∧ ∀ p, d = some (.text p) → Fixed.valueOf? p = none) ∨
      ∃ p r, d = some (.text p) ∧ Fixed.valueOf? p = some (.ref r) ∧ libraryValue v = .ref r := by
  have other (unnamed : ∀ b, v ≠ .str b) (p : String) (is : d = some (.text p)) : Fixed.valueOf? p = none := by
    subst is
    cases value
    exact absurd rfl (unnamed _)
  cases v with
  | str b =>
    obtain ⟨p, rfl, rfl⟩ := text_of_str value json
    cases known : Fixed.valueOf? p with
    | none =>
      refine .inl ⟨?_, fun p' is => ?_⟩
      · show libraryValue (.text p) = _
        rw [libraryValue_text, known]
        rfl
      · cases is
        exact known
    | some w =>
      obtain ⟨r, rfl⟩ := ref_of_valueOf? known
      refine .inr ⟨p, r, rfl, known, ?_⟩
      show libraryValue (.text p) = _
      rw [libraryValue_text, known]
      rfl
  | nil => exact .inl ⟨rfl, other nofun⟩
  | bool b => exact .inl ⟨rfl, other nofun⟩
  | int i => exact .inl ⟨rfl, other nofun⟩
  | float x => exact .inl ⟨rfl, other nofun⟩
  | ref r => exact .inl ⟨rfl, other nofun⟩

/-- The object that there is for a record after the first pass, in a heap that had so many tables
before. -/
inductive Begun (n : Nat) (h : Heap) (record : Datum) : Value → Prop
  | library {p : String} {t : Nat} (kind : field? "kind" record = some (.text "table"))
    (named : field? "builtin" record = some (.text p)) (known : Fixed.valueOf? p = some (.table t)) : Begun n h record (.table t)
  | table {t : Nat} (kind : field? "kind" record = some (.text "table"))
    (unknown : ∀ p, field? "builtin" record = some (.text p) → Fixed.valueOf? p = none) (new : n ≤ t) : Begun n h record (.table t)
  | native {p : String} {v : Value} (kind : field? "kind" record = some (.text "native"))
    (named : field? "builtin" record = some (.text p)) (known : Fixed.valueOf? p = some v) : Begun n h record v
  | function {id : Nat} {c : Code} (kind : field? "kind" record = some (.text "function")) (here : codeAt? h id = some c)
    (loads : ∀ s code, field? "code" record = some (.text s) → unhex? s = some code → Code.undump code = .ok c) :
    Begun n h record (.closure id)

theorem Begun.later {n : Nat} {h' : Heap} {record : Datum} {o : Value} (begun : Begun n h record o)
    (code : ∀ id c, codeAt? h id = some c → codeAt? h' id = some c) : Begun n h' record o := by
  cases begun with
  | library kind named known => exact .library kind named known
  | table kind unknown new => exact .table kind unknown new
  | native kind named known => exact .native kind named known
  | function kind here loads => exact .function kind (code _ _ here) loads

theorem works_newTable :
    Works st (fun id h => Advances st.heap.tables.size st.heap h ∧ id = st.heap.tables.size) (Lua.newTable {}) :=
  (Works.newTable {}).imp fun _ _ made => ⟨made.2 ▸ advances_newTable _, made.1⟩

section Object

variable {es : List (Datum × Datum)} {record : Value} (fresh : Fresh h₀)
  (encoded : Encoded h₀ libraryTables (.mapping es) record) (json : Json.IsJson (.mapping es)) (tree : Datum.IsTree (.mapping es))
  (advances : Advances h₀.tables.size h₀ st.heap)
include fresh encoded json tree advances

/-- The object of a table is the library table that it names, without its entries, or a new one. -/
theorem works_tableObject (isTable : field? "kind" (.mapping es) = some (.text "table")) :
    Works st (fun o h => Advances st.heap.tables.size st.heap h ∧ Begun h₀.tables.size h (.mapping es) o) (do
      let path ← field 214 (origin "local" "record") record "builtin"
      let found ← if path.truthy then pure (libraryValue (← field 214 (origin "local" "record") record "builtin")) else pure path
      if found.truthy then
        match found with
        | .ref (.table id) => modifyHeap (·.modifyTable id Table.cleared)
        | v =>
          let s : Site := ⟨.base .next, some .iterator, [v], Machine.callFunction (some (.base .next))⟩
          let _ ← Reporting.atLine 36 (s.checkTable 1)
        return found
      else return .table (← newTable {})) := by
  have keeps := keeps_of_advances fresh advances
  have values (name : String) : ∀ d ∈ Datum.lookup (.text name) es, Json.IsJson d := fun _ found => json.value found
  obtain ⟨path, pathIs, pathHere⟩ := index_field encoded tree "builtin"
  refine (works_field (pathHere _ keeps) 214 _).look_bind fun st₂ same => ?_
  rw [← same] at keeps advances ⊢
  extract_lets finish
  have new (found : Value) (st' : State) (same : st'.heap = st₂.heap) (falsy : found.truthy = false)
      (unknown : ∀ p, field? "builtin" (.mapping es) = some (.text p) → Fixed.valueOf? p = none) :
      Works st' (fun o h => Advances st₂.heap.tables.size st₂.heap h ∧ Begun h₀.tables.size h (.mapping es) o) (finish found) := by
    show Works st' _ (if found.truthy = true then _ else _)
    rw [falsy, if_neg Bool.false_ne_true]
    refine works_newTable.bind fun t st₃ _ made => .pure ?_
    rw [same] at made
    obtain ⟨later, rfl⟩ := made
    exact ⟨later, .table isTable unknown advances.size⟩
  split
  next truthy =>
    refine (works_field (pathHere _ keeps) 214 _).look_bind fun st₃ same => ?_
    obtain ⟨missing, unknown⟩ | ⟨p, r, named, known, is⟩ := libraryValue_eq pathIs (values _)
    · rw [missing]
      exact new .nil st₃ same rfl unknown
    · rw [is]
      cases r with
      | table t =>
        have path := Option.ne_none_iff_exists'.mpr ⟨p, Fixed.pathOf?_of_valueOf? known⟩
        have old : t < libraryTables := Nat.lt_trans (Fixed.lt_length path) (by decide)
        show Works st₃ _ (do
          modifyHeap fun h => h.modifyTable t Table.cleared
          return Value.table t)
        refine .modifyHeap_bind (.pure ⟨?_, .library isTable named known⟩)
        rw [← same]
        exact advances_cleared _ _ old
      | _ =>
        rw [pure_bind]
        unfold finish
        rw [if_pos (show (Value.ref _).truthy = true from rfl)]
        exact Works.never_bind (.atLine 36 ((Works.checkTable _ 1).imp fun _ _ given => nomatch given.2))
  next falsy =>
    refine new path st₂ rfl (Bool.eq_false_of_not_eq_true falsy) fun p named => ?_
    have is : FieldOf h₀ libraryTables (some (.text p)) path := named ▸ pathIs
    cases is
    exact absurd rfl falsy

/-- The object of a native is the library value that it names. -/
theorem works_nativeObject (isNative : field? "kind" (.mapping es) = some (.text "native")) :
    Works st (fun o h => Advances st.heap.tables.size st.heap h ∧ Begun h₀.tables.size h (.mapping es) o) (do
      match libraryValue (← field 222 (origin "local" "record") record "builtin") with
      | .nil =>
        let path ← field 224 (origin "local" "record") record "builtin"
        raise (.str (Bytes.ofString "unknown native value '" ++ (← display 224 path) ++ Bytes.ofString "'"))
      | v => return v) := by
  have keeps := keeps_of_advances fresh advances
  have values (name : String) : ∀ d ∈ Datum.lookup (.text name) es, Json.IsJson d := fun _ found => json.value found
  obtain ⟨path, pathIs, pathHere⟩ := index_field encoded tree "builtin"
  refine (works_field (pathHere _ keeps) 222 _).look_bind fun st₂ same => ?_
  rw [← same] at keeps advances ⊢
  obtain ⟨missing, _⟩ | ⟨p, r, named, known, is⟩ := libraryValue_eq pathIs (values _)
  · rw [missing]
    refine (works_field (pathHere _ keeps) 224 _).keep_bind advances fun st₃ advances => ?_
    exact (works_display (metamethod_tostring fresh advances pathIs) 224).bind fun _ _ _ _ => .raise _
  · rw [is]
    exact .pure ⟨.refl _ _, .native isNative named known⟩

omit json in
/-- The object of a function is a new one with the code of the record, if the code loads. -/
theorem works_functionObject (isFunction : field? "kind" (.mapping es) = some (.text "function")) :
    Works st (fun o h => Advances st.heap.tables.size st.heap h ∧ Begun h₀.tables.size h (.mapping es) o) (do
      let code ← unhex (← field 228 (origin "local" "record") record "code")
      match ← Base.loadFunction code (Bytes.ofString "=snapshot") (Bytes.ofString "b") (.table Fixed.globals) with
      | .ok id => return .closure id
      | .error m => raise (.str m)) := by
  have keeps := keeps_of_advances fresh advances
  obtain ⟨code, codeIs, codeHere⟩ := index_field encoded tree "code"
  refine (works_field (codeHere _ keeps) 228 _).look_bind fun st₂ same => (works_unhex code).bind fun b st₃ _ spelt =>
    (works_loadFunction b _ _).bind fun r st₄ _ loaded => ?_
  obtain ⟨same', spelt⟩ := spelt
  obtain ⟨later, loaded⟩ := loaded
  rw [same', same] at later
  cases r with
  | error m => exact .raise _
  | ok id =>
    obtain ⟨c, undumps, here⟩ := loaded id rfl
    refine .pure ⟨later, .function isFunction here fun s b' field digits => ?_⟩
    have is : FieldOf h₀ libraryTables (some (.text s)) code := field ▸ codeIs
    cases is
    rw [← spelt s b' rfl digits]
    exact undumps

theorem works_object :
    Works st (fun o h => Advances st.heap.tables.size st.heap h ∧ Begun h₀.tables.size h (.mapping es) o) (object record) := by
  have keeps := keeps_of_advances fresh advances
  have values : ∀ d ∈ Datum.lookup (.text "kind") es, Json.IsJson d := fun _ found => json.value found
  obtain ⟨kind, kindIs, kindHere⟩ := index_field encoded tree "kind"
  unfold object
  refine (works_field (kindHere _ keeps) 212 _).look_bind fun st₁ same => ?_
  rw [← same] at advances ⊢
  split
  next table => exact works_tableObject fresh encoded json tree advances (eq_of_text (eq_of_beq table ▸ kindIs) values)
  next =>
    split
    next native => exact works_nativeObject fresh encoded json tree advances (eq_of_text (eq_of_beq native ▸ kindIs) values)
    next =>
      split
      next function => exact works_functionObject fresh encoded tree advances (eq_of_text (eq_of_beq function ▸ kindIs) values)
      next => exact (works_display (metamethod_tostring fresh advances kindIs) 232).bind fun _ _ _ _ => .raise _

end Object

theorem ofNat_succ (n : Nat) : Int64.ofNat (n + 1) = Int64.ofInt (n + 1) := (Int64.ofInt_eq_ofNat (n := n + 1)).symm

/-- After the first pass every record has its object, by its place. -/
theorem works_objects {ds : List Datum} {heap : Value} (fresh : Fresh h₀) (encoded : Encoded h₀ libraryTables (.list ds) heap)
    (json : Json.IsJson (.list ds)) (tree : Datum.IsTree (.list ds)) (mappings : ∀ d ∈ ds, ∃ es, d = .mapping es) (start : st.heap = h₀) :
    Works st (fun all h => Advances h₀.tables.size h₀ h ∧ ∃ os, List.Forall₂ (Begun h₀.tables.size h) ds os ∧ ∀ k, all.get k = itemAt os k)
      (objects heap) := by
  obtain ⟨vs, items, reads⟩ := index_item encoded
  have length := items.length_eq
  -- The table of the objects is the first new one.
  let inv (i : Nat) (h : Heap) : Prop := Advances h₀.tables.size h₀ h ∧ h₀.tables.size < h.tables.size ∧
    ∃ os, List.Forall₂ (Begun h₀.tables.size h) (ds.take i) os ∧ ∀ k, (h.table h₀.tables.size).get k = itemAt os k
  refine (Works.newTable {}).bind fun all st₁ _ made => ?_
  rw [start] at made
  obtain ⟨rfl, made⟩ := made
  have begun : inv 0 st₁.heap := by
    rw [made]
    refine ⟨advances_newTable _, by simp [Heap.newTable], [], .nil, fun k => ?_⟩
    rw [Heap.table_newTable, if_pos rfl, itemAt_nil]
    rfl
  have step (i : Nat) (record : Value) (st : State) (found : vs[i]? = some record) (now : inv i st.heap) :
      Works st (fun _ h => inv (i + 1) h) (do
        let o ← object record
        modifyHeap (·.modifyTable h₀.tables.size (·.set (.int (Int64.ofNat (i + 1))) o))) := by
    obtain ⟨advances, inside, os, each, here⟩ := now
    have bound : i < ds.length := length ▸ (List.getElem?_eq_some_iff.mp found).1
    have mem : ds[i] ∈ ds := List.getElem_mem bound
    obtain ⟨es, is⟩ := mappings _ mem
    obtain ⟨w, found', one⟩ := items.get (List.getElem?_eq_getElem bound)
    obtain rfl : w = record := Option.some.inj (found'.symm.trans found)
    rw [is] at one mem
    refine (works_object fresh one (json.item mem) (Datum.AreTrees.item tree.1 _ mem) advances).bind fun o st' _ made => .modifyHeap ?_
    obtain ⟨later, begun⟩ := made
    have own : Advances h₀.tables.size st.heap st'.heap := later.of_le advances.size
    have set := advances_rawSet st'.heap (Nat.le_refl h₀.tables.size) h₀.founded (k := .int (Int64.ofNat (i + 1))) (by rintro ⟨⟩) o
    have inside' : h₀.tables.size < st'.heap.tables.size := Nat.lt_of_lt_of_le inside own.size
    refine ⟨(advances.trans own).trans set, Nat.lt_of_lt_of_le inside' set.size, os ++ [o], ?_, fun k => ?_⟩
    · rw [List.take_add_one, List.getElem?_eq_getElem bound, is]
      exact List.rel_append (each.imp fun _ _ old => old.later (own.trans set).code) (.cons (begun.later set.code) .nil)
    · have size : os.length = i := by
        rw [← each.length_eq, List.length_take]
        omega
      have fits : isInt64 (os.length + 1) = true := isInt64_of_le (m := os.length + 1) (by omega) tree.2
      rw [itemAt_concat os o k fits, size, ← ofNat_succ, ← here k, ← later.made _ h₀.founded inside]
      show ((st'.heap.rawSet _ _ _).table _).get k = _
      rw [Heap.rawSet, Heap.table_modifyTable, if_pos ⟨rfl, inside'⟩, Table.get_set]
  refine (works_each inv (fun i h now => reads h (keeps_of_advances fresh now.1)) ?_ step begun).bind fun _ st₂ _ done => ?_
  · intro record mem
    obtain ⟨i, bound, rfl⟩ := List.getElem_of_mem mem
    obtain ⟨w, found, one⟩ := items.get (List.getElem?_eq_getElem (length ▸ bound))
    obtain ⟨es, is⟩ := mappings _ (List.getElem_mem (length ▸ bound))
    rw [is] at one
    obtain ⟨t, kvs, rfl, _⟩ := one
    rw [(List.getElem?_eq_some_iff.mp found).2]
    rintro ⟨⟩
  obtain ⟨advances, inside, os, each, here⟩ := done
  rw [length, List.take_length] at each
  exact .get_bind (.pure ⟨advances, os, each, here⟩)

end Unchecked

end LuaCapsule.Snapshot
