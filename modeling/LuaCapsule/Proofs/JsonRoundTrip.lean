import LuaCapsule.Proofs.DoubleText
import Mathlib.Data.List.Forall2

/-! A value of scalars, lists and mappings with texts as keys is read back from its JSON form, with the
members of every mapping in order of their keys. Reading needs at most as many steps as there are
characters, and one level of depth for each list or mapping around. -/

namespace LuaCapsule.Json

/-- The text of a key. -/
def keyText : Datum → String
  | .text s => s
  | _ => ""

/-- Members in order of their keys. -/
def inOrder (es : List (Datum × Datum)) : List (Datum × Datum) :=
  es.mergeSort fun a b => textLe (keyText a.1) (keyText b.1)

mutual

/-- A value with the members of all mappings in order of their keys, and with one spelling of what is
not a number. -/
def sorted : Datum → Datum
  | .float x => .float (settledDouble x)
  | .list items => .list (sortedAll items)
  | .mapping es => .mapping (inOrder (sortedMembers es))
  | d => d

def sortedAll : List Datum → List Datum
  | [] => []
  | d :: ds => sorted d :: sortedAll ds

def sortedMembers : List (Datum × Datum) → List (Datum × Datum)
  | [] => []
  | (k, d) :: es => (k, sorted d) :: sortedMembers es

end

mutual

/-- A value whose form can be read back, with lists and mappings nested at most so deep. -/
def Plain : Nat → Datum → Prop
  | _, .null => True
  | _, .bool _ => True
  | _, .int i => isLong i = false
  | _, .float _ => True
  | _, .text _ => True
  | n + 1, .list items => PlainAll n items
  | n + 1, .mapping es => PlainMembers n es ∧ (es.map fun e => keyText e.1).Nodup
  | _, _ => False

def PlainAll : Nat → List Datum → Prop
  | _, [] => True
  | n, d :: ds => Plain n d ∧ PlainAll n ds

def PlainMembers : Nat → List (Datum × Datum) → Prop
  | _, [] => True
  | n, (k, d) :: es => k = .text (keyText k) ∧ Plain n d ∧ PlainMembers n es

end

theorem sortedMembers_eq_map (es : List (Datum × Datum)) :
    sortedMembers es = es.map fun e => (e.1, sorted e.2) := by
  induction es with
  | nil => rfl
  | cons e es ih => exact congrArg (_ :: ·) ih

theorem sortedAll_eq_map (ds : List Datum) : sortedAll ds = ds.map sorted := by
  induction ds with
  | nil => rfl
  | cons d ds ih => exact congrArg (_ :: ·) ih

/-- A text from which a value is read, whatever follows it. -/
structure Reads (n : Nat) (d : Datum) (s : String) : Prop where
  head : ∃ c cs, s.toList = c :: cs ∧ isBlank c = false ∧ c ≠ ']'
  value : ∀ fuel rest, s.toList.length < fuel → Ends rest →
    readValue n fuel (s.toList ++ rest) = some (sorted d, rest)

theorem skipBlank_cons {c : Char} (h : isBlank c = false) (cs : List Char) :
    skipBlank (c :: cs) = c :: cs := by
  rw [skipBlank, List.dropWhile_cons, h]
  rfl

theorem ends_bracket (rest : List Char) : Ends (']' :: rest) := by
  rintro c cs h
  exact .inr (.inl (List.cons.inj h).1.symm)

theorem ends_brace (rest : List Char) : Ends ('\x7d' :: rest) := by
  rintro c cs h
  exact .inr (.inr (List.cons.inj h).1.symm)

theorem ends_comma (rest : List Char) : Ends (',' :: rest) := by
  rintro c cs h
  exact .inl (List.cons.inj h).1.symm

/-! ### Scalars -/

section Scalars

variable (ascii : Bool)

theorem escape_ne_nil (c : Char) : escape ascii c ≠ [] := by
  intro empty
  have one := readString_escape ascii c 0 [] ['"']
  rw [empty] at one
  simp [readString] at one

theorem length_le_escaped (cs : List Char) : cs.length ≤ (cs.flatMap (escape ascii)).length := by
  induction cs with
  | nil => exact Nat.le_refl _
  | cons c cs ih =>
    have one := List.length_pos_iff.mpr (escape_ne_nil ascii c)
    rw [List.flatMap_cons, List.length_append, List.length_cons]
    omega

theorem toList_quote (s : String) :
    (quote ascii s).toList = '"' :: (s.toList.flatMap (escape ascii) ++ ['"']) := String.toList_ofList

/-- A quoted text is read up to its closing quote. -/
theorem readString_quote (s : String) (rest : List Char) :
    readString ((s.toList.flatMap (escape ascii) ++ '"' :: rest).length + 1) []
      (s.toList.flatMap (escape ascii) ++ '"' :: rest) = some (s, rest) := by
  rw [readString_quoted]
  · simp
  · have := length_le_escaped ascii s.toList
    rw [List.length_append]
    omega

theorem reads_text (n : Nat) (s : String) : Reads n (.text s) (quote ascii s) := by
  refine ⟨⟨'"', _, toList_quote ascii s, rfl, by decide⟩, fun fuel rest enough _ => ?_⟩
  obtain ⟨fuel, rfl⟩ : ∃ f, fuel = f + 1 := ⟨fuel - 1, by omega⟩
  rw [toList_quote, List.cons_append, List.append_assoc, readValue, skipBlank_cons rfl]
  change (readString _ [] (_ ++ '"' :: rest)).map _ = _
  rw [List.singleton_append, readString_quote]
  rfl

end Scalars

theorem reads_null (n : Nat) : Reads n .null "null" := by
  refine ⟨⟨'n', _, rfl, rfl, by decide⟩, fun fuel rest enough _ => ?_⟩
  obtain ⟨fuel, rfl⟩ : ∃ f, fuel = f + 1 := ⟨fuel - 1, by omega⟩
  rfl

theorem reads_bool (n : Nat) (b : Bool) : Reads n (.bool b) (if b then "true" else "false") := by
  cases b
  · refine ⟨⟨'f', _, rfl, rfl, by decide⟩, fun fuel rest enough _ => ?_⟩
    obtain ⟨fuel, rfl⟩ : ∃ f, fuel = f + 1 := ⟨fuel - 1, by omega⟩
    rfl
  · refine ⟨⟨'t', _, rfl, rfl, by decide⟩, fun fuel rest enough _ => ?_⟩
    obtain ⟨fuel, rfl⟩ : ∃ f, fuel = f + 1 := ⟨fuel - 1, by omega⟩
    rfl

/-- What begins like a number or a word is read as a scalar. -/
theorem readValue_scalar {c : Char} (h : c = '-' ∨ c.isAlphanum = true) (n fuel : Nat) (cs : List Char) :
    isBlank c = false ∧ c ≠ ']' ∧ readValue n (fuel + 1) (c :: cs) = readScalar (c :: cs) := by
  have other {d : Char} (minus : d ≠ '-') (word : d.isAlphanum = false) : c ≠ d := by
    rintro rfl
    rcases h with rfl | h
    · exact minus rfl
    · rw [word] at h
      cases h
  have blank : isBlank c = false := by
    simp only [isBlank, Bool.or_eq_false_iff, beq_eq_false_iff_ne]
    exact ⟨⟨⟨other (by decide) rfl, other (by decide) rfl⟩, other (by decide) rfl⟩, other (by decide) rfl⟩
  refine ⟨blank, other (by decide) rfl, ?_⟩
  have quote : c ≠ '"' := other (by decide) rfl
  have bracket : c ≠ '[' := other (by decide) rfl
  have brace : c ≠ '\x7b' := other (by decide) rfl
  rw [readValue, skipBlank_cons blank]
  split
  next h => exact absurd (List.cons.inj h).1 quote
  next h => exact absurd (List.cons.inj h).1 bracket
  next h => exact absurd (List.cons.inj h).1 brace
  next => rfl

/-- A scalar that is read whatever follows it is read as a value. -/
theorem reads_scalar {d : Datum} {s : String} (n : Nat)
    (head : ∃ c cs, s.toList = c :: cs ∧ (c = '-' ∨ c.isAlphanum = true))
    (scalar : ∀ rest, Ends rest → readScalar (s.toList ++ rest) = some (sorted d, rest)) : Reads n d s := by
  obtain ⟨c, cs, chars, first⟩ := head
  refine ⟨⟨c, cs, chars, (readValue_scalar first n 0 cs).1, (readValue_scalar first n 0 cs).2.1⟩,
    fun fuel rest enough ends => ?_⟩
  obtain ⟨fuel, rfl⟩ : ∃ f, fuel = f + 1 := ⟨fuel - 1, by omega⟩
  have scalar := scalar rest ends
  rw [chars, List.cons_append] at scalar ⊢
  rw [(readValue_scalar first n fuel _).2.2]
  exact scalar

theorem toString_int_head (i : Int) :
    ∃ c cs, (toString i).toList = c :: cs ∧ (c = '-' ∨ c.isAlphanum = true) := by
  rw [toList_toString]
  split
  · exact ⟨'-', _, rfl, .inl rfl⟩
  · obtain ⟨d, ds, digits⟩ := List.exists_cons_of_ne_nil (@Nat.toDigits_ne_nil i.natAbs 10)
    have digit : d.isDigit = true := isDigit_toDigits (n := i.natAbs) (digits ▸ List.mem_cons_self ..)
    exact ⟨d, ds, digits, .inr (by rw [Char.isAlphanum, digit, Bool.or_true])⟩

theorem reads_int (n : Nat) {i : Int} (short : isLong i = false) : Reads n (.int i) (toString i) :=
  reads_scalar n (toString_int_head i) fun _ ends => readScalar_int ends short

theorem reads_double (n : Nat) (x : Binary64) : Reads n (.float x) (doubleLayout.render x) :=
  reads_scalar n (render_head x) fun _ ends => readScalar_double ends x

/-! ### Lists -/

theorem readItems_written {n : Nat} {ds : List Datum} {ts : List String}
    (h : List.Forall₂ (Reads n) ds ts) (some' : ds ≠ []) (fuel : Nat) (acc : List Datum) (rest : List Char)
    (enough : (",".intercalate ts).toList.length + 1 < fuel) :
    readItems n fuel acc ((",".intercalate ts).toList ++ ']' :: rest)
      = some (acc.reverse ++ sortedAll ds, rest) := by
  induction h generalizing fuel acc with
  | nil => exact absurd rfl some'
  | @cons d t ds ts first others ih =>
    obtain ⟨fuel, rfl⟩ : ∃ f, fuel = f + 1 := ⟨fuel - 1, by omega⟩
    cases others with
    | nil =>
      rw [String.intercalate_singleton] at enough ⊢
      rw [readItems, first.value _ _ (by omega) (ends_bracket rest)]
      simp [skipBlank_cons, isBlank, sortedAll]
    | @cons d' t' ds ts second others =>
      rw [String.intercalate_cons_cons] at enough ⊢
      simp only [String.toList_append, List.length_append, List.append_assoc] at enough ⊢
      have comma : ",".toList = [','] := rfl
      rw [comma] at enough ⊢
      simp only [List.singleton_append, List.length_singleton] at enough ⊢
      rw [readItems, first.value _ _ (by omega) (ends_comma _)]
      simp only [skipBlank_cons (show isBlank ',' = false from rfl)]
      rw [ih (by simp) fuel (sorted d :: acc) (by omega)]
      simp [sortedAll]

/-- Parts with commas between them begin as the first part does. -/
theorem intercalate_head {t : String} {c : Char} {cs : List Char} (h : t.toList = c :: cs) (ts : List String) :
    ∃ cs', (",".intercalate (t :: ts)).toList = c :: cs' := by
  cases ts with
  | nil => exact ⟨cs, by rw [String.intercalate_singleton, h]⟩
  | cons t' ts =>
    rw [String.intercalate_cons_cons, String.toList_append, String.toList_append, h]
    exact ⟨_, rfl⟩

theorem reads_list {n : Nat} {ds : List Datum} {ts : List String} (h : List.Forall₂ (Reads n) ds ts) :
    Reads (n + 1) (.list ds) (bracketed "[" "]" ts) := by
  have chars : (bracketed "[" "]" ts).toList = '[' :: ((",".intercalate ts).toList ++ [']']) := by
    simp [bracketed]
  refine ⟨⟨'[', _, chars, rfl, by decide⟩, fun fuel rest enough _ => ?_⟩
  obtain ⟨fuel, rfl⟩ : ∃ f, fuel = f + 1 := ⟨fuel - 1, by omega⟩
  rw [chars] at enough
  rw [chars, List.cons_append, List.append_assoc, List.singleton_append, readValue, skipBlank_cons rfl]
  simp only [List.length_cons, List.length_append, List.length_nil] at enough
  cases h with
  | nil => simp [skipBlank_cons, isBlank, sorted, sortedAll]
  | @cons d t ds ts first others =>
    have items := readItems_written (.cons first others) (by simp) fuel [] rest (by omega)
    obtain ⟨c, cs, start, visible, open'⟩ := first.head
    obtain ⟨cs', chars'⟩ := intercalate_head start ts
    rw [chars', List.cons_append] at items ⊢
    simp only [skipBlank_cons visible]
    split
    next h => exact absurd (List.cons.inj h).1 open'
    next =>
      rw [items]
      simp [sorted]

/-! ### Mappings -/

theorem insert_absent {k : String} {es : List (Datum × Datum)}
    (h : ∀ e ∈ es, ∃ k', e.1 = .text k' ∧ k' ≠ k) (d : Datum) :
    Datum.insert (.text k) d es = es ++ [(.text k, d)] := by
  induction es with
  | nil => rfl
  | cons e es ih =>
    obtain ⟨k', key, other⟩ := h e (List.mem_cons_self ..)
    obtain ⟨k'', d'⟩ := e
    have different : Datum.sameKey (.text k') (.text k) = false := by
      simpa [Datum.sameKey] using other
    dsimp only at key
    rw [key, Datum.insert, different, ih fun e mem => h e (List.mem_cons_of_mem _ mem)]
    rfl

/-- A member of an object with the text of its value. -/
abbrev Member := String × Datum × String

namespace Member

def entry (m : Member) : Datum × Datum := (.text m.1, m.2.1)

def part (m : Member) : String × String := (m.1, m.2.2)

def text (ascii : Bool) (m : Member) : String := quote ascii m.1 ++ ":" ++ m.2.2

def read (m : Member) : Datum × Datum := (.text m.1, sorted m.2.1)

end Member

variable (ascii : Bool)

theorem Member.toList_text (m : Member) (rest : List Char) :
    (m.text ascii).toList ++ rest
      = '"' :: (m.1.toList.flatMap (escape ascii) ++ '"' :: (':' :: (m.2.2.toList ++ rest))) := by
  simp [text, toList_quote]

/-- One member is read, and what follows it decides how reading goes on. -/
theorem readMembers_step {n : Nat} {m : Member} (h : Reads n m.2.1 m.2.2) {fuel : Nat}
    (acc : List (Datum × Datum)) {rest : List Char} (enough : m.2.2.toList.length < fuel) (ends : Ends rest) :
    readMembers n (fuel + 1) acc ((m.text ascii).toList ++ rest) =
      match skipBlank rest with
      | ',' :: rest => readMembers n fuel (Datum.insert (.text m.1) (sorted m.2.1) acc) rest
      | '\x7d' :: rest => some (Datum.insert (.text m.1) (sorted m.2.1) acc, rest)
      | _ => none := by
  have colon : isBlank ':' = false := rfl
  rw [m.toList_text ascii, readMembers, skipBlank_cons rfl]
  simp only [readString_quote, skipBlank_cons colon, h.value _ _ enough ends]
  all_goals rfl

theorem readMembers_written {n : Nat} {ms : List Member} (h : ∀ m ∈ ms, Reads n m.2.1 m.2.2)
    (some' : ms ≠ []) (distinct : (ms.map (·.1)).Nodup) (fuel : Nat) (acc : List (Datum × Datum))
    (rest : List Char) (new : ∀ e ∈ acc, ∃ k, e.1 = .text k ∧ k ∉ ms.map (·.1))
    (enough : (",".intercalate (ms.map (Member.text ascii))).toList.length + 1 < fuel) :
    readMembers n fuel acc ((",".intercalate (ms.map (Member.text ascii))).toList ++ '\x7d' :: rest)
      = some (acc ++ ms.map Member.read, rest) := by
  induction ms generalizing fuel acc with
  | nil => exact absurd rfl some'
  | cons m ms ih =>
    obtain ⟨fuel, rfl⟩ : ∃ f, fuel = f + 1 := ⟨fuel - 1, by omega⟩
    have first := h m (List.mem_cons_self ..)
    have short : m.2.2.toList.length ≤ (m.text ascii).toList.length := by
      have := congrArg List.length (m.toList_text ascii [])
      simp at this
      omega
    have inserted : Datum.insert (.text m.1) (sorted m.2.1) acc = acc ++ [m.read] := by
      refine insert_absent (fun e mem => ?_) _
      obtain ⟨k, key, absent⟩ := new e mem
      exact ⟨k, key, fun same => absent (same ▸ List.mem_cons_self ..)⟩
    cases ms with
    | nil =>
      rw [List.map_singleton, String.intercalate_singleton] at enough ⊢
      rw [readMembers_step ascii first acc (by omega) (ends_brace rest), skipBlank_cons rfl, inserted]
      rfl
    | cons m' ms =>
      rw [List.map_cons, List.map_cons, String.intercalate_cons_cons] at enough ⊢
      simp only [String.toList_append, List.length_append, List.append_assoc] at enough ⊢
      have comma : ",".toList = [','] := rfl
      rw [comma] at enough ⊢
      simp only [List.singleton_append, List.length_singleton] at enough ⊢
      rw [readMembers_step ascii first acc (by omega) (ends_comma _), skipBlank_cons rfl, inserted]
      have unique := List.nodup_cons.mp distinct
      have later := ih (fun m mem => h m (List.mem_cons_of_mem _ mem)) (by simp) unique.2 fuel
        (acc ++ [m.read]) ?_ (by rw [List.map_cons]; omega)
      · rw [List.map_cons] at later
        refine later.trans ?_
        simp
      · intro e mem
        rcases List.mem_append.mp mem with old | new'
        · obtain ⟨k, key, absent⟩ := new e old
          exact ⟨k, key, fun mem => absent (List.mem_cons_of_mem _ mem)⟩
        · obtain rfl := List.mem_singleton.mp new'
          exact ⟨m.1, rfl, unique.1⟩

/-- Members are written in order of their keys. -/
theorem reads_object {n : Nat} {ms : List Member} (h : ∀ m ∈ ms, Reads n m.2.1 m.2.2)
    (distinct : (ms.map (·.1)).Nodup) :
    Reads (n + 1) (.mapping (ms.map Member.entry)) (object ascii (ms.map Member.part)) := by
  obtain ⟨ns, order⟩ : ∃ ns, ns = ms.mergeSort fun a b => textLe a.1 b.1 := ⟨_, rfl⟩
  have same : ns.Perm ms := order ▸ List.mergeSort_perm ..
  have entries : inOrder (sortedMembers (ms.map Member.entry)) = ns.map Member.read := by
    rw [sortedMembers_eq_map, List.map_map, inOrder, order]
    exact (List.map_mergeSort (f := Member.read) fun _ _ _ _ => rfl).symm
  have parts : (ms.map Member.part).mergeSort (fun a b => textLe a.1 b.1) = ns.map Member.part := by
    rw [order]
    exact (List.map_mergeSort (f := Member.part) fun _ _ _ _ => rfl).symm
  have chars : (object ascii (ms.map Member.part)).toList
      = '\x7b' :: ((",".intercalate (ns.map (Member.text ascii))).toList ++ ['\x7d']) := by
    rw [object, parts, List.map_map, bracketed]
    simp only [String.toList_append]
    rfl
  refine ⟨⟨'\x7b', _, chars, rfl, by decide⟩, fun fuel rest enough _ => ?_⟩
  obtain ⟨fuel, rfl⟩ : ∃ f, fuel = f + 1 := ⟨fuel - 1, by omega⟩
  rw [chars] at enough
  rw [chars, List.cons_append, List.append_assoc, List.singleton_append, readValue, skipBlank_cons rfl,
    sorted, entries]
  simp only [List.length_cons, List.length_append, List.length_nil] at enough
  cases ns with
  | nil => simp [skipBlank_cons, isBlank]
  | cons m ns =>
    have members := readMembers_written ascii (fun m mem => h m (same.mem_iff.mp mem)) (by simp)
      ((same.map _).nodup_iff.mpr distinct) fuel [] rest (by simp) (by omega)
    obtain ⟨cs, start⟩ := intercalate_head (m.toList_text ascii [] ▸ (List.append_nil _).symm) (ns.map (Member.text ascii))
    rw [List.map_cons, start, List.cons_append] at members ⊢
    simp only [skipBlank_cons (show isBlank '"' = false from rfl)]
    exact congrArg (Option.map fun r => (Datum.mapping r.1, r.2)) members

/-! ### All values -/

mutual

theorem reads_written : ∀ (n : Nat) (d : Datum), Plain n d → ∃ s, write? ascii d = some s ∧ Reads n d s
  | n, .null, _ => ⟨_, rfl, reads_null n⟩
  | n, .bool b, _ => ⟨_, rfl, reads_bool n b⟩
  | n, .float x, _ => ⟨_, rfl, reads_double n x⟩
  | n, .text s, _ => ⟨_, rfl, reads_text ascii n s⟩
  | n, .int i, plain => ⟨_, rfl, reads_int n (by simpa [Plain] using plain)⟩
  | n + 1, .list ds, plain => by
    rw [Plain] at plain
    obtain ⟨ts, written, reads⟩ := reads_writtenAll n ds plain
    exact ⟨_, by rw [write?, written]; rfl, reads_list reads⟩
  | n + 1, .mapping es, plain => by
    rw [Plain] at plain
    obtain ⟨ms, rfl, written, reads⟩ := reads_writtenMembers n es plain.1
    refine ⟨_, by rw [write?, written]; rfl, reads_object ascii reads ?_⟩
    have distinct := plain.2
    rw [List.map_map] at distinct
    exact distinct
  | 0, .list _, plain => by simp [Plain] at plain
  | 0, .mapping _, plain => by simp [Plain] at plain
  | _, .bytes _, plain => by simp [Plain] at plain
  | _, .tuple _, plain => by simp [Plain] at plain
  | _, .host _, plain => by simp [Plain] at plain
  | _, .live _, plain => by simp [Plain] at plain

theorem reads_writtenAll : ∀ (n : Nat) (ds : List Datum), PlainAll n ds →
    ∃ ts, writeAll? ascii ds = some ts ∧ List.Forall₂ (Reads n) ds ts
  | _, [], _ => ⟨[], rfl, .nil⟩
  | n, d :: ds, plain => by
    rw [PlainAll] at plain
    obtain ⟨t, written, reads⟩ := reads_written n d plain.1
    obtain ⟨ts, writtenAll, readsAll⟩ := reads_writtenAll n ds plain.2
    exact ⟨t :: ts, by rw [writeAll?, written, writtenAll], .cons reads readsAll⟩

theorem reads_writtenMembers : ∀ (n : Nat) (es : List (Datum × Datum)), PlainMembers n es →
    ∃ ms : List Member, es = ms.map Member.entry ∧ writeMembers? ascii es = some (ms.map Member.part) ∧
      ∀ m ∈ ms, Reads n m.2.1 m.2.2
  | _, [], _ => ⟨[], rfl, rfl, by simp⟩
  | n, (k, d) :: es, plain => by
    rw [PlainMembers] at plain
    obtain ⟨key, plain, others⟩ := plain
    obtain ⟨t, written, reads⟩ := reads_written n d plain
    obtain ⟨ms, rfl, writtenAll, readsAll⟩ := reads_writtenMembers n es others
    refine ⟨(keyText k, d, t) :: ms, ?_, ?_, ?_⟩
    · rw [List.map_cons, Member.entry, ← key]
    · rw [key, writeMembers?, written, writtenAll]
      rfl
    · intro m mem
      rcases List.mem_cons.mp mem with rfl | mem
      · exact reads
      · exact readsAll m mem

end

/-- A plain value is read back from its JSON form. -/
theorem read_write (limits : Limits) {d : Datum} (plain : Plain limits.depth d) :
    ∃ s, write? ascii d = some s ∧ read? limits s = some (sorted d) := by
  obtain ⟨s, written, reads⟩ := reads_written ascii limits.depth d plain
  refine ⟨s, written, ?_⟩
  have value := reads.value (s.toList.length + 1) [] (Nat.lt_succ_self _) (by intro c cs h; cases h)
  rw [List.append_nil] at value
  rw [read?, value]
  rfl

end LuaCapsule.Json
