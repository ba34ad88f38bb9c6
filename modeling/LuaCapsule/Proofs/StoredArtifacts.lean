import LuaCapsule.Proofs.CanonicalText

/-! The two stores of artifacts are one to those who use them. Whatever is written and read, they give the
same answers, one of them from the artifacts and the other from their texts, as long as no two texts that
are written have one digest. -/

namespace LuaCapsule

/-! ### Identities -/

namespace Base64Url

theorem letter_injective {m n : Nat} (small : m < 64) (small' : n < 64) (same : letter m = letter n) : m = n := by
  have all : ∀ m n : Fin 64, letter m = letter n → m = n := by decide +kernel
  exact congrArg Fin.val (all ⟨m, small⟩ ⟨n, small'⟩ same)

theorem length_encodeList : ∀ bs : List UInt8, (encodeList bs).length = (4 * bs.length + 2) / 3
  | [] => rfl
  | [_] => by simp [encodeList]
  | [_, _] => by simp [encodeList]
  | a :: b :: c :: bs => by
    rw [encodeList]
    simp only [List.length_cons, length_encodeList bs]
    omega

/-- Each group of letters tells the bytes that it stands for. -/
theorem encodeList_injective : ∀ {as bs : List UInt8}, as.length = bs.length → encodeList as = encodeList bs → as = bs
  | [], [], _, _ => rfl
  | [a], [a'], _, same => by
    have bound := a.toNat_lt
    have bound' := a'.toNat_lt
    simp only [encodeList, List.cons.injEq, and_true] at same
    have high := letter_injective (by omega) (by omega) same.1
    have low := letter_injective (by omega) (by omega) same.2
    rw [UInt8.toNat_inj.mp (show a.toNat = a'.toNat by omega)]
  | [a, b], [a', b'], _, same => by
    have bound := a.toNat_lt
    have bound' := a'.toNat_lt
    have bound₂ := b.toNat_lt
    have bound₂' := b'.toNat_lt
    simp only [encodeList, List.cons.injEq, and_true] at same
    have high := letter_injective (by omega) (by omega) same.1
    have middle := letter_injective (by omega) (by omega) same.2.1
    have low := letter_injective (by omega) (by omega) same.2.2
    rw [UInt8.toNat_inj.mp (show a.toNat = a'.toNat by omega), UInt8.toNat_inj.mp (show b.toNat = b'.toNat by omega)]
  | a :: b :: c :: as, a' :: b' :: c' :: bs, length, same => by
    have bound := a.toNat_lt
    have bound' := a'.toNat_lt
    have bound₂ := b.toNat_lt
    have bound₂' := b'.toNat_lt
    have bound₃ := c.toNat_lt
    have bound₃' := c'.toNat_lt
    simp only [encodeList, List.cons.injEq] at same
    obtain ⟨first, second, third, fourth, rest⟩ := same
    have first := letter_injective (by omega) (by omega) first
    have second := letter_injective (by omega) (by omega) second
    have third := letter_injective (by omega) (by omega) third
    have fourth := letter_injective (by omega) (by omega) fourth
    rw [UInt8.toNat_inj.mp (show a.toNat = a'.toNat by omega), UInt8.toNat_inj.mp (show b.toNat = b'.toNat by omega),
      UInt8.toNat_inj.mp (show c.toNat = c'.toNat by omega), encodeList_injective (by simpa using length) rest]

theorem encode_injective {b b' : Bytes} (same : encode b = encode b') : b = b' := by
  have chars : encodeList b.data.toList = encodeList b'.data.toList := String.ofList_injective same
  have length := congrArg List.length chars
  rw [length_encodeList, length_encodeList] at length
  exact ByteArray.ext (Array.toList_inj.mp (encodeList_injective (by omega) chars))

end Base64Url

namespace Artifact

open Json

theorem identity_eq_ok {a : Datum} {id : String} : identity a = .ok id ↔
    ∃ s, canonical a = .ok s ∧ Base64Url.encode (Sha256.digest (Bytes.ofString s)) = id := by
  rw [identity]
  cases canonical a <;> simp [Except.map]

theorem storeKey_injective {id id' : String} (same : storeKey id = storeKey id') : id = id' := by
  have chars := congrArg String.toList same
  rw [storeKey, storeKey, String.toList_append, String.toList_append] at chars
  exact String.toList_inj.mp (List.append_cancel_left chars)

/-! ### Single operations -/

namespace Store

/-- What a store holds under an identity. -/
def held : Store → String → Option Datum
  | memory es, id => Datum.lookup (.text id) es
  | keyed es, id => Datum.lookup (.text (storeKey id)) es

/-- The form in which a store holds an artifact. -/
def form : Store → Datum → Except Fault Datum
  | memory _, a => plain a
  | keyed _, a => (canonical a).map fun s => .bytes (Bytes.ofString s)

/-- A store with a value under an identity. -/
def put : Store → String → Datum → Store
  | memory es, id, v => memory (Datum.insert (.text id) v es)
  | keyed es, id, v => keyed (Datum.insert (.text (storeKey id)) v es)

@[simp] theorem form_put (s : Store) (id : String) (v : Datum) : (s.put id v).form = s.form := by
  cases s <;> rfl

theorem held_put (s : Store) (id id' : String) (v : Datum) :
    (s.put id v).held id' = if id = id' then some v else s.held id' := by
  cases s with
  | memory es =>
    rw [put, held, Datum.lookup_insert]
    simp [Datum.sameKey, held]
  | keyed es =>
    have one : storeKey id = storeKey id' ↔ id = id' := ⟨storeKey_injective, congrArg _⟩
    rw [put, held, Datum.lookup_insert]
    simp [Datum.sameKey, held, one]

/-- An artifact without an identity is not written. -/
theorem write_of_error {a : Datum} {f : Fault} (failed : identity a = .error f) (s : Store) : write a s = .error f s := by
  rw [write, failed]
  rfl

/-- An artifact with an identity is written in the form of the store. -/
theorem write_of_ok {a : Datum} {id : String} (named : identity a = .ok id) (s : Store) :
    ∃ v, s.form a = .ok v ∧ write a s = .ok id (s.put id v) := by
  obtain ⟨text, canonical, _⟩ := identity_eq_ok.mp named
  obtain ⟨p, made, _⟩ := canonical_eq_ok.mp canonical
  cases s with
  | memory es =>
    refine ⟨p, made, ?_⟩
    rw [write, named, made]
    rfl
  | keyed es =>
    refine ⟨.bytes (Bytes.ofString text), by rw [form, canonical]; rfl, ?_⟩
    rw [write, named, canonical]
    rfl

theorem read?_of_none {s : Store} {id : String} (none' : s.held id = none) : s.read? id = .ok none := by
  cases s with
  | memory es =>
    rw [held] at none'
    rw [read?, none']
  | keyed es =>
    rw [held] at none'
    rw [read?, none']

/-- What is held for an artifact is read as its plain form, but for the order of entries. -/
theorem read?_of_form {s : Store} {id : String} {es : List (Datum × Datum)} {p v : Datum} {text : String}
    (canonical : canonical (.mapping es) = .ok text) (made : plain (.mapping es) = .ok p)
    (form : s.form (.mapping es) = .ok v) (found : s.held id = some v) :
    ∃ d, s.read? id = .ok (some d) ∧ sorted d = sorted p := by
  cases s with
  | memory entries =>
    rw [held] at found
    obtain rfl := Except.ok.inj (made.symm.trans form)
    obtain ⟨ps, rfl⟩ := plain_mapping made
    refine ⟨_, ?_, rfl⟩
    rw [read?, found]
  | keyed entries =>
    rw [held] at found
    rw [Store.form, canonical] at form
    obtain rfl := Except.ok.inj form
    refine ⟨sorted p, ?_, sorted_sorted p⟩
    rw [read?, found]
    dsimp only
    rw [detectText?_canonical canonical made, Option.bind_some, readText?_canonical canonical made]

end Store

/-! ### Sequences of operations -/

inductive Operation where
  | write (artifact : Datum)
  | read (id : String)

inductive Answer where
  | wrote (result : Except Fault String)
  | found (result : Except Fault (Option Datum))

namespace Store

/-- The answer to an operation, and the store after it. -/
def perform (s : Store) : Operation → Answer × Store
  | .write a =>
    match write a s with
    | .ok id s' => (.wrote (.ok id), s')
    | .error f s' => (.wrote (.error f), s')
  | .read id => (.found (s.read? id), s)

/-- The store after some operations. -/
def after (s : Store) (ops : List Operation) : Store := ops.foldl (fun s op => (s.perform op).2) s

/-- The answers to some operations. -/
def answers (s : Store) : List Operation → List Answer
  | [] => []
  | op :: ops => (s.perform op).1 :: answers (s.perform op).2 ops

theorem getElem?_answers (s : Store) (ops : List Operation) (i : Nat) :
    (s.answers ops)[i]? = ops[i]?.map fun op => ((s.after (ops.take i)).perform op).1 := by
  induction ops generalizing s i with
  | nil => rfl
  | cons op ops ih =>
    cases i with
    | zero => rfl
    | succ i =>
      rw [answers, List.getElem?_cons_succ, ih, List.getElem?_cons_succ]
      rfl

theorem length_answers (s : Store) (ops : List Operation) : (s.answers ops).length = ops.length := by
  induction ops generalizing s with
  | nil => rfl
  | cons op ops ih => rw [answers, List.length_cons, ih, List.length_cons]

theorem after_take_succ (s : Store) {ops : List Operation} {i : Nat} {op : Operation} (here : ops[i]? = some op) :
    s.after (ops.take (i + 1)) = ((s.after (ops.take i)).perform op).2 := by
  rw [List.take_add_one, here, after, List.foldl_append]
  rfl

end Store

/-- The artifacts that are written by some operations. -/
def writtenBy (ops : List Operation) : List Datum :=
  ops.filterMap fun
    | .write a => some a
    | .read _ => none

theorem mem_writtenBy {ops : List Operation} {a : Datum} : a ∈ writtenBy ops ↔ .write a ∈ ops := by
  rw [writtenBy, List.mem_filterMap]
  constructor
  · rintro ⟨op, mem, is⟩
    cases op with
    | write a' => exact Option.some.inj is ▸ mem
    | read id => cases is
  · exact fun mem => ⟨_, mem, rfl⟩

theorem writtenBy_cons (op : Operation) (ops : List Operation) : writtenBy (op :: ops) = writtenBy [op] ++ writtenBy ops :=
  List.filterMap_append (l := [op])

/-- A store holds, under each identity, one of the artifacts with that identity that were written, if
there are any. -/
def Holds (written : List Datum) (s : Store) : Prop :=
  ∀ id, s.held id = none ∧ (∀ a ∈ written, identity a ≠ .ok id) ∨
    ∃ a ∈ written, identity a = .ok id ∧ ∃ v, s.form a = .ok v ∧ s.held id = some v

variable {written : List Datum} {s : Store}

/-- An operation keeps what was written before, but for an artifact of the same identity. -/
theorem Holds.perform (holds : Holds written s) (op : Operation) : Holds (written ++ writtenBy [op]) (s.perform op).2 := by
  cases op with
  | read id =>
    change Holds (written ++ []) s
    rwa [List.append_nil]
  | write a =>
    change Holds (written ++ [a]) _
    intro id
    -- What stands under another identity is none of the artifact's concern.
    have aside (apart : identity a ≠ .ok id) : s.held id = none ∧ (∀ a' ∈ written ++ [a], identity a' ≠ .ok id) ∨
        ∃ a' ∈ written ++ [a], identity a' = .ok id ∧ ∃ v, s.form a' = .ok v ∧ s.held id = some v := by
      rcases holds id with ⟨none', others⟩ | ⟨a', mem, rest⟩
      · refine .inl ⟨none', fun a' mem => ?_⟩
        rcases List.mem_append.mp mem with mem | mem
        · exact others a' mem
        · exact List.mem_singleton.mp mem ▸ apart
      · exact .inr ⟨a', List.mem_append_left _ mem, rest⟩
    cases named : identity a with
    | error f =>
      rw [Store.perform, Store.write_of_error named]
      exact aside (by rw [named]; nofun)
    | ok id₀ =>
      obtain ⟨v, form, wrote⟩ := Store.write_of_ok named s
      rw [Store.perform, wrote]
      dsimp only
      rw [Store.held_put, Store.form_put]
      by_cases same : id₀ = id
      · rw [if_pos same]
        exact .inr ⟨a, List.mem_append_right _ (List.mem_singleton_self a), same ▸ named, v, form, rfl⟩
      · rw [if_neg same]
        exact aside fun is => same (Except.ok.inj (named.symm.trans is))

/-- Whatever is written and read, a store holds what was written. -/
theorem Holds.after (holds : Holds written s) (ops : List Operation) : Holds (written ++ writtenBy ops) (s.after ops) := by
  induction ops generalizing written s with
  | nil =>
    change Holds (written ++ []) s
    rwa [List.append_nil]
  | cons op ops ih =>
    rw [writtenBy_cons, ← List.append_assoc]
    exact ih (holds.perform op)

/-- A store in which there is nothing. -/
def IsEmpty (s : Store) : Prop := s = .memory [] ∨ s = .keyed []

theorem IsEmpty.holds (empty : IsEmpty s) : Holds [] s := by
  rcases empty with rfl | rfl <;> exact fun id => .inl ⟨rfl, nofun⟩

/-! ### Answers -/

/-- Are two answers the same, but for the order of entries and the bits of what is not a number in what
is found? -/
inductive Answer.Same : Answer → Answer → Prop
  | wrote (result : Except Fault String) : Same (.wrote result) (.wrote result)
  | missing : Same (.found (.ok none)) (.found (.ok none))
  | artifact {d d' : Datum} (same : d.Same d') : Same (.found (.ok (some d))) (.found (.ok (some d')))

/-- The answer to a write is the identity of the artifact, or why it has none. -/
theorem answer_write {ops : List Operation} {i : Nat} {a : Datum} (here : ops[i]? = some (.write a)) :
    (s.answers ops)[i]? = some (.wrote (identity a)) := by
  rw [Store.getElem?_answers, here, Option.map_some, Store.perform]
  cases named : identity a with
  | error f => rw [Store.write_of_error named]
  | ok id =>
    obtain ⟨v, _, wrote⟩ := Store.write_of_ok named (s.after (ops.take i))
    rw [wrote]

/-- A write that fails leaves the store as it is. -/
theorem after_write_error {ops : List Operation} {i : Nat} {a : Datum} {f : Fault} (here : ops[i]? = some (.write a))
    (failed : (s.answers ops)[i]? = some (.wrote (.error f))) : s.after (ops.take (i + 1)) = s.after (ops.take i) := by
  have named : identity a = .error f := Answer.wrote.inj (Option.some.inj ((answer_write here).symm.trans failed))
  rw [Store.after_take_succ s here, Store.perform, Store.write_of_error named]

/-- Have no two texts of the artifacts that are written one digest? -/
def NoCollision (ops : List Operation) : Prop :=
  ∀ a a' t t', .write a ∈ ops → .write a' ∈ ops → canonical a = .ok t → canonical a' = .ok t' →
    Sha256.digest (Bytes.ofString t) = Sha256.digest (Bytes.ofString t') → t = t'

variable {ops : List Operation}

/-- Artifacts of one identity have the same plain forms. -/
theorem sorted_eq_of_identity (distinct : NoCollision ops) {a a' p p' : Datum} {id : String} (mem : .write a ∈ ops) (mem' : .write a' ∈ ops)
    (named : identity a = .ok id) (named' : identity a' = .ok id) (made : plain a = .ok p) (made' : plain a' = .ok p') :
    sorted p = sorted p' := by
  obtain ⟨t, canonical, encoded⟩ := identity_eq_ok.mp named
  obtain ⟨t', canonical', encoded'⟩ := identity_eq_ok.mp named'
  have digest := Base64Url.encode_injective (encoded.trans encoded'.symm)
  obtain rfl := distinct a a' t t' mem mem' canonical canonical' digest
  exact sorted_eq_of_canonical canonical canonical' made made'

section Reading

variable (mappings : ∀ a, .write a ∈ ops → ∃ es, a = .mapping es) (empty : IsEmpty s)
include mappings empty

/-- The answer to a read is what has been written, or nothing if nothing has been. -/
theorem answer_read {i : Nat} {id : String} (here : ops[i]? = some (.read id)) :
    (s.answers ops)[i]? = some (.found (.ok none)) ∧ (∀ a ∈ writtenBy (ops.take i), identity a ≠ .ok id) ∨
      ∃ a ∈ writtenBy (ops.take i), identity a = .ok id ∧ ∃ p d, plain a = .ok p ∧
        (s.answers ops)[i]? = some (.found (.ok (some d))) ∧ sorted d = sorted p := by
  rw [Store.getElem?_answers, here, Option.map_some, Store.perform]
  have holds := empty.holds.after (ops.take i)
  rw [List.nil_append] at holds
  rcases holds id with ⟨none', others⟩ | ⟨a, mem, named, v, form, found⟩
  · exact .inl ⟨by rw [Store.read?_of_none none'], others⟩
  · obtain ⟨es, rfl⟩ := mappings a (List.mem_of_mem_take (mem_writtenBy.mp mem))
    obtain ⟨text, canonical, _⟩ := identity_eq_ok.mp named
    obtain ⟨p, made, _⟩ := canonical_eq_ok.mp canonical
    obtain ⟨d, read, sorted⟩ := Store.read?_of_form canonical made form found
    exact .inr ⟨_, mem, named, p, d, made, by rw [read], sorted⟩

/-- What is read under the identity of an artifact, after it was written, is its plain form. -/
theorem answer_read_of_written (distinct : NoCollision ops) {i j : Nat} {a : Datum} {id : String} (earlier : i < j)
    (wrote : ops[i]? = some (.write a)) (answer : (s.answers ops)[i]? = some (.wrote (.ok id)))
    (read : ops[j]? = some (.read id)) :
    ∃ p d, plain a = .ok p ∧ (s.answers ops)[j]? = some (.found (.ok (some d))) ∧ p.Same d := by
  have named : identity a = .ok id := Answer.wrote.inj (Option.some.inj ((answer_write wrote).symm.trans answer))
  obtain ⟨text, canonical, _⟩ := identity_eq_ok.mp named
  obtain ⟨p, made, _⟩ := canonical_eq_ok.mp canonical
  have before : a ∈ writtenBy (ops.take j) := by
    rw [mem_writtenBy, List.mem_iff_getElem?]
    exact ⟨i, by rw [List.getElem?_take_of_lt earlier, wrote]⟩
  rcases answer_read mappings empty read with ⟨_, others⟩ | ⟨a', mem, named', p', d, made', found, sorted⟩
  · exact absurd named (others a before)
  · have same := sorted_eq_of_identity distinct (List.mem_of_getElem? wrote)
      (List.mem_of_mem_take (mem_writtenBy.mp mem)) named named' made made'
    exact ⟨p, d, made, found, same_of_sorted (same.trans sorted.symm)⟩

end Reading

/-- Two empty stores give the same answers. -/
theorem answers_same (mappings : ∀ a, .write a ∈ ops → ∃ es, a = .mapping es) (distinct : NoCollision ops) {s s' : Store}
    (empty : IsEmpty s) (empty' : IsEmpty s') : List.Forall₂ Answer.Same (s.answers ops) (s'.answers ops) := by
  refine List.forall₂_iff_get.mpr ⟨by rw [Store.length_answers, Store.length_answers], fun i inside inside' => ?_⟩
  rw [Store.length_answers] at inside
  have here : ops[i]? = some ops[i] := List.getElem?_eq_getElem inside
  have is {answer answer' : Answer} (one : (s.answers ops)[i]? = some answer) (other : (s'.answers ops)[i]? = some answer')
      (same : answer.Same answer') : ((s.answers ops).get ⟨i, by rwa [Store.length_answers]⟩).Same ((s'.answers ops).get ⟨i, inside'⟩) := by
    rw [List.get_eq_getElem, List.get_eq_getElem, (List.getElem_eq_iff _).mpr one, (List.getElem_eq_iff _).mpr other]
    exact same
  cases op : ops[i] with
  | write a =>
    rw [op] at here
    exact is (answer_write here) (answer_write here) (.wrote _)
  | read id =>
    rw [op] at here
    rcases answer_read mappings empty here with ⟨none', others⟩ | ⟨a, mem, named, p, d, made, found, sorted⟩
    · rcases answer_read mappings empty' here with ⟨none'', _⟩ | ⟨a', mem', named', _⟩
      · exact is none' none'' .missing
      · exact absurd named' (others a' mem')
    · rcases answer_read mappings empty' here with ⟨_, others⟩ | ⟨a', mem', named', p', d', made', found', sorted'⟩
      · exact absurd named (others a mem)
      · have same := sorted_eq_of_identity distinct (List.mem_of_mem_take (mem_writtenBy.mp mem))
          (List.mem_of_mem_take (mem_writtenBy.mp mem')) named named' made made'
        exact is found found' (.artifact (same_of_sorted (sorted.trans (same.trans sorted'.symm))))

/-- Whatever artifacts are written and read, in two empty stores of the two kinds, the stores give the
same answers: the same identities and faults, and the same artifacts or nothing. Under the identity of an
artifact that was written its plain form is read. A write that fails leaves the stores as they are. -/
theorem stores_interchangeable (ops : List Operation) (mappings : ∀ a, .write a ∈ ops → ∃ es, a = .mapping es)
    (distinct : NoCollision ops) :
    List.Forall₂ Answer.Same ((Store.memory []).answers ops) ((Store.keyed []).answers ops) ∧
      ∀ s ∈ [Store.memory [], Store.keyed []],
        (∀ (i j : Nat) (a : Datum) (id : String), i < j → ops[i]? = some (.write a) →
          (s.answers ops)[i]? = some (.wrote (.ok id)) → ops[j]? = some (.read id) →
          ∃ p d, plain a = .ok p ∧ (s.answers ops)[j]? = some (.found (.ok (some d))) ∧ p.Same d) ∧
        ∀ (i : Nat) (a : Datum) (f : Fault), ops[i]? = some (.write a) → (s.answers ops)[i]? = some (.wrote (.error f)) →
          s.after (ops.take (i + 1)) = s.after (ops.take i) := by
  refine ⟨answers_same mappings distinct (.inl rfl) (.inr rfl), fun s mem => ⟨?_, fun i a f => after_write_error⟩⟩
  have empty : IsEmpty s := by simpa [IsEmpty] using mem
  exact fun i j a id earlier wrote answer read => answer_read_of_written mappings empty distinct earlier wrote answer read

/-- An artifact with what JSON has no form for as it is. -/
def mixed : Datum := .mapping [(.int 1, .tuple [.bytes "é".toUTF8, .null, .float .invalid])]

/-- The same artifact in the form that JSON has for it. -/
def settled : Datum := .mapping [(.text "1", .list [.text "é", .null, .float .quietNaN])]

def mixedText : String := "\x7b\"1\":[\"\\u00e9\",null,NaN]\x7d"

/-- An artifact with bytes that are no text. -/
def broken : Datum := .mapping [(.text "b", .bytes ⟨#[0xff]⟩)]

def session (id : String) : List Operation :=
  [.write mixed, .write (.mapping []), .write broken, .write settled, .read id]

theorem stores_interchangeable_mixed : ∃ id, identity mixed = .ok id ∧
    (∀ a, .write a ∈ session id → ∃ es, a = .mapping es) ∧ NoCollision (session id) ∧
    List.Forall₂ Answer.Same ((Store.memory []).answers (session id)) ((Store.keyed []).answers (session id)) ∧
    ∃ p d, plain mixed = .ok p ∧ ((Store.keyed []).answers (session id))[4]? = some (.found (.ok (some d))) ∧ p.Same d := by
  have text {a : Datum} {s : String} (h : (canonical a).toOption = some s) : canonical a = .ok s := by
    cases found : canonical a with
    | error f => rw [found] at h; cases h
    | ok t => rw [found] at h; rw [Option.some.inj h]
  have first := text (a := mixed) (s := mixedText) (by decide +kernel)
  have second := text (a := settled) (s := mixedText) (by decide +kernel)
  have third := text (a := .mapping []) (s := "\x7b\x7d") (by decide +kernel)
  have fourth : (canonical broken).toOption = none := by decide
  have differ : Sha256.digest (Bytes.ofString mixedText) ≠ Sha256.digest (Bytes.ofString "\x7b\x7d") := by decide +kernel
  obtain ⟨id, named⟩ : ∃ id, identity mixed = .ok id := ⟨_, identity_eq_ok.mpr ⟨_, first, rfl⟩⟩
  have written {a : Datum} (mem : .write a ∈ session id) : a = mixed ∨ a = .mapping [] ∨ a = broken ∨ a = settled := by
    simpa [session] using mem
  have mappings : ∀ a, .write a ∈ session id → ∃ es, a = .mapping es := by
    intro a mem
    rcases written mem with rfl | rfl | rfl | rfl <;> exact ⟨_, rfl⟩
  have texts {a : Datum} {t : String} (mem : .write a ∈ session id) (made : canonical a = .ok t) :
      t = mixedText ∨ t = "\x7b\x7d" := by
    rcases written mem with rfl | rfl | rfl | rfl
    · exact .inl (Except.ok.inj (made.symm.trans first))
    · exact .inr (Except.ok.inj (made.symm.trans third))
    · rw [made] at fourth
      cases fourth
    · exact .inl (Except.ok.inj (made.symm.trans second))
  have distinct : NoCollision (session id) := by
    intro a a' t t' mem mem' made made' digest
    rcases texts mem made with rfl | rfl <;> rcases texts mem' made' with rfl | rfl
    · rfl
    · exact absurd digest differ
    · exact absurd digest.symm differ
    · rfl
  obtain ⟨same, each⟩ := stores_interchangeable (session id) mappings distinct
  have wrote := (answer_write (s := .keyed []) (show (session id)[0]? = some (.write mixed) from rfl)).trans (by rw [named])
  exact ⟨id, named, mappings, distinct, same, (each (.keyed []) (by simp)).1 0 4 mixed id (by decide) rfl wrote rfl⟩

end Artifact

end LuaCapsule
