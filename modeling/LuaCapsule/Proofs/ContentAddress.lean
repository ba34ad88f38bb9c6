import LuaCapsule.Proofs.StoredArtifacts

/-! Content addresses tell content. Two artifacts have one canonical text exactly when they are the same
once bytes are read as texts and tuples as lists, whatever the order of the entries of mappings in them.
An artifact has such a text unless it holds an integer that is too long to be written, and two artifacts
have one address exactly when they have the same content or their texts collide. -/

namespace LuaCapsule

/-! ### Content -/

namespace Datum

mutual

/-- A value with bytes read as texts and tuples read as lists. -/
def reading : Datum → Datum
  | .bytes b => .text (b.toText?.getD "")
  | .list ds => .list (readings ds)
  | .tuple ds => .list (readings ds)
  | .mapping es => .mapping (entryReadings es)
  | d => d

def readings : List Datum → List Datum
  | [] => []
  | d :: ds => reading d :: readings ds

def entryReadings : List (Datum × Datum) → List (Datum × Datum)
  | [] => []
  | (k, d) :: es => (k, reading d) :: entryReadings es

end

mutual

/-- Is a value made of scalars, bytes that are texts, lists, tuples and mappings with texts as keys? -/
def IsContent : Datum → Prop
  | .bytes b => ∃ s, b.toText? = some s
  | .list ds => AreContents ds
  | .tuple ds => AreContents ds
  | .mapping es => AreMembers es ∧ Distinct es
  | .host _ => False
  | .live _ => False
  | _ => True

def AreContents : List Datum → Prop
  | [] => True
  | d :: ds => IsContent d ∧ AreContents ds

def AreMembers : List (Datum × Datum) → Prop
  | [] => True
  | (k, d) :: es => (∃ s, k = .text s) ∧ IsContent d ∧ AreMembers es

end

/-- Have two values the same content? -/
def Alike (a b : Datum) : Prop := (reading a).Same (reading b)

instance {es : List (Datum × Datum)} : Decidable (Distinct es) := inferInstanceAs (Decidable (List.Pairwise _ es))

theorem entryReadings_eq_map (es : List (Datum × Datum)) : entryReadings es = es.map fun e => (e.1, reading e.2) := by
  induction es with
  | nil => rfl
  | cons e es ih => exact congrArg (_ :: ·) ih

theorem distinct_entryReadings {es : List (Datum × Datum)} (distinct : Distinct es) : Distinct (entryReadings es) := by
  rw [entryReadings_eq_map]
  exact List.pairwise_map.mpr distinct

/-! ### Long integers -/

theorem entriesHoldLong_eq_any (es : List (Datum × Datum)) :
    entriesHoldLong es = es.any fun e => holdsLong e.1 || holdsLong e.2 := by
  induction es with
  | nil => rfl
  | cons e es ih =>
    obtain ⟨k, d⟩ := e
    rw [entriesHoldLong, List.any_cons, ih]

mutual

/-- What is the same holds long integers or does not. -/
theorem Same.holdsLong_eq : ∀ {d d' : Datum}, Same d d' → holdsLong d = holdsLong d'
  | .float _, _, ⟨_, is, _⟩ => by rw [is]; rfl
  | .list _, _, ⟨_, is, each⟩ => by rw [is]; exact anyHoldsLong_of_same each
  | .mapping es, _, ⟨fs, es', is, each, perm⟩ => by
    rw [is]
    change entriesHoldLong es = entriesHoldLong es'
    rw [entriesHoldLong_of_same each, entriesHoldLong_eq_any, entriesHoldLong_eq_any, perm.any_eq]
  | .null, _, is => by rw [show _ = _ from is]
  | .bool _, _, is => by rw [show _ = _ from is]
  | .int _, _, is => by rw [show _ = _ from is]
  | .text _, _, is => by rw [show _ = _ from is]
  | .bytes _, _, is => by rw [show _ = _ from is]
  | .tuple _, _, is => by rw [show _ = _ from is]
  | .host _, _, is => by rw [show _ = _ from is]
  | .live _, _, is => by rw [show _ = _ from is]

theorem anyHoldsLong_of_same : ∀ {ds ds' : List Datum}, SameAll ds ds' → anyHoldsLong ds = anyHoldsLong ds'
  | [], _, is => by rw [show _ = _ from is]
  | _ :: _, _, ⟨_, _, is, first, others⟩ => by
    rw [is, anyHoldsLong, anyHoldsLong, first.holdsLong_eq, anyHoldsLong_of_same others]

theorem entriesHoldLong_of_same : ∀ {es fs : List (Datum × Datum)}, SameEntries es fs →
    entriesHoldLong es = entriesHoldLong fs
  | [], _, is => by rw [show _ = _ from is]
  | (_, _) :: _, _, ⟨_, _, is, first, others⟩ => by
    rw [is, entriesHoldLong, entriesHoldLong, first.holdsLong_eq, entriesHoldLong_of_same others]

end

mutual

/-- Reading bytes and tuples otherwise changes no integer. -/
theorem holdsLong_reading : ∀ d : Datum, holdsLong (reading d) = holdsLong d
  | .list ds => anyHoldsLong_readings ds
  | .tuple ds => anyHoldsLong_readings ds
  | .mapping es => entriesHoldLong_readings es
  | .bytes _ => rfl
  | .null => rfl
  | .bool _ => rfl
  | .int _ => rfl
  | .float _ => rfl
  | .text _ => rfl
  | .host _ => rfl
  | .live _ => rfl

theorem anyHoldsLong_readings : ∀ ds : List Datum, anyHoldsLong (readings ds) = anyHoldsLong ds
  | [] => rfl
  | d :: ds => by rw [readings, anyHoldsLong, anyHoldsLong, holdsLong_reading d, anyHoldsLong_readings ds]

theorem entriesHoldLong_readings : ∀ es : List (Datum × Datum), entriesHoldLong (entryReadings es) = entriesHoldLong es
  | [] => rfl
  | (k, d) :: es => by
    rw [entryReadings, entriesHoldLong, entriesHoldLong, holdsLong_reading d, entriesHoldLong_readings es]

end

end Datum

namespace Json

open Datum

/-! ### One text for what is the same -/

variable {ascii : Bool}

/-- Members are written one by one. -/
theorem writeMembers?_eq_some {es : List (Datum × Datum)} {ms : List (String × String)} : writeMembers? ascii es = some ms ↔
    List.Forall₂ (fun e m => e.1 = .text m.1 ∧ write? ascii e.2 = some m.2) es ms := by
  induction es generalizing ms with
  | nil => simp [writeMembers?, eq_comm]
  | cons e es ih =>
    obtain ⟨k, d⟩ := e
    rw [List.forall₂_cons_left_iff]
    constructor
    · intro written
      cases k with
      | text k =>
        rw [writeMembers?] at written
        split at written
        next t ts first others =>
          obtain rfl := Option.some.inj written
          exact ⟨(k, t), ts, ⟨rfl, first⟩, ih.mp others, rfl⟩
        next => cases written
      | _ => cases written
    · rintro ⟨⟨k', t⟩, ts, ⟨rfl, first⟩, others, rfl⟩
      rw [writeMembers?]
      dsimp only at first
      rw [first, ih.mpr others]

/-- The order in which members come does not matter. -/
theorem object_perm {ms ms' : List (String × String)} (perm : ms.Perm ms') (nodup : (ms.map Prod.fst).Nodup) :
    object ascii ms = object ascii ms' := by
  have sorted (l : List (String × String)) : (l.mergeSort fun a b => textLe a.1 b.1).Pairwise fun a b => a.1 ≤ b.1 :=
    (pairwise_textLe Prod.fst l).imp textLe_iff.mp
  have one : (ms.mergeSort fun a b => textLe a.1 b.1).Perm (ms'.mergeSort fun a b => textLe a.1 b.1) :=
    (List.mergeSort_perm ..).trans (perm.trans (List.mergeSort_perm ..).symm)
  rw [object, object, one.eq_of_pairwise (fun a b mem mem' le le' => ?_) (sorted ms) (sorted ms')]
  have inside : a ∈ ms := List.mem_mergeSort.mp mem
  have inside' : b ∈ ms := perm.mem_iff.mpr (List.mem_mergeSort.mp mem')
  exact List.inj_on_of_nodup_map nodup inside inside' (String.le_antisymm le le')

theorem render_nan {l : Digits.Layout} {x y : Binary64} (nan : x.isNaN = true) (nan' : y.isNaN = true) :
    l.render x = l.render y := by
  rw [Digits.Layout.render, Digits.Layout.render, if_pos nan, if_pos nan']

/-- Keys of what can be read back are their texts. -/
theorem keys_of_plainMembers {n : Nat} {es : List (Datum × Datum)} (plain : PlainMembers n es)
    {ms : List (String × String)} (written : writeMembers? ascii es = some ms) :
    ms.map Prod.fst = es.map fun e => keyText e.1 := by
  have each := writeMembers?_eq_some.mp written
  clear written
  induction each with
  | nil => rfl
  | @cons e m es ms first _ ih =>
    obtain ⟨k, d⟩ := e
    obtain ⟨key, value, others⟩ := plain
    rw [List.map_cons, List.map_cons, ih others, first.1, keyText]

mutual

/-- What is the same has one text. -/
theorem write?_of_same : ∀ {n : Nat} {d d' : Datum} {s : String}, Plain n d → Same d d' → write? ascii d = some s →
    write? ascii d' = some s
  | n + 1, .list ds, _, s, plain, ⟨ds', is, each⟩, written => by
    rw [Plain] at plain
    rw [write?, Option.map_eq_some_iff] at written
    obtain ⟨ts, written, rfl⟩ := written
    rw [is, write?, writeAll?_of_same plain each written]
    rfl
  | n + 1, .mapping es, _, s, plain, ⟨fs, es', is, each, perm⟩, written => by
    rw [Plain] at plain
    rw [write?, Option.map_eq_some_iff] at written
    obtain ⟨ms, written, rfl⟩ := written
    have nodup : (ms.map Prod.fst).Nodup := keys_of_plainMembers plain.1 written ▸ plain.2
    have others := writeMembers?_eq_some.mp (writeMembers?_of_same plain.1 each written)
    obtain ⟨ms', others, perm⟩ := List.perm_comp_forall₂ perm.symm others
    rw [is, write?, writeMembers?_eq_some.mpr others, Option.map_some, object_perm perm.symm nodup]
  | _, .float x, _, _, _, ⟨y, is, same⟩, written => by
    rw [is]
    rcases same with rfl | ⟨nan, nan'⟩
    · exact written
    · rw [write?] at written ⊢
      rw [← written, render_nan nan nan']
  | 0, .list _, _, _, plain, _, _ => by simp [Plain] at plain
  | 0, .mapping _, _, _, plain, _, _ => by simp [Plain] at plain
  | _, .null, _, _, _, is, written => by rwa [show _ = _ from is]
  | _, .bool _, _, _, _, is, written => by rwa [show _ = _ from is]
  | _, .int _, _, _, _, is, written => by rwa [show _ = _ from is]
  | _, .text _, _, _, _, is, written => by rwa [show _ = _ from is]
  | _, .bytes _, _, _, plain, _, _ => by simp [Plain] at plain
  | _, .tuple _, _, _, plain, _, _ => by simp [Plain] at plain
  | _, .host _, _, _, plain, _, _ => by simp [Plain] at plain
  | _, .live _, _, _, plain, _, _ => by simp [Plain] at plain

theorem writeAll?_of_same : ∀ {n : Nat} {ds ds' : List Datum} {ts : List String}, PlainAll n ds → SameAll ds ds' →
    writeAll? ascii ds = some ts → writeAll? ascii ds' = some ts
  | _, [], _, _, _, is, written => by rwa [show _ = _ from is]
  | n, d :: ds, _, ts, plain, ⟨_, _, is, same, each⟩, written => by
    rw [PlainAll] at plain
    rw [writeAll?] at written
    split at written
    next t ts' first others =>
      rw [is, writeAll?, write?_of_same plain.1 same first, writeAll?_of_same plain.2 each others]
      exact written
    next => cases written

theorem writeMembers?_of_same : ∀ {n : Nat} {es fs : List (Datum × Datum)} {ms : List (String × String)}, PlainMembers n es →
    SameEntries es fs → writeMembers? ascii es = some ms → writeMembers? ascii fs = some ms
  | _, [], _, _, _, is, written => by rwa [show _ = _ from is]
  | n, (k, d) :: es, _, ms, plain, ⟨_, _, is, same, each⟩, written => by
    rw [PlainMembers] at plain
    rw [plain.1, writeMembers?] at written
    split at written
    next t ms' first others =>
      rw [is, plain.1, writeMembers?, write?_of_same plain.2.1 same first, writeMembers?_of_same plain.2.2 each others]
      exact written
    next => cases written

end

end Json

namespace Artifact

open Datum Json

/-! ### Plain forms of content -/

mutual

/-- The plain form of content is its reading. -/
theorem plain_of_isContent : ∀ {a : Datum}, IsContent a → plain a = .ok (reading a)
  | .bytes b, ⟨s, is⟩ => by rw [plain, reading, is]; rfl
  | .list ds, content => by rw [plain, plainItems_of_areContents content]; rfl
  | .tuple ds, content => by rw [plain, plainItems_of_areContents content]; rfl
  | .mapping es, content => by
    rw [plain, plainEntries_of_areMembers content.1, reading]
    exact congrArg _ (ofPairs_of_distinct (distinct_entryReadings content.2))
  | .null, _ => rfl
  | .bool _, _ => rfl
  | .int _, _ => rfl
  | .float _, _ => rfl
  | .text _, _ => rfl

theorem plainItems_of_areContents : ∀ {ds : List Datum}, AreContents ds → plainItems ds = .ok (readings ds)
  | [], _ => rfl
  | d :: ds, ⟨first, others⟩ => by
    rw [plainItems, plain_of_isContent first, plainItems_of_areContents others]
    rfl

theorem plainEntries_of_areMembers : ∀ {es : List (Datum × Datum)}, AreMembers es → plainEntries es = .ok (entryReadings es)
  | [], _ => rfl
  | (_, d) :: es, ⟨⟨s, is⟩, first, others⟩ => by
    rw [is, plainEntries, plain_of_isContent first, plainEntries_of_areMembers others]
    rfl

end

/-- The first of some refusals that all are for one cause. -/
theorem findSome?_refusals {l : List (String × Option Fault)} {f : Fault} (one : ∀ r ∈ l, r.2 = none ∨ r.2 = some f) :
    l.findSome? (·.2) = if l.any (·.2.isSome) then some f else none := by
  induction l with
  | nil => rfl
  | cons r l ih =>
    obtain ⟨first, others⟩ := List.forall_mem_cons.mp one
    rw [List.findSome?_cons, List.any_cons, ih others]
    rcases first with first | first <;> rw [first] <;> rfl

/-- Why an integer, or what it is in, cannot be written. -/
def length? (isTooLong : Bool) : Option Fault := if isTooLong then some .tooLong else none

mutual

/-- Content is refused only for an integer that is too long. -/
theorem refusal?_of_isContent : ∀ {a : Datum}, IsContent a → refusal? (reading a) = length? (holdsLong a)
  | .bytes b, _ => rfl
  | .list ds, content => anyRefusal?_of_areContents content
  | .tuple ds, content => anyRefusal?_of_areContents content
  | .mapping es, content => by
    have each := refusals_of_areMembers content.1
    rw [reading, refusal?, findSome?_refusals (f := .tooLong), holdsLong, length?,
      (List.mergeSort_perm ..).any_eq, each.2]
    exact fun r mem => each.1 r (List.mem_mergeSort.mp mem)
  | .null, _ => rfl
  | .bool _, _ => rfl
  | .int _, _ => rfl
  | .float _, _ => rfl
  | .text _, _ => rfl

theorem anyRefusal?_of_areContents : ∀ {ds : List Datum}, AreContents ds → anyRefusal? (readings ds) = length? (anyHoldsLong ds)
  | [], _ => rfl
  | d :: ds, ⟨first, others⟩ => by
    rw [readings, anyRefusal?, anyHoldsLong, refusal?_of_isContent first, anyRefusal?_of_areContents others]
    cases holdsLong d <;> rfl

theorem refusals_of_areMembers : ∀ {es : List (Datum × Datum)}, AreMembers es →
    (∀ r ∈ refusals (entryReadings es), r.2 = none ∨ r.2 = some .tooLong) ∧
      (refusals (entryReadings es)).any (·.2.isSome) = entriesHoldLong es
  | [], _ => ⟨nofun, rfl⟩
  | (_, d) :: es, ⟨⟨s, is⟩, first, others⟩ => by
    obtain ⟨each, any⟩ := refusals_of_areMembers others
    rw [is, entryReadings, refusals, entriesHoldLong, List.any_cons, any, refusal?_of_isContent first]
    refine ⟨List.forall_mem_cons.mpr ⟨?_, each⟩, ?_⟩ <;> cases holdsLong d <;> simp [length?, holdsLong]

end

variable {a b : Datum}

/-- Content has a canonical text, and all that is the same has that text, unless an integer is too long. -/
theorem canonical_of_isContent (content : IsContent a) : if holdsLong a then canonical a = .error .tooLong else
    ∃ n s, Plain n (reading a) ∧ write? true (reading a) = some s ∧ canonical a = .ok s := by
  have made := plain_of_isContent content
  have refused := refusal?_of_isContent content
  cases long : holdsLong a with
  | true =>
    rw [long] at refused
    change canonical a = _
    rw [canonical, made]
    change written (reading a) = _
    rw [written, refused]
    rfl
  | false =>
    rw [long] at refused
    change ∃ n s, _
    obtain ⟨n, plain⟩ := exists_plain made refused
    obtain ⟨s, written, _⟩ := read_write true ⟨n⟩ plain
    exact ⟨n, s, plain, written, canonical_eq_ok.mpr ⟨_, made, refused, written⟩⟩

theorem exists_canonical (content : IsContent a) : (∃ s, canonical a = .ok s) ↔ holdsLong a = false := by
  have spec := canonical_of_isContent content
  cases long : holdsLong a with
  | true =>
    rw [long, if_pos rfl] at spec
    rw [spec]
    exact iff_of_false nofun nofun
  | false =>
    rw [long, if_neg Bool.false_ne_true] at spec
    obtain ⟨n, s, _, _, made⟩ := spec
    exact iff_of_true ⟨s, made⟩ rfl

/-- The same content has one canonical text, or none for the same cause. -/
theorem canonical_eq_of_alike (content : IsContent a) (content' : IsContent b) (alike : Alike a b) : canonical a = canonical b := by
  have same : holdsLong a = holdsLong b := by
    rw [← holdsLong_reading a, ← holdsLong_reading b, Same.holdsLong_eq alike]
  have spec := canonical_of_isContent content
  have spec' := canonical_of_isContent content'
  rw [← same] at spec'
  cases long : holdsLong a with
  | true =>
    rw [long, if_pos rfl] at spec spec'
    rw [spec, spec']
  | false =>
    rw [long, if_neg Bool.false_ne_true] at spec spec'
    obtain ⟨n, s, plain, written, made⟩ := spec
    obtain ⟨_, s', _, written', made'⟩ := spec'
    obtain rfl := Option.some.inj ((write?_of_same plain alike written).symm.trans written')
    rw [made, made']

/-- One canonical text has one content. -/
theorem alike_of_canonical (content : IsContent a) (content' : IsContent b) {s : String} (made : canonical a = .ok s)
    (made' : canonical b = .ok s) : Alike a b :=
  same_of_sorted (sorted_eq_of_canonical made made' (plain_of_isContent content) (plain_of_isContent content'))

/-- Are the canonical texts of two artifacts different, and their digests one? -/
def Collide (a b : Datum) : Prop :=
  ∃ s t, canonical a = .ok s ∧ canonical b = .ok t ∧ s ≠ t ∧ Sha256.digest (Bytes.ofString s) = Sha256.digest (Bytes.ofString t)

/-- Content has a canonical text, and so an address, unless an integer in it is too long. Two texts, or two
causes for having none, are one if the contents are the same, and texts only then. Addresses are one
if the contents are the same, and otherwise only if the texts collide. -/
theorem canonical_tells_content (content : IsContent a) (content' : IsContent b) :
    ((∃ s, canonical a = .ok s) ↔ holdsLong a = false) ∧
      (Alike a b → canonical a = canonical b ∧ identity a = identity b) ∧
      (∀ s, canonical a = .ok s → (canonical b = .ok s ↔ Alike a b)) ∧
      ∀ id, identity a = .ok id → (identity b = .ok id ↔ Alike a b ∨ Collide a b) := by
  have one (alike : Alike a b) := canonical_eq_of_alike content content' alike
  refine ⟨exists_canonical content, fun alike => ⟨one alike, by rw [identity, identity, one alike]⟩, fun s made => ?_,
    fun id named => ?_⟩
  · exact ⟨alike_of_canonical content content' made, fun alike => one alike ▸ made⟩
  · obtain ⟨s, made, encoded⟩ := identity_eq_ok.mp named
    rw [identity_eq_ok]
    constructor
    · rintro ⟨t, made', encoded'⟩
      have digest := Base64Url.encode_injective (encoded.trans encoded'.symm)
      by_cases same : s = t
      · subst same
        exact .inl (alike_of_canonical content content' made made')
      · exact .inr ⟨s, t, made, made', same, digest⟩
    · rintro (alike | ⟨s', t, made', made'', _, digest⟩)
      · exact ⟨s, one alike ▸ made, encoded⟩
      · cases made.symm.trans made'
        exact ⟨t, made'', by rw [← digest, encoded]⟩

/-- An artifact with bytes, a tuple and mappings whose entries are in no order. -/
def loose : Datum := .mapping [(.text "b", .tuple [.bytes "é".toUTF8, .float .invalid]),
  (.text "a", .mapping [(.text "y", .int 1), (.text "x", .bool true)])]

/-- The same content with entries in order, and another bit pattern that is not a number. -/
def tidy : Datum := .mapping [(.text "a", .mapping [(.text "x", .bool true), (.text "y", .int 1)]),
  (.text "b", .list [.text "é", .float .quietNaN])]

/-- Other content: an integer stands where a truth value stood. -/
def altered : Datum := .mapping [(.text "a", .mapping [(.text "x", .int 1), (.text "y", .int 1)]),
  (.text "b", .list [.text "é", .float .quietNaN])]

theorem canonical_tells_content_loose : IsContent loose ∧ IsContent tidy ∧ IsContent altered ∧
    (∃ s, canonical loose = .ok s ∧ canonical tidy = .ok s ∧ canonical altered ≠ .ok s) ∧
    ∃ id, identity loose = .ok id ∧ identity tidy = .ok id ∧ (identity altered = .ok id → Collide loose altered) := by
  have read : Bytes.toText? "é".toUTF8 = some "é" := Bytes.toText?_ofString "é"
  have content : IsContent loose := by
    simp only [loose, IsContent, AreMembers, AreContents, read, text.injEq, Option.some.injEq, exists_eq', true_and, and_true]
    decide
  have tidied : IsContent tidy := by simp [tidy, IsContent, AreMembers, AreContents]; decide
  have other : IsContent altered := by simp [altered, IsContent, AreMembers, AreContents]; decide
  have alike : Alike loose tidy := by
    simp only [Alike, loose, tidy, reading, readings, entryReadings, read, Option.getD_some]
    refine ⟨_, _, rfl, ⟨_, _, rfl, ⟨_, rfl, _, _, rfl, rfl, _, _, rfl, ⟨_, rfl, .inr ⟨by decide, by decide⟩⟩, rfl⟩,
      _, _, rfl, ⟨_, _, rfl, ⟨_, _, rfl, rfl, _, _, rfl, rfl, rfl⟩, .swap ..⟩, rfl⟩, .swap ..⟩
  have unlike : ¬Alike loose altered := by
    rintro ⟨_, _, is, ⟨_, _, rfl, _, _, _, rfl, ⟨_, inside, rfl, ⟨_, _, rfl, _, _, _, rfl, truth, rfl⟩, inner⟩, rfl⟩, outer⟩
    obtain rfl := Datum.mapping.inj is
    obtain rfl : _ = Datum.bool true := truth
    have kept : (text "x", Datum.bool true) ∈ inside := inner.subset (.tail _ (.head _))
    have found : (text "a", mapping inside) ∈ [(text "a", mapping [(text "x", int 1), (text "y", int 1)]),
      (text "b", list [text "é", float Binary64.quietNaN])] := outer.subset (.tail _ (.head _))
    obtain rfl : inside = _ := by simpa using found
    simp at kept
  obtain ⟨written, one, told, named⟩ := canonical_tells_content content tidied
  obtain ⟨_, _, apart, collided⟩ := canonical_tells_content content other
  obtain ⟨s, made⟩ := written.mpr (by decide +kernel)
  have id := canonical_eq_ok.mp made
  refine ⟨content, tidied, other, ⟨s, made, (told s made).mpr alike, fun same => unlike ((apart s made).mp same)⟩, ?_⟩
  have is : identity loose = .ok (Base64Url.encode (Sha256.digest (Bytes.ofString s))) := identity_eq_ok.mpr ⟨s, made, rfl⟩
  exact ⟨_, is, (named _ is).mpr (.inl alike), fun same => ((collided _ is).mp same).resolve_left unlike⟩

end Artifact

end LuaCapsule
