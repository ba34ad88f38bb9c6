import LuaCapsule.Proofs.Encoding
import LuaCapsule.Proofs.Mappings

/-! Structured values as trees. What a passage through an interpreter makes of a value is its clean
form, in which tuples are lists and containers have no null in them; the entries of a mapping may
come in another order. A value in clean form is its own clean form. -/

namespace LuaCapsule

namespace Datum

/-! ### Shapes -/

mutual

/-- How many containers are nested in one another. -/
def depth : Datum → Nat
  | .list ds => depths ds + 1
  | .tuple ds => depths ds + 1
  | .mapping es => fieldDepths es + 1
  | _ => 0

def depths : List Datum → Nat
  | [] => 0
  | d :: ds => max (depth d) (depths ds)

def fieldDepths : List (Datum × Datum) → Nat
  | [] => 0
  | (_, d) :: es => max (depth d) (fieldDepths es)

end

mutual

/-- Is a value made of scalars, objects of the host, lists, tuples and mappings? Integers and
positions in lists have 64 bits, and keys are texts or no keys at all. -/
def IsTree : Datum → Prop
  | .int i => isInt64 i = true
  | .bytes _ => False
  | .list ds => AreTrees ds ∧ isInt64 ds.length = true
  | .tuple ds => AreTrees ds ∧ isInt64 ds.length = true
  | .mapping es => AreFieldTrees es ∧ Distinct es
  | _ => True

def AreTrees : List Datum → Prop
  | [] => True
  | d :: ds => IsTree d ∧ AreTrees ds

def AreFieldTrees : List (Datum × Datum) → Prop
  | [] => True
  | (k, d) :: es => ((∃ s, k = .text s) ∨ (Codec.keyFault? k).isSome) ∧ IsTree d ∧ AreFieldTrees es

end

mutual

/-- Does a value hold, at any depth, an object of the host or what cannot be a key as a key? -/
def holdsForeign : Datum → Bool
  | .host _ => true
  | .live _ => true
  | .list ds => holdForeign ds
  | .tuple ds => holdForeign ds
  | .mapping es => fieldsHoldForeign es
  | _ => false

def holdForeign : List Datum → Bool
  | [] => false
  | d :: ds => holdsForeign d || holdForeign ds

def fieldsHoldForeign : List (Datum × Datum) → Bool
  | [] => false
  | (k, d) :: es => (Codec.keyFault? k).isSome || holdsForeign d || fieldsHoldForeign es

end

mutual

/-- A value with lists for tuples, and without null in containers. -/
def cleaned : Datum → Datum
  | .list ds => .list (cleanedAll ds)
  | .tuple ds => .list (cleanedAll ds)
  | .mapping es => .mapping (cleanedFields es)
  | d => d

def cleanedAll : List Datum → List Datum
  | [] => []
  | d :: ds => if d.isNull then cleanedAll ds else cleaned d :: cleanedAll ds

def cleanedFields : List (Datum × Datum) → List (Datum × Datum)
  | [] => []
  | (k, d) :: es => if d.isNull then cleanedFields es else (k, cleaned d) :: cleanedFields es

end

mutual

/-- Are two values the same but for the order of entries? Numbers and truth values of different
kinds are different. -/
def Agrees : Datum → Datum → Prop
  | .list ds, d' => ∃ ds', d' = .list ds' ∧ Agree ds ds'
  | .tuple ds, d' => ∃ ds', d' = .tuple ds' ∧ Agree ds ds'
  | .mapping es, d' => ∃ fs es', d' = .mapping es' ∧ FieldsAgree es fs ∧ fs.Perm es'
  | d, d' => d' = d

def Agree : List Datum → List Datum → Prop
  | [], ds' => ds' = []
  | d :: ds, ds' => ∃ d' rest, ds' = d' :: rest ∧ Agrees d d' ∧ Agree ds rest

def FieldsAgree : List (Datum × Datum) → List (Datum × Datum) → Prop
  | [], es' => es' = []
  | (k, d) :: es, es' => ∃ d' rest, es' = (k, d') :: rest ∧ Agrees d d' ∧ FieldsAgree es rest

end

/-- Is a value in clean form, with at most so many containers nested in one another? -/
def IsClean : Nat → Datum → Prop
  | _, .null => True
  | _, .bool _ => True
  | _, .int i => isInt64 i = true
  | _, .float _ => True
  | _, .text _ => True
  | n + 1, .list ds => isInt64 ds.length = true ∧ ∀ d ∈ ds, d.isNull = false ∧ IsClean n d
  | n + 1, .mapping es => Distinct es ∧ ∀ e ∈ es, (∃ s, e.1 = .text s) ∧ e.2.isNull = false ∧ IsClean n e.2
  | _, _ => False

/-! ### Encodable values -/

mutual

/-- A tree can be encoded if it holds nothing foreign. -/
theorem isEncodable_of_isTree : ∀ {d : Datum}, IsTree d → Codec.isEncodable d = !holdsForeign d
  | .list _, tree => by rw [Codec.isEncodable, holdsForeign, areEncodable_of_areTrees tree.1, tree.2, Bool.and_true]
  | .tuple _, tree => by rw [Codec.isEncodable, holdsForeign, areEncodable_of_areTrees tree.1, tree.2, Bool.and_true]
  | .mapping _, tree => areFields_of_areFieldTrees tree.1
  | .int i, tree => by
    have inside : isInt64 i = true := tree
    simp [Codec.isEncodable, Codec.scalar, inside, holdsForeign, Except.toBool]
  | .null, _ => rfl
  | .bool _, _ => rfl
  | .float _, _ => rfl
  | .text _, _ => rfl
  | .host _, _ => rfl
  | .live _, _ => rfl

theorem areEncodable_of_areTrees : ∀ {ds : List Datum}, AreTrees ds → Codec.areEncodable ds = !holdForeign ds
  | [], _ => rfl
  | _ :: _, ⟨tree, trees⟩ => by
    rw [Codec.areEncodable, holdForeign, isEncodable_of_isTree tree, areEncodable_of_areTrees trees, Bool.not_or]

theorem areFields_of_areFieldTrees : ∀ {es : List (Datum × Datum)}, AreFieldTrees es →
    Codec.areFields es = !fieldsHoldForeign es
  | [], _ => rfl
  | (k, _) :: _, ⟨key, tree, trees⟩ => by
    have keyed : (Codec.key? k).isSome = !(Codec.keyFault? k).isSome := by
      rcases key with ⟨s, rfl⟩ | none
      · rfl
      · obtain ⟨f, none⟩ := Option.isSome_iff_exists.mp none
        rw [Codec.key?, none]
        rfl
    rw [Codec.areFields, fieldsHoldForeign, isEncodable_of_isTree tree, areFields_of_areFieldTrees trees, keyed]
    cases holdsForeign _ <;> cases (Codec.keyFault? k).isSome <;> rfl

end

/-! ### Clean forms -/

theorem key_of_mem_cleanedFields {es : List (Datum × Datum)} {e : Datum × Datum} (mem : e ∈ cleanedFields es) :
    ∃ e' ∈ es, e'.1 = e.1 := by
  induction es with
  | nil => cases mem
  | cons e' es ih =>
    rw [cleanedFields] at mem
    have later (mem : e ∈ cleanedFields es) : ∃ e'' ∈ e' :: es, e''.1 = e.1 := by
      obtain ⟨e'', mem, same⟩ := ih mem
      exact ⟨e'', List.mem_cons_of_mem _ mem, same⟩
    split at mem
    · exact later mem
    · rcases List.mem_cons.mp mem with rfl | mem
      · exact ⟨e', List.mem_cons_self .., rfl⟩
      · exact later mem

theorem distinct_cleanedFields {es : List (Datum × Datum)} (distinct : Distinct es) : Distinct (cleanedFields es) := by
  induction es with
  | nil => exact .nil
  | cons e es ih =>
    obtain ⟨first, distinct⟩ := List.pairwise_cons.mp distinct
    rw [cleanedFields]
    split
    · exact ih distinct
    · refine List.pairwise_cons.mpr ⟨fun e' mem => ?_, ih distinct⟩
      obtain ⟨e'', mem, same⟩ := key_of_mem_cleanedFields mem
      rw [← same]
      exact first e'' mem

theorem length_cleanedAll_le (ds : List Datum) : (cleanedAll ds).length ≤ ds.length := by
  induction ds with
  | nil => exact Nat.le_refl _
  | cons d ds ih =>
    rw [cleanedAll]
    split
    · exact Nat.le_succ_of_le ih
    · exact Nat.succ_le_succ ih

theorem depth_of_isNull {d : Datum} (null : d.isNull = true) : depth d = 0 := by
  cases d <;> first | rfl | cases null

theorem isNull_cleaned (d : Datum) : (cleaned d).isNull = d.isNull := by cases d <;> rfl

mutual

theorem isClean_cleaned : ∀ {d : Datum} {n : Nat}, IsTree d → holdsForeign d = false → depth d ≤ n → IsClean n (cleaned d)
  | .list ds, n + 1, tree, own, deep => by
    rw [cleaned, IsClean]
    exact ⟨Codec.isInt64_of_le (length_cleanedAll_le ds) tree.2, areClean_cleaned tree.1 own (Nat.le_of_succ_le_succ deep)⟩
  | .tuple ds, n + 1, tree, own, deep => by
    rw [cleaned, IsClean]
    exact ⟨Codec.isInt64_of_le (length_cleanedAll_le ds) tree.2, areClean_cleaned tree.1 own (Nat.le_of_succ_le_succ deep)⟩
  | .mapping es, n + 1, tree, own, deep => by
    rw [cleaned, IsClean]
    exact ⟨distinct_cleanedFields tree.2, fieldsClean_cleaned tree.1 own (Nat.le_of_succ_le_succ deep)⟩
  | .list _, 0, _, _, deep => absurd deep (Nat.not_succ_le_zero _)
  | .tuple _, 0, _, _, deep => absurd deep (Nat.not_succ_le_zero _)
  | .mapping _, 0, _, _, deep => absurd deep (Nat.not_succ_le_zero _)
  | .host _, _, _, own, _ => nomatch own
  | .live _, _, _, own, _ => nomatch own
  | .bytes _, _, tree, _, _ => tree.elim
  | .null, _, _, _, _ => by simp only [cleaned, IsClean]
  | .bool _, _, _, _, _ => by simp only [cleaned, IsClean]
  | .int _, _, tree, _, _ => by simpa only [cleaned, IsClean, IsTree] using tree
  | .float _, _, _, _, _ => by simp only [cleaned, IsClean]
  | .text _, _, _, _, _ => by simp only [cleaned, IsClean]

theorem areClean_cleaned : ∀ {ds : List Datum} {n : Nat}, AreTrees ds → holdForeign ds = false → depths ds ≤ n →
    ∀ d ∈ cleanedAll ds, d.isNull = false ∧ IsClean n d
  | [], _, _, _, _ => nofun
  | d :: ds, n, ⟨tree, trees⟩, own, deep => by
    rw [holdForeign, Bool.or_eq_false_iff] at own
    rw [depths, Nat.max_le] at deep
    rw [cleanedAll]
    have others := areClean_cleaned trees own.2 deep.2
    split
    · exact others
    next some =>
      intro d' mem
      rcases List.mem_cons.mp mem with rfl | mem
      · exact ⟨(isNull_cleaned d).trans (Bool.eq_false_iff.mpr some), isClean_cleaned tree own.1 deep.1⟩
      · exact others d' mem

theorem fieldsClean_cleaned : ∀ {es : List (Datum × Datum)} {n : Nat}, AreFieldTrees es → fieldsHoldForeign es = false →
    fieldDepths es ≤ n → ∀ e ∈ cleanedFields es, (∃ s, e.1 = .text s) ∧ e.2.isNull = false ∧ IsClean n e.2
  | [], _, _, _, _ => nofun
  | (k, d) :: es, n, ⟨key, tree, trees⟩, own, deep => by
    rw [fieldsHoldForeign, Bool.or_eq_false_iff, Bool.or_eq_false_iff] at own
    obtain ⟨⟨named, one⟩, rest⟩ := own
    rw [fieldDepths, Nat.max_le] at deep
    rw [cleanedFields]
    have others := fieldsClean_cleaned trees rest deep.2
    split
    · exact others
    next some =>
      intro e mem
      rcases List.mem_cons.mp mem with rfl | mem
      · exact ⟨key.resolve_right (Bool.eq_false_iff.mp named), (isNull_cleaned d).trans (Bool.eq_false_iff.mpr some),
          isClean_cleaned tree one deep.1⟩
      · exact others e mem

end

/-! ### Agreement -/

theorem Agrees.isNull_eq {d d' : Datum} (agrees : Agrees d d') : d'.isNull = d.isNull := by
  cases d with
  | list ds =>
    obtain ⟨_, rfl, _⟩ := agrees
    rfl
  | tuple ds =>
    obtain ⟨_, rfl, _⟩ := agrees
    rfl
  | mapping es =>
    obtain ⟨_, _, rfl, _⟩ := agrees
    rfl
  | _ =>
    obtain rfl := agrees
    rfl

theorem Agree.length_eq : ∀ {ds ds' : List Datum}, Agree ds ds' → ds'.length = ds.length
  | [], _, rfl => rfl
  | _ :: _, _, ⟨_, _, rfl, _, others⟩ => congrArg (· + 1) others.length_eq

theorem FieldsAgree.keys_eq : ∀ {es es' : List (Datum × Datum)}, FieldsAgree es es' →
    es'.map Prod.fst = es.map Prod.fst
  | [], _, rfl => rfl
  | (k, _) :: _, _, ⟨_, _, rfl, _, others⟩ => congrArg (k :: ·) others.keys_eq

theorem distinct_iff_keys {es : List (Datum × Datum)} :
    Distinct es ↔ (es.map Prod.fst).Pairwise fun k k' => sameKey k k' = false := by
  rw [List.pairwise_map]
  rfl

theorem FieldsAgree.distinct {es es' : List (Datum × Datum)} (agree : FieldsAgree es es') (distinct : Distinct es) :
    Distinct es' := by
  rw [distinct_iff_keys] at *
  rwa [agree.keys_eq]

/-- What is true of all items is true of all items of lists that agree. -/
theorem Agree.forall {P : Datum → Prop} (step : ∀ d d', Agrees d d' → P d → P d') :
    ∀ {ds ds' : List Datum}, Agree ds ds' → (∀ d ∈ ds, P d) → ∀ d ∈ ds', P d
  | [], _, rfl, _ => nofun
  | d :: _, _, ⟨d', _, rfl, one, others⟩, all => by
    obtain ⟨first, rest⟩ := List.forall_mem_cons.mp all
    exact List.forall_mem_cons.mpr ⟨step d d' one first, Agree.forall step others rest⟩

theorem FieldsAgree.forall {P : Datum → Datum → Prop} (step : ∀ k d d', Agrees d d' → P k d → P k d')
    {es es' : List (Datum × Datum)} (agree : FieldsAgree es es') (all : ∀ e ∈ es, P e.1 e.2) : ∀ e ∈ es', P e.1 e.2 := by
  induction es generalizing es' with
  | nil =>
    obtain rfl := agree
    exact all
  | cons e es ih =>
    obtain ⟨d', rest, rfl, one, others⟩ := agree
    obtain ⟨first, all'⟩ := List.forall_mem_cons.mp all
    exact List.forall_mem_cons.mpr ⟨step e.1 e.2 d' one first, ih others all'⟩

/-- A value that agrees with one in clean form is in clean form. -/
theorem IsClean.of_agrees {n : Nat} {d d' : Datum} (clean : IsClean n d) (agrees : Agrees d d') : IsClean n d' := by
  induction n generalizing d d' with
  | zero =>
    cases d with
    | list | tuple | mapping => exact clean.elim
    | _ =>
      obtain rfl := agrees
      exact clean
  | succ n ih =>
    cases d with
    | list ds =>
      obtain ⟨fits, each⟩ := clean
      obtain ⟨ds', rfl, agree⟩ := agrees
      refine ⟨agree.length_eq ▸ fits, agree.forall ?_ each⟩
      exact fun d d' one here => ⟨one.isNull_eq.trans here.1, ih here.2 one⟩
    | mapping es =>
      obtain ⟨distinct, each⟩ := clean
      obtain ⟨fs, es', rfl, agree, perm⟩ := agrees
      refine ⟨(agree.distinct distinct).perm perm, fun e mem => ?_⟩
      refine agree.forall (P := fun k d => (∃ s, k = .text s) ∧ d.isNull = false ∧ IsClean n d) ?_ each e (perm.mem_iff.mpr mem)
      exact fun k d d' one here => ⟨here.1, one.isNull_eq.trans here.2.1, ih here.2.2 one⟩
    | tuple => exact clean.elim
    | _ =>
      obtain rfl := agrees
      exact clean

/-! ### Values in clean form -/

/-- What is known of values in clean form: they hold nothing foreign and are clean already. -/
structure Settles (n : Nat) (d : Datum) : Prop where
  tree : IsTree d
  own : holdsForeign d = false
  deep : depth d ≤ n
  same : cleaned d = d

theorem settles_all {n : Nat} {ds : List Datum} (each : ∀ d ∈ ds, d.isNull = false ∧ Settles n d) :
    AreTrees ds ∧ holdForeign ds = false ∧ depths ds ≤ n ∧ cleanedAll ds = ds := by
  induction ds with
  | nil => exact ⟨trivial, rfl, Nat.zero_le _, rfl⟩
  | cons d ds ih =>
    obtain ⟨⟨some, settles⟩, rest⟩ := List.forall_mem_cons.mp each
    obtain ⟨trees, own, deep, same⟩ := ih rest
    refine ⟨⟨settles.tree, trees⟩, ?_, Nat.max_le.mpr ⟨settles.deep, deep⟩, ?_⟩
    · rw [holdForeign, settles.own, own, Bool.or_self]
    · rw [cleanedAll, some, if_neg Bool.false_ne_true, settles.same, same]

theorem settles_fields {n : Nat} {es : List (Datum × Datum)}
    (each : ∀ e ∈ es, (∃ s, e.1 = .text s) ∧ e.2.isNull = false ∧ Settles n e.2) :
    AreFieldTrees es ∧ fieldsHoldForeign es = false ∧ fieldDepths es ≤ n ∧ cleanedFields es = es := by
  induction es with
  | nil => exact ⟨trivial, rfl, Nat.zero_le _, rfl⟩
  | cons e es ih =>
    obtain ⟨k, d⟩ := e
    obtain ⟨⟨⟨s, key⟩, some, settles⟩, rest⟩ := List.forall_mem_cons.mp each
    obtain ⟨trees, own, deep, same⟩ := ih rest
    obtain rfl : k = .text s := key
    refine ⟨⟨.inl ⟨s, rfl⟩, settles.tree, trees⟩, ?_, Nat.max_le.mpr ⟨settles.deep, deep⟩, ?_⟩
    · rw [fieldsHoldForeign, settles.own, own]
      rfl
    · rw [cleanedFields, some, if_neg Bool.false_ne_true, settles.same, same]

theorem IsClean.settles {n : Nat} {d : Datum} (clean : IsClean n d) : Settles n d := by
  induction n generalizing d with
  | zero =>
    cases d with
    | int i => exact ⟨clean, rfl, Nat.le_refl _, rfl⟩
    | null | bool | float | text => exact ⟨trivial, rfl, Nat.le_refl _, rfl⟩
    | _ => exact clean.elim
  | succ n ih =>
    cases d with
    | int i => exact ⟨clean, rfl, Nat.zero_le _, rfl⟩
    | null | bool | float | text => exact ⟨trivial, rfl, Nat.zero_le _, rfl⟩
    | list ds =>
      obtain ⟨fits, each⟩ := clean
      obtain ⟨trees, own, deep, same⟩ := settles_all fun d mem => ⟨(each d mem).1, ih (each d mem).2⟩
      exact ⟨⟨trees, fits⟩, own, Nat.succ_le_succ deep, congrArg list same⟩
    | mapping es =>
      obtain ⟨distinct, each⟩ := clean
      obtain ⟨trees, own, deep, same⟩ :=
        settles_fields fun e mem => ⟨(each e mem).1, (each e mem).2.1, ih (each e mem).2.2⟩
      exact ⟨⟨trees, distinct⟩, own, Nat.succ_le_succ deep, congrArg mapping same⟩
    | _ => exact clean.elim

end Datum

end LuaCapsule
