import LuaCapsule.Proofs.Decoding

/-! Passages of values through an interpreter. A structured value goes in and comes out in its clean
form, and a second passage changes nothing. A value that holds something foreign is refused on the
way in, for that reason and no other one. -/

namespace LuaCapsule.Codec

open Lua Datum

/-! ### Containers that are being filled -/

/-- A container that nothing but its own entries answers for. -/
structure Quiet (h : Heap) (t : Nat) : Prop where
  plain : h.PlainLists
  old : Fixed.sequence < t
  inside : t < h.tables.size
  metatable : (h.table t).metatable = none ∨ (h.table t).metatable = some Fixed.sequence

variable {h h' : Heap} {t : Nat} {vm : Vm}

theorem Quiet.silent (quiet : Quiet h t) : h.metamethod (.table t) "__newindex" = .nil := by
  rcases quiet.metatable with none | marked
  · exact Heap.metamethod_of_bare none _
  · exact (Heap.IsList.metamethod_eq marked _).trans quiet.plain.newItem

theorem Quiet.later (quiet : Quiet h t) (grows : h.Grows [] h') : Quiet h' t where
  plain := quiet.plain.of_grows grows List.not_mem_nil
  old := quiet.old
  inside := Nat.lt_of_lt_of_le quiet.inside grows.size
  metatable := by
    rw [grows.table t quiet.inside List.not_mem_nil]
    exact quiet.metatable

theorem Quiet.rawSet (quiet : Quiet h t) (k : Key) (v : Value) : Quiet (h.rawSet t k v) t where
  plain := quiet.plain.of_grows (h.grows_rawSet t k v) (by simpa using Nat.ne_of_lt quiet.old)
  old := quiet.old
  inside := by simpa [Heap.rawSet, Heap.modifyTable] using quiet.inside
  metatable := by
    rw [Heap.rawSet, Heap.table_modifyTable, if_pos ⟨rfl, quiet.inside⟩, Table.metatable_set]
    exact quiet.metatable

theorem quiet_newTable (plain : h.PlainLists) (metatable : Option Nat)
    (marked : metatable = none ∨ metatable = some Fixed.sequence) :
    Quiet (h.newTable { metatable := metatable }).2 h.tables.size where
  plain := plainLists_newTable plain _
  old := h.sequence_lt
  inside := by simp [Heap.newTable]
  metatable := by
    rw [Heap.table_newTable, if_pos rfl]
    exact marked

/-! ### Refusals -/

theorem key?_eq_some {d : Datum} {key : Key} : key? d = some key ↔
    keyFault? d = none ∧ ∃ v, scalar d = .ok v ∧ Key.ofValue? v = some key := by
  rw [key?]
  cases keyFault? d <;> cases scalar d <;> simp

theorem exists_key?_of_text {d : Datum} : (∃ s, d = .text s) → ∃ key, key? d = some key
  | ⟨s, is⟩ => ⟨.text s, is ▸ key?_text s⟩

mutual

/-- Do all faults that encoding a value can have share a property? -/
def FaultsAre (bad : Fault → Prop) : Datum → Prop
  | .list ds => AllFaultsAre bad ds ∧ (isInt64 ds.length = true ∨ bad .overflow)
  | .tuple ds => AllFaultsAre bad ds ∧ (isInt64 ds.length = true ∨ bad .overflow)
  | .mapping es => FieldFaultsAre bad es
  | d => ∀ f, scalar d = .error f → bad f

def AllFaultsAre (bad : Fault → Prop) : List Datum → Prop
  | [] => True
  | d :: ds => FaultsAre bad d ∧ AllFaultsAre bad ds

def FieldFaultsAre (bad : Fault → Prop) : List (Datum × Datum) → Prop
  | [] => True
  | (k, d) :: es => ((∃ key, key? k = some key) ∨ ∃ f, keyFault? k = some f ∧ bad f) ∧ FaultsAre bad d ∧ FieldFaultsAre bad es

end

/-- A result that is as it should be, or a fault that is. -/
def Refuses {α : Type} (bad : Fault → Prop) (fine : α → Prop) : EStateM.Result Fault Vm α → Prop
  | .ok a _ => fine a
  | .error f _ => bad f

/-- An item that has a value, or none for a reason that is as it should be. -/
def Item.Has (bad : Fault → Prop) (it : Item) : Prop := ∀ f, it.value = .error f → bad f

variable {bad : Fault → Prop}

/-- An item goes in before what is behind it. -/
theorem refuses_item {α : Type} {d : Datum} {fine : α → Prop} {next : Item → VmM α} (plain : vm.heap.PlainLists)
    (one : Refuses bad (Item.Has bad) (item d vm))
    (others : ∀ it vm', it.Has bad → vm.heap.Grows [] vm'.heap → Refuses bad fine (next it vm')) :
    Refuses bad fine ((item d >>= next) vm) := by
  have leaves := item_spec d vm plain
  change Refuses bad fine (EStateM.bind (item d) next vm)
  rw [EStateM.bind]
  cases done : item d vm with
  | ok it vm' =>
    rw [done] at one leaves
    exact others it vm' one leaves.1
  | error f vm' =>
    rw [done] at one
    exact one

/-- What a container is filled with decides whether it is refused. -/
theorem refuses_container {α : Type} {act : VmM α} {v : Value} (filled : Refuses bad (fun _ => True) (act vm)) :
    Refuses bad (Item.Has bad) ((act >>= fun _ => pure (Item.made v)) vm) := by
  change Refuses _ _ (EStateM.bind act _ vm)
  rw [EStateM.bind]
  cases done : act vm with
  | ok a vm' => exact fun f refused => by cases refused
  | error f vm' =>
    rw [done] at filled
    exact filled

mutual

/-- A value is refused for faults that it can have only. -/
theorem item_refuses : ∀ {d : Datum} {vm : Vm}, vm.heap.PlainLists → FaultsAre bad d →
    Refuses bad (Item.Has bad) (item d vm)
  | .list _, vm, plain, ⟨each, fits⟩ => refuses_container (listItems_refuses each
      { vm with heap := (vm.heap.newTable { metatable := some Fixed.sequence }).2 } _ 1 0 (quiet_newTable plain _ (.inr rfl)) rfl (by simpa using fits))
  | .tuple _, vm, plain, ⟨each, fits⟩ => refuses_container (listItems_refuses each
      { vm with heap := (vm.heap.newTable { metatable := some Fixed.sequence }).2 } _ 1 0 (quiet_newTable plain _ (.inr rfl)) rfl (by simpa using fits))
  | .mapping _, vm, plain, each => refuses_container (fields_refuses each { vm with heap := (vm.heap.newTable {}).2 } _
      (quiet_newTable plain none (.inl rfl)))
  | .int _, _, _, fine => fine
  | .bool _, _, _, fine => fine
  | .float _, _, _, fine => fine
  | .text _, _, _, fine => fine
  | .bytes _, _, _, fine => fine
  | .null, _, _, fine => fine
  | .host _, _, _, fine => fine _ rfl
  | .live _, _, _, fine => fine _ rfl

theorem listItems_refuses : ∀ {ds : List Datum}, AllFaultsAre bad ds → ∀ (vm : Vm) (t : Nat) (i : Int) (n : Nat),
    Quiet vm.heap t → i = n + 1 → (isInt64 (n + ds.length) = true ∨ bad .overflow) →
    Refuses bad (fun _ => True) (listItems t i ds vm)
  | [], _ => by
    intros
    exact trivial
  | d :: ds, ⟨one, each⟩ => by
    intro vm t i n quiet place fits
    rw [listItems]
    refine refuses_item quiet.plain (item_refuses quiet.plain one) fun it vm₁ has grows => ?_
    cases inside : isInt64 i with
    | false =>
      rw [show scalar (.int i) = .error .overflow by simp [scalar, inside]]
      refine fits.resolve_left fun all => ?_
      have first : isInt64 ((n + 1 : Nat) : Int) = true :=
        isInt64_of_le (n := n + (d :: ds).length) (by simp) (by simpa using all)
      rw [place] at inside
      cases inside.symm.trans first
    | true =>
      rw [show scalar (.int i) = .ok (.int (Int64.ofInt i)) by simp [scalar, inside]]
      cases value : it.value with
      | error f => exact has f value
      | ok v =>
        have quiet₁ := quiet.later grows
        obtain ⟨f, stored⟩ := store_eq quiet₁.silent (.int (Int64.ofInt i)) v
        change Refuses _ _ (EStateM.bind (Vm.store (.table t) (.int (Int64.ofInt i)) v) (fun _ => listItems t (i + 1) ds) vm₁)
        rw [EStateM.bind, stored]
        have count : ((n + 1 : Nat) : Int) + ds.length = n + (d :: ds).length := by
          simp
          omega
        exact listItems_refuses each _ t (i + 1) (n + 1) (quiet₁.rawSet (.int (Int64.ofInt i)) v) (by simp [place]) (by rw [count]; exact fits)

theorem fields_refuses : ∀ {es : List (Datum × Datum)}, FieldFaultsAre bad es → ∀ (vm : Vm) (t : Nat), Quiet vm.heap t →
    Refuses bad (fun _ => True) (fields t es vm)
  | [], _ => fun _ _ _ => trivial
  | (k, d) :: es, ⟨named, one, each⟩ => by
    intro vm t quiet
    rw [fields]
    refine refuses_item quiet.plain (item_refuses quiet.plain one) fun it vm₁ has grows => ?_
    rcases named with ⟨key, known⟩ | ⟨f, fault, kind⟩
    · obtain ⟨allowed, kv, entered, known⟩ := key?_eq_some.mp known
      have quiet₁ := quiet.later grows
      rw [allowed, entered]
      cases value : it.value with
      | error f => exact has f value
      | ok v =>
        obtain ⟨f, stored⟩ := store_eq quiet₁.silent kv v
        change Refuses _ _ (EStateM.bind (Vm.store (.table t) kv v) (fun _ => fields t es) vm₁)
        rw [EStateM.bind, stored, known]
        exact fields_refuses each _ t (quiet₁.rawSet key v)
    · rw [fault]
      exact kind

end

/-- The faults of encoding a value are those that it can have. -/
theorem encode_refuses (plain : vm.heap.PlainLists) {d : Datum} (faults : FaultsAre bad d) :
    Refuses bad (fun _ => True) (encode d vm) := by
  refine refuses_item plain (item_refuses plain faults) fun it vm' has _ => ?_
  cases value : it.value with
  | error f => exact has f value
  | ok v => exact trivial

/-! A tree is refused for what is foreign in it only. -/

mutual

theorem faultsAre_of_isTree : ∀ {d : Datum}, IsTree d → FaultsAre (∃ kind, · = .encode kind) d
  | .list _, ⟨trees, fits⟩ => ⟨allFaultsAre_of_areTrees trees, .inl fits⟩
  | .tuple _, ⟨trees, fits⟩ => ⟨allFaultsAre_of_areTrees trees, .inl fits⟩
  | .mapping _, ⟨trees, _⟩ => fieldFaultsAre_of_areFieldTrees trees
  | .int i, tree => fun f refused => by
    have inside : isInt64 i = true := tree
    simp [scalar, inside] at refused
  | .bool _, _ => nofun
  | .float _, _ => nofun
  | .text _, _ => nofun
  | .null, _ => nofun
  | .host _, _ => fun _ refused => by
    cases refused
    exact ⟨_, rfl⟩
  | .live _, _ => fun _ refused => by
    cases refused
    exact ⟨_, rfl⟩

theorem allFaultsAre_of_areTrees : ∀ {ds : List Datum}, AreTrees ds → AllFaultsAre (∃ kind, · = .encode kind) ds
  | [], _ => trivial
  | _ :: _, ⟨tree, trees⟩ => ⟨faultsAre_of_isTree tree, allFaultsAre_of_areTrees trees⟩

theorem fieldFaultsAre_of_areFieldTrees : ∀ {es : List (Datum × Datum)}, AreFieldTrees es →
    FieldFaultsAre (∃ kind, · = .encode kind) es
  | [], _ => trivial
  | (k, _) :: _, ⟨named, tree, trees⟩ => by
    refine ⟨named.imp exists_key?_of_text fun fault => ?_, faultsAre_of_isTree tree,
      fieldFaultsAre_of_areFieldTrees trees⟩
    obtain ⟨f, fault⟩ := Option.isSome_iff_exists.mp fault
    refine ⟨f, fault, ?_⟩
    cases k <;> cases fault <;> exact ⟨_, rfl⟩

end

/-! ### There and back -/

/-- A passage of a value into an interpreter and back. -/
def passage (limit : Int) (d : Datum) : VmM Datum := do decode limit (← encode d)

theorem decode_of_within {limit : Int} {depth : Nat} {good : Datum → Prop} {v : Value}
    (candid : Candid vm.heap limit.toNat v) (within : Within limit limit.toNat depth good (decodeIn vm.heap limit v)) :
    if depth ≤ limit.toNat then ∃ d, decode limit v vm = .ok d vm ∧ good d
    else ∃ vm', decode limit v vm = .error (nestingFault limit) vm' := by
  have follows := decode_follows candid
  unfold Within at within
  split at within
  next enough =>
    obtain ⟨d, is, fine⟩ := within
    rw [is] at follows
    rw [if_pos enough]
    exact ⟨d, follows, fine⟩
  next deep =>
    rw [within] at follows
    rw [if_neg deep]
    exact follows.nestingFault

/-- Encoding succeeds for a tree that holds nothing foreign, and it comes back in its clean form. -/
theorem exists_encode (plain : vm.heap.PlainLists) {d : Datum} (tree : IsTree d) (own : holdsForeign d = false) :
    ∃ v vm', encode d vm = .ok v vm' ∧ vm'.heap.PlainLists ∧ ∀ limit : Int,
      if depth d ≤ limit.toNat then ∃ d', decode limit v vm' = .ok d' vm' ∧ Agrees (cleaned d) d'
      else ∃ vm'', decode limit v vm' = .error (nestingFault limit) vm'' := by
  have leaves := encode_spec plain d
  cases done : encode d vm with
  | ok v vm' =>
    rw [done] at leaves
    obtain ⟨grows, _, _, encoded⟩ := leaves
    exact ⟨v, vm', rfl, plain.of_grows grows List.not_mem_nil, fun limit =>
      decode_of_within (candid_of_encoded encoded _) (decodeFrom_spec encoded tree limit.toNat)⟩
  | error f vm' =>
    rw [done] at leaves
    have check := isEncodable_of_isTree tree
    rw [own, leaves.2.2] at check
    cases check

/-- A tree that holds nothing foreign is encoded. It is decoded to its clean form if no more containers
are nested in it than the limit allows, and is refused otherwise; another passage of what came out
changes nothing. A tree that holds something foreign is refused when it is encoded, and only new
tables are left of it. -/
theorem passage_spec (plain : vm.heap.PlainLists) {d : Datum} (tree : IsTree d) (limit : Int) :
    (holdsForeign d = false → ∃ v vm', encode d vm = .ok v vm' ∧
      if depth d ≤ limit.toNat then
        ∃ d', decode limit v vm' = .ok d' vm' ∧ Agrees (cleaned d) d' ∧
          ∃ d'' vm'', passage limit d' vm' = .ok d'' vm'' ∧ Agrees d' d''
      else ∃ vm'', decode limit v vm' = .error (nestingFault limit) vm'') ∧
    (holdsForeign d = true → ∃ kind vm', encode d vm = .error (.encode kind) vm' ∧ vm.heap.Grows [] vm'.heap) := by
  constructor
  · intro own
    obtain ⟨v, vm', encoded, plain', decoded⟩ := exists_encode plain tree own
    refine ⟨v, vm', encoded, ?_⟩
    have here := decoded limit
    split at here
    next enough =>
      obtain ⟨d', decoded, agrees⟩ := here
      have settles := ((isClean_cleaned tree own enough).of_agrees agrees).settles
      obtain ⟨v', vm'', encoded', _, decoded'⟩ := exists_encode plain' settles.tree settles.own
      have again := decoded' limit
      rw [if_pos settles.deep, settles.same] at again
      obtain ⟨d'', decoded'', agrees'⟩ := again
      rw [if_pos enough]
      refine ⟨d', decoded, agrees, d'', vm'', ?_, agrees'⟩
      change EStateM.bind (encode d') (decode limit) vm' = _
      rw [EStateM.bind, encoded']
      exact decoded''
    next deep =>
      rw [if_neg deep]
      exact here
  · intro foreign
    have leaves := encode_spec plain d
    have refused := encode_refuses plain (faultsAre_of_isTree tree)
    have check := isEncodable_of_isTree tree
    rw [foreign] at check
    cases done : encode d vm with
    | ok v vm' =>
      rw [done] at leaves
      cases check.symm.trans leaves.2.2.1
    | error f vm' =>
      rw [done] at leaves refused
      obtain ⟨kind, rfl⟩ := refused
      exact ⟨kind, vm', rfl, leaves.1⟩

/-! ### A value and its passage -/

/-- The entries of a mapping with null, empty containers and numbers of different kinds in it. -/
def parcel : List (String × Datum) :=
  [("none", .null), ("list", .list [.null, .tuple [], .mapping []]),
    ("numbers", .tuple [.int 1, .bool true, .float ⟨4607182418800017408⟩])]

/-- A mapping of texts to values. -/
def ofTexts (es : List (String × Datum)) : Datum := .mapping (es.map fun e => (.text e.1, e.2))

theorem plainLists_fixed : Fixed.heap.PlainLists := ⟨by decide, by decide, by decide⟩

theorem isTree_parcel (d : Datum) (tree : IsTree d) : IsTree (ofTexts (("more", d) :: parcel)) := by
  have small : isInt64 0 = true ∧ isInt64 1 = true ∧ isInt64 3 = true := by decide
  have nodup : ["more", "none", "list", "numbers"].Nodup := by decide
  refine ⟨?_, distinct_texts nodup⟩
  simp only [parcel, List.map_cons, List.map_nil, AreFieldTrees, AreTrees, IsTree]
  exact ⟨.inl ⟨_, rfl⟩, tree, .inl ⟨_, rfl⟩, trivial, .inl ⟨_, rfl⟩,
    ⟨⟨trivial, ⟨trivial, small.1⟩, ⟨trivial, .nil⟩, trivial⟩, small.2.2⟩, .inl ⟨_, rfl⟩,
    ⟨⟨small.2.1, trivial, trivial, trivial⟩, small.2.2⟩, trivial⟩

/-- A mapping with containers nested three deep in it comes back if three are allowed, and it is
refused if two are, or if it holds an object of the host. -/
theorem passage_parcel :
    (∃ v vm' d', encode (ofTexts (("more", .null) :: parcel)) ⟨Fixed.heap, none⟩ = .ok v vm' ∧
      decode 3 v vm' = .ok d' vm' ∧ Agrees (cleaned (ofTexts parcel)) d') ∧
    (∃ v vm' vm'', encode (ofTexts (("more", .null) :: parcel)) ⟨Fixed.heap, none⟩ = .ok v vm' ∧
      decode 2 v vm' = .error (nestingFault 2) vm'') ∧
    ∃ kind vm', encode (ofTexts (("more", .host .object) :: parcel)) ⟨Fixed.heap, none⟩ = .error (.encode kind) vm' := by
  have plain : (Vm.mk Fixed.heap none).heap.PlainLists := plainLists_fixed
  have fits := passage_spec plain (isTree_parcel .null trivial) 3
  have deep := passage_spec plain (isTree_parcel .null trivial) 2
  have foreign := passage_spec plain (isTree_parcel (.host .object) trivial) 3
  obtain ⟨v, vm', encoded, d', decoded, agrees, _⟩ := fits.1 rfl
  obtain ⟨v₂, vm₂, encoded₂, vm₂', decoded₂⟩ := deep.1 rfl
  obtain ⟨kind, vm₃, refused, _⟩ := foreign.2 rfl
  exact ⟨⟨v, vm', d', encoded, decoded, agrees⟩, ⟨v₂, vm₂, vm₂', encoded₂, decoded₂⟩, kind, vm₃, refused⟩

end LuaCapsule.Codec
