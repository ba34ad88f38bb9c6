import LuaCapsule.Proofs.Description
import LuaCapsule.Snapshot.Capture
import Mathlib.Data.List.Perm.Subperm

/-! What is listed describes the heap. Objects get their places when they are first met, and keep
them; variables get their owners where they are first mentioned, and no mention comes twice. The
places of new objects come behind all others, so that what was listed stays true. There are no
more objects to list than are mentioned anywhere in the heap. -/

namespace LuaCapsule.Snapshot

open Lua

/-! ### Surveys -/

namespace Survey

/-- A survey that numbers objects that can be reached, in the order in which it keeps them. -/
structure Valid (h : Heap) (s : Survey) : Prop where
  nodup : s.objects.toList.Nodup
  places : ∀ (r : Ref) (n : Nat), s.places[r]? = some n ↔ ∃ m, n = m + 1 ∧ s.objects.toList[m]? = some r
  reached : ∀ r ∈ s.objects.toList, h.Reaches r
  owners : ∀ (c : Nat) (p : Nat × Nat), s.owners[c]? = some p → ∃ o j id, p = (o + 1, j + 1) ∧
    s.objects.toList[o]? = some (.closure id) ∧ (h.closure id).upvalues[j]? = some c

/-- What a survey says stays true of objects and owners. -/
structure Covers (s : Survey) (objs : List Ref) (owner : Nat → Nat × Nat) : Prop where
  objects : s.objects.toList <+: objs
  owners : ∀ (c : Nat) (p : Nat × Nat), s.owners[c]? = some p → owner c = p

/-- A survey goes on to another one. -/
structure Grows (s s' : Survey) : Prop where
  objects : s.objects.toList <+: s'.objects.toList
  owners : ∀ (c : Nat) (p : Nat × Nat), s.owners[c]? = some p → s'.owners[c]? = some p

/-- All mentions of variables come before a position of the function at a place. -/
def Before (s : Survey) (n i : Nat) : Prop :=
  ∀ (c : Nat) (p : Nat × Nat), s.owners[c]? = some p → p.1 < n ∨ p.1 = n ∧ p.2 < i

variable {s s' s'' : Survey} {objs : List Ref} {owner : Nat → Nat × Nat}

theorem Grows.refl (s : Survey) : s.Grows s := ⟨List.prefix_rfl, fun _ _ here => here⟩

theorem Grows.trans (first : s.Grows s') (second : s'.Grows s'') : s.Grows s'' :=
  ⟨first.objects.trans second.objects, fun c p here => second.owners c p (first.owners c p here)⟩

theorem Covers.earlier (covers : s'.Covers objs owner) (grows : s.Grows s') : s.Covers objs owner :=
  ⟨grows.objects.trans covers.objects, fun c p here => covers.owners c p (grows.owners c p here)⟩

theorem Before.of_owners {n i : Nat} (before : s.Before n i) (same : s'.owners = s.owners) : s'.Before n i := by
  unfold Before
  rw [same]
  exact before

theorem Before.next {n i : Nat} (before : s.Before n i) : s.Before (n + 1) 1 := by
  intro c p here
  rcases before c p here with earlier | ⟨same, _⟩
  · exact .inl (by omega)
  · exact .inl (by omega)

theorem valid_empty (h : Heap) : ({} : Survey).Valid h := by
  refine ⟨List.nodup_nil, ?_, ?_, ?_⟩
  · intro r n
    simp
  · intro r mem
    simp at mem
  · intro c p here
    simp at here

end Survey

/-! ### Steps -/

section Steps

variable {α β : Type} {s s' : Survey}

theorem SurveyM.bind_eq_ok {act : SurveyM α} {next : α → SurveyM β} {b : β} (done : (act >>= next) s = .ok (b, s')) :
    ∃ a s₁, act s = .ok (a, s₁) ∧ next a s₁ = .ok (b, s') := by
  change (act s >>= fun r => next r.1 r.2) = _ at done
  cases first : act s with
  | error e =>
    rw [first] at done
    cases done
  | ok r =>
    rw [first] at done
    exact ⟨r.1, r.2, rfl, done⟩

theorem SurveyM.pure_eq_ok {a b : α} (done : (pure a : SurveyM α) s = .ok (b, s')) : a = b ∧ s = s' := by
  cases done
  exact ⟨rfl, rfl⟩

end Steps

theorem getElem?_later {α : Type} {xs ys : List α} (p : xs <+: ys) {i : Nat} {x : α} (here : xs[i]? = some x) :
    ys[i]? = some x := by
  obtain ⟨zs, rfl⟩ := p
  rw [List.getElem?_append_left (List.getElem?_eq_some_iff.mp here).1, here]

theorem Denotes.later {objs objs' : List Ref} {x : Reference} {v : Value} (d : Denotes objs x v)
    (later : objs <+: objs') : Denotes objs' x v := by
  cases d with
  | nil => exact .nil
  | bool b => exact .bool b
  | int i => exact .int i
  | float same => exact .float same
  | text s => exact .text s
  | bytes b => exact .bytes b
  | object here => exact .object (getElem?_later later here)

variable {h : Heap} {s s' : Survey}

/-- An object that can be reached gets a place for good. -/
theorem place_spec {r : Ref} {n : Nat} (valid : s.Valid h) (reached : h.Reaches r) (done : place r s = .ok (n, s')) :
    s'.Valid h ∧ s.Grows s' ∧ s'.owners = s.owners ∧ ∃ m, n = m + 1 ∧ s'.objects.toList[m]? = some r := by
  unfold place at done
  obtain ⟨s₁, _, got, done⟩ := SurveyM.bind_eq_ok done
  cases got
  cases found : s.places.get? r with
  | some n' =>
    simp only [found] at done
    obtain ⟨rfl, rfl⟩ := SurveyM.pure_eq_ok done
    exact ⟨valid, .refl s, rfl, (valid.places r _).mp found⟩
  | none =>
    simp only [found] at done
    cases done
    have fresh : r ∉ s.objects.toList := by
      intro mem
      obtain ⟨m, here⟩ := List.getElem?_of_mem mem
      have known := (valid.places r (m + 1)).mpr ⟨m, rfl, here⟩
      exact absurd (found.symm.trans known) nofun
    have grows : s.objects.toList <+: (s.objects.push r).toList := by
      rw [Array.toList_push]
      exact List.prefix_append ..
    have last : (s.objects.push r).toList[s.objects.size]? = some r := by simp
    refine ⟨⟨?_, ?_, ?_, ?_⟩, ⟨grows, fun _ _ here => here⟩, rfl, _, rfl, last⟩
    · rw [Array.toList_push, ← List.concat_eq_append]
      exact valid.nodup.concat fresh
    · intro r' n
      simp only [Std.TreeMap.getElem?_insert, Std.LawfulEqCmp.compare_eq_iff_eq, Array.getElem?_toList,
        Array.getElem?_push]
      split
      next same =>
        subst same
        constructor
        · intro eq
          exact ⟨s.objects.size, (Option.some.inj eq).symm, if_pos rfl⟩
        · rintro ⟨m, rfl, here⟩
          split at here
          next last => rw [last]
          next =>
            rw [← Array.getElem?_toList] at here
            exact absurd (List.mem_of_getElem? here) fresh
      next other =>
        rw [valid.places r' n]
        refine exists_congr fun m => and_congr_right fun _ => ?_
        rw [← Array.getElem?_toList]
        split
        next last =>
          refine ⟨fun here => ?_, fun here => absurd (Option.some.inj here) other⟩
          rw [List.getElem?_eq_none (by simp [last])] at here
          cases here
        next => rfl
    · intro r' mem
      rcases Array.mem_push.mp (Array.mem_toList_iff.mp mem) with mem | rfl
      · exact valid.reached r' (Array.mem_toList_iff.mpr mem)
      · exact reached
    · intro c p here
      obtain ⟨o, j, id, own, place, captured⟩ := valid.owners c p here
      exact ⟨o, j, id, own, getElem?_later grows place, captured⟩

/-- A value whose object can be reached is listed. -/
theorem refer_spec {v : Value} {x : Reference} (valid : s.Valid h) (reached : ∀ r, v = .ref r → h.Reaches r)
    (done : refer v s = .ok (x, s')) :
    s'.Valid h ∧ s.Grows s' ∧ s'.owners = s.owners ∧ Denotes s'.objects.toList x v := by
  cases v with
  | ref r =>
    rw [refer] at done
    cases kind : unlisted? r with
    | some e =>
      rw [kind] at done
      cases done
    | none =>
      rw [kind] at done
      obtain ⟨n, s₁, placed, done⟩ := SurveyM.bind_eq_ok done
      obtain ⟨rfl, rfl⟩ := SurveyM.pure_eq_ok done
      obtain ⟨valid', grows, owners, m, rfl, here⟩ := place_spec valid (reached r rfl) placed
      exact ⟨valid', grows, owners, .object here⟩
  | str b =>
    obtain ⟨rfl, rfl⟩ := SurveyM.pure_eq_ok done
    refine ⟨valid, .refl s, rfl, ?_⟩
    cases text : b.toText? with
    | none => exact .bytes b
    | some t =>
      obtain rfl := Bytes.ofString_toText? text
      exact .text t
  | nil =>
    obtain ⟨rfl, rfl⟩ := SurveyM.pure_eq_ok done
    exact ⟨valid, .refl s, rfl, .nil⟩
  | bool b =>
    obtain ⟨rfl, rfl⟩ := SurveyM.pure_eq_ok done
    exact ⟨valid, .refl s, rfl, .bool b⟩
  | int i =>
    obtain ⟨rfl, rfl⟩ := SurveyM.pure_eq_ok done
    exact ⟨valid, .refl s, rfl, .int i⟩
  | float x =>
    obtain ⟨rfl, rfl⟩ := SurveyM.pure_eq_ok done
    exact ⟨valid, .refl s, rfl, .float (.inl rfl)⟩

theorem DenotesEntry.later {objs objs' : List Ref} {e : Reference × Reference} {kv : Key × Value}
    (d : DenotesEntry objs e kv) (later : objs <+: objs') : DenotesEntry objs' e kv :=
  ⟨d.1.later later, d.2.later later⟩

theorem referEntry_spec {kv : Key × Value} {e : Reference × Reference} (valid : s.Valid h)
    (key : ∀ r, kv.1.value = .ref r → h.Reaches r) (value : ∀ r, kv.2 = .ref r → h.Reaches r)
    (done : referEntry kv s = .ok (e, s')) :
    s'.Valid h ∧ s.Grows s' ∧ s'.owners = s.owners ∧ DenotesEntry s'.objects.toList e kv := by
  obtain ⟨k, s₁, first, done⟩ := SurveyM.bind_eq_ok done
  obtain ⟨v, s₂, second, done⟩ := SurveyM.bind_eq_ok done
  obtain ⟨rfl, rfl⟩ := SurveyM.pure_eq_ok done
  obtain ⟨valid₁, grows₁, owners₁, denotes₁⟩ := refer_spec valid key first
  obtain ⟨valid₂, grows₂, owners₂, denotes₂⟩ := refer_spec valid₁ value second
  exact ⟨valid₂, grows₁.trans grows₂, owners₂.trans owners₁, denotes₁.later grows₂.objects, denotes₂⟩

/-- Entries are listed one by one. -/
theorem referEntries_spec {kvs : List (Key × Value)} {es : List (Reference × Reference)} (valid : s.Valid h)
    (reached : ∀ kv ∈ kvs, (∀ r, kv.1.value = .ref r → h.Reaches r) ∧ ∀ r, kv.2 = .ref r → h.Reaches r)
    (done : kvs.mapM referEntry s = .ok (es, s')) :
    s'.Valid h ∧ s.Grows s' ∧ s'.owners = s.owners ∧ List.Forall₂ (DenotesEntry s'.objects.toList) es kvs := by
  induction kvs generalizing s es with
  | nil =>
    obtain ⟨rfl, rfl⟩ := SurveyM.pure_eq_ok done
    exact ⟨valid, .refl s, rfl, .nil⟩
  | cons kv kvs ih =>
    rw [List.mapM_cons] at done
    obtain ⟨e, s₁, first, done⟩ := SurveyM.bind_eq_ok done
    obtain ⟨es', s₂, others, done⟩ := SurveyM.bind_eq_ok done
    obtain ⟨rfl, rfl⟩ := SurveyM.pure_eq_ok done
    have here := reached kv (List.mem_cons_self ..)
    obtain ⟨valid₁, grows₁, owners₁, denotes⟩ := referEntry_spec valid here.1 here.2 first
    obtain ⟨valid₂, grows₂, owners₂, each⟩ :=
      ih valid₁ (fun kv mem => reached kv (List.mem_cons_of_mem _ mem)) others
    exact ⟨valid₂, grows₁.trans grows₂, owners₂.trans owners₁, .cons (denotes.later grows₂.objects) each⟩

/-- A variable is owned from now on by the function whose variable is being listed. -/
def Survey.own (s : Survey) (c : Nat) (p : Nat × Nat) : Survey := { s with owners := s.owners.insert c p }

theorem own_spec {o i c id : Nat} (valid : s.Valid h) (here : s.objects.toList[o]? = some (.closure id))
    (captured : (h.closure id).upvalues[i]? = some c) (before : s.Before (o + 1) (i + 1))
    (new : s.owners[c]? = none) :
    (s.own c (o + 1, i + 1)).Valid h ∧ s.Grows (s.own c (o + 1, i + 1)) ∧
      (s.own c (o + 1, i + 1)).Before (o + 1) (i + 2) ∧
      (s.own c (o + 1, i + 1)).owners[c]? = some (o + 1, i + 1) := by
  have found (c' : Nat) : (s.own c (o + 1, i + 1)).owners[c']? =
      if c = c' then some (o + 1, i + 1) else s.owners[c']? := by
    simp only [Survey.own, Std.TreeMap.getElem?_insert, Std.LawfulEqCmp.compare_eq_iff_eq]
  refine ⟨⟨valid.nodup, valid.places, valid.reached, ?_⟩, ⟨List.prefix_rfl, ?_⟩, ?_, ?_⟩
  · intro c' p known
    rw [found] at known
    split at known
    next same =>
      obtain rfl := Option.some.inj known
      exact ⟨o, i, id, rfl, here, same ▸ captured⟩
    next => exact valid.owners c' p known
  · intro c' p known
    rw [found]
    split
    next same =>
      rw [← same, new] at known
      cases known
    next => exact known
  · intro c' p known
    rw [found] at known
    split at known
    next =>
      obtain rfl := Option.some.inj known
      exact .inr ⟨rfl, Nat.lt_succ_self _⟩
    next =>
      rcases before c' p known with earlier | ⟨same, earlier⟩
      · exact .inl earlier
      · exact .inr ⟨same, by omega⟩
  · rw [found, if_pos rfl]

/-- A captured variable is listed where it is met first, and joined to that place later on. -/
theorem referUpvalue_spec {o i c id : Nat} {u : Upvalue} (valid : s.Valid h)
    (here : s.objects.toList[o]? = some (.closure id)) (reached : h.Reaches (.closure id))
    (captured : (h.closure id).upvalues[i]? = some c) (before : s.Before (o + 1) (i + 1))
    (done : referUpvalue h (o + 1) (i + 1) c s = .ok (u, s')) :
    s'.Valid h ∧ s.Grows s' ∧ s'.Before (o + 1) (i + 2) ∧
      ∀ objs owner, s'.Covers objs owner → DenotesUpvalue h objs owner (o + 1) (i + 1) c u := by
  unfold referUpvalue at done
  obtain ⟨s₁, _, got, done⟩ := SurveyM.bind_eq_ok done
  cases got
  cases known : s.owners.get? c with
  | some p =>
    simp only [known] at done
    obtain ⟨rfl, rfl⟩ := SurveyM.pure_eq_ok done
    have earlier := before c p known
    refine ⟨valid, .refl s, ?_, ?_⟩
    · intro c' p' known'
      rcases before c' p' known' with first | ⟨same, first⟩
      · exact .inl first
      · exact .inr ⟨same, by omega⟩
    · intro objs owner covers
      have own := covers.owners c p known
      refine ⟨fun same => ?_, fun _ => by rw [own], ?_⟩
      · rw [own] at same
        subst same
        simp at earlier
      · obtain ⟨o', j, id', rfl, place, captured'⟩ := valid.owners c p known
        exact ⟨o', j, id', own, getElem?_later covers.objects place, captured'⟩
  | none =>
    simp only [known] at done
    obtain ⟨_, s₁, modified, done⟩ := SurveyM.bind_eq_ok done
    obtain rfl : s.own c (o + 1, i + 1) = s₁ := by
      cases modified
      rfl
    obtain ⟨x, s₂, listed, done⟩ := SurveyM.bind_eq_ok done
    obtain ⟨rfl, rfl⟩ := SurveyM.pure_eq_ok done
    obtain ⟨valid₁, grows₁, before₁, own⟩ := own_spec valid here captured before known
    have value (r : Ref) (is : h.cell c = .ref r) : h.Reaches r := by
      have held := Heap.Holds.captured (h := h) captured
      rw [is] at held
      exact .step reached held
    obtain ⟨valid₂, grows₂, owners, denotes⟩ := refer_spec valid₁ value listed
    refine ⟨valid₂, grows₁.trans grows₂, before₁.of_owners owners, ?_⟩
    intro objs owner covers
    have owned := covers.owners c _ (grows₂.owners c _ own)
    refine ⟨fun _ => ⟨x, rfl, denotes.later covers.objects⟩, fun other => absurd owned other, ?_⟩
    exact ⟨o, i, id, owned, getElem?_later ((grows₁.trans grows₂).objects.trans covers.objects) here, captured⟩

/-- Captured variables are listed one by one. -/
theorem referUpvalues_spec {o id : Nat} {cells : List Nat} {i : Nat} {us : List Upvalue} (valid : s.Valid h)
    (here : s.objects.toList[o]? = some (.closure id)) (reached : h.Reaches (.closure id))
    (captured : ∀ j c : Nat, cells[j]? = some c → (h.closure id).upvalues[i + j]? = some c)
    (before : s.Before (o + 1) (i + 1)) (done : referUpvalues h (o + 1) (i + 1) cells s = .ok (us, s')) :
    s'.Valid h ∧ s.Grows s' ∧ s'.Before (o + 1) (i + cells.length + 1) ∧ us.length = cells.length ∧
      ∀ objs owner, s'.Covers objs owner → ∀ (j : Nat) u c, us[j]? = some u → cells[j]? = some c →
        DenotesUpvalue h objs owner (o + 1) (i + j + 1) c u := by
  induction cells generalizing s i us with
  | nil =>
    obtain ⟨rfl, rfl⟩ := SurveyM.pure_eq_ok done
    exact ⟨valid, .refl s, before, rfl, fun _ _ _ _ _ _ found => absurd found (by simp)⟩
  | cons c cells ih =>
    rw [referUpvalues] at done
    obtain ⟨u, s₁, first, done⟩ := SurveyM.bind_eq_ok done
    obtain ⟨us', s₂, others, done⟩ := SurveyM.bind_eq_ok done
    obtain ⟨rfl, rfl⟩ := SurveyM.pure_eq_ok done
    obtain ⟨valid₁, grows₁, before₁, mention⟩ := referUpvalue_spec valid here reached (captured 0 c rfl) before first
    obtain ⟨valid₂, grows₂, before₂, size, mentions⟩ := ih (i := i + 1) valid₁ (getElem?_later grows₁.objects here)
      (fun j c' place => by rw [← captured (j + 1) c' place]; congr 1; omega) before₁ others
    refine ⟨valid₂, grows₁.trans grows₂, ?_, by simp [size], ?_⟩
    · rw [List.length_cons]
      convert before₂ using 1
      omega
    · intro objs owner covers j u' c' place place'
      cases j with
      | zero =>
        obtain rfl := Option.some.inj place
        obtain rfl := Option.some.inj place'
        exact mention objs owner (covers.earlier grows₂)
      | succ j =>
        have := mentions objs owner covers j u' c' place place'
        rwa [show i + 1 + j = i + (j + 1) from by omega] at this

/-! ### Records -/

theorem reaches_entry {t : Nat} (reached : h.Reaches (.table t)) {kv : Key × Value}
    (mem : kv ∈ (h.table t).toList) :
    (∀ r, kv.1.value = .ref r → h.Reaches r) ∧ ∀ r, kv.2 = .ref r → h.Reaches r := by
  obtain ⟨k, v⟩ := kv
  obtain ⟨found, present⟩ := Table.mem_toList.mp mem
  constructor
  · intro r is
    have held := Heap.Holds.key (h := h) (t := t) (k := k) (found ▸ present)
    exact .step reached (is ▸ held)
  · intro r is
    have held := Heap.Holds.value (h := h) (t := t) k
    exact .step reached (is ▸ found ▸ held)

theorem referMetatable_spec {m : Option Nat} {x : Option Reference} (valid : s.Valid h)
    (reached : ∀ id, m = some id → h.Reaches (.table id))
    (done : m.mapM (fun m => refer (.table m)) s = .ok (x, s')) :
    s'.Valid h ∧ s.Grows s' ∧ s'.owners = s.owners ∧
      DenotesMetatable s'.objects.toList x m := by
  cases m with
  | none =>
    obtain ⟨rfl, rfl⟩ := SurveyM.pure_eq_ok done
    exact ⟨valid, .refl s, rfl, .none⟩
  | some id =>
    change (refer (.table id) >>= fun y => pure (some y)) s = _ at done
    obtain ⟨y, s₁, first, done⟩ := SurveyM.bind_eq_ok done
    obtain ⟨rfl, rfl⟩ := SurveyM.pure_eq_ok done
    obtain ⟨valid₁, grows, owners, denotes⟩ :=
      refer_spec valid (fun r is => Value.ref.inj is ▸ reached id rfl) first
    exact ⟨valid₁, grows, owners, .some denotes⟩

theorem DenotesMetatable.later {objs objs' : List Ref} {x : Option Reference} {m : Option Nat}
    (d : DenotesMetatable objs x m) (later : objs <+: objs') :
    DenotesMetatable objs' x m := by
  cases d with
  | none => exact .none
  | some denotes => exact .some (denotes.later later)

/-- An object that is no table and no function of a script is listed by its path. -/
theorem record_eq_of_leaf {n : Nat} {r : Ref} (leaf : 2 ≤ r.sort) : record h n r =
    match Fixed.pathOf? (.ref r) with
    | some p => return .native p
    | none => throw .native := by
  cases r with
  | table id => simp [Ref.sort, Ref.rank] at leaf
  | closure id => simp [Ref.sort, Ref.rank] at leaf
  | _ => rfl

theorem record_leaf {n : Nat} {r : Ref} {rec : Record} (leaf : 2 ≤ r.sort) (done : record h n r s = .ok (rec, s')) :
    ∃ p, Fixed.pathOf? (.ref r) = some p ∧ rec = .native p ∧ s = s' := by
  rw [record_eq_of_leaf leaf] at done
  cases path : Fixed.pathOf? (.ref r) with
  | none =>
    rw [path] at done
    cases done
  | some p =>
    rw [path] at done
    obtain ⟨rfl, rfl⟩ := SurveyM.pure_eq_ok done
    exact ⟨p, rfl, rfl, rfl⟩

/-- The record of an object says what the object holds, whatever is met later. -/
theorem record_spec {o : Nat} {r : Ref} {rec : Record} (valid : s.Valid h) (here : s.objects.toList[o]? = some r)
    (before : s.Before (o + 1) 1) (done : record h (o + 1) r s = .ok (rec, s')) :
    s'.Valid h ∧ s.Grows s' ∧ s'.Before (o + 2) 1 ∧
      ∀ objs owner, s'.Covers objs owner → Records h objs owner (o + 1) r rec := by
  have reached := valid.reached r (List.mem_of_getElem? here)
  cases r with
  | table id =>
    obtain ⟨es, s₁, first, done⟩ := SurveyM.bind_eq_ok done
    obtain ⟨m, s₂, second, done⟩ := SurveyM.bind_eq_ok done
    obtain ⟨rfl, rfl⟩ := SurveyM.pure_eq_ok done
    obtain ⟨valid₁, grows₁, owners₁, each⟩ :=
      referEntries_spec valid (fun kv mem => reaches_entry reached mem) first
    obtain ⟨valid₂, grows₂, owners₂, metatable⟩ :=
      referMetatable_spec valid₁ (fun m named => .step reached (.metatable named)) second
    refine ⟨valid₂, grows₁.trans grows₂, (before.of_owners (owners₂.trans owners₁)).next, ?_⟩
    intro objs owner covers
    refine .table rfl (List.Perm.refl _) ?_ ?_
    · exact each.imp fun e kv d => d.later (grows₂.objects.trans covers.objects)
    · exact metatable.later covers.objects
  | closure id =>
    obtain ⟨us, s₁, listed, done⟩ := SurveyM.bind_eq_ok done
    obtain ⟨rfl, rfl⟩ := SurveyM.pure_eq_ok done
    obtain ⟨valid₁, grows, before₁, size, mentions⟩ := referUpvalues_spec (i := 0) valid here reached
      (fun j c place => by simpa using place) before listed
    refine ⟨valid₁, grows, before₁.next, ?_⟩
    intro objs owner covers
    refine .function rfl (by simpa using size) ?_
    intro i u cell place captured
    have := mentions objs owner covers i u cell place (by simpa using captured)
    rwa [Nat.zero_add] at this
  | _ =>
    obtain ⟨p, path, rfl, rfl⟩ := record_leaf (by simp [Ref.sort, Ref.rank]) done
    exact ⟨valid, .refl s, before.next, fun _ _ _ => .native path (by simp [Ref.sort, Ref.rank])⟩

/-! ### Listings -/

/-- The records from a place on are those of the objects, until all have one or fuel runs out. -/
theorem recordsFrom_spec {fuel o : Nat} {l : Listing} (valid : s.Valid h) (before : s.Before (o + 1) 1)
    (listed : o ≤ s.objects.size) (done : recordsFrom h fuel (o + 1) s = .ok (l, s')) :
    s'.Valid h ∧ s.Grows s' ∧ o + l.length ≤ s'.objects.size ∧
      (o + l.length = s'.objects.size ∨ l.length = fuel) ∧
      ∀ objs owner, s'.Covers objs owner → ∀ (k : Nat) r rec, objs[o + k]? = some r → l[k]? = some rec →
        Records h objs owner (o + k + 1) r rec := by
  induction fuel generalizing s o l with
  | zero =>
    obtain ⟨rfl, rfl⟩ := SurveyM.pure_eq_ok done
    exact ⟨valid, .refl s, listed, .inr rfl, fun _ _ _ _ _ _ _ found => absurd found (by simp)⟩
  | succ fuel ih =>
    rw [recordsFrom] at done
    obtain ⟨s₁, _, got, done⟩ := SurveyM.bind_eq_ok done
    cases got
    rw [Nat.add_sub_cancel] at done
    cases here : s.objects[o]? with
    | none =>
      simp only [here] at done
      obtain ⟨rfl, rfl⟩ := SurveyM.pure_eq_ok done
      have all := Array.getElem?_eq_none_iff.mp here
      exact ⟨valid, .refl s, listed, .inl (by simp; omega), fun _ _ _ _ _ _ _ found => absurd found (by simp)⟩
    | some r =>
      simp only [here] at done
      obtain ⟨rec, s₁, first, done⟩ := SurveyM.bind_eq_ok done
      obtain ⟨l', s₂, others, done⟩ := SurveyM.bind_eq_ok done
      obtain ⟨rfl, rfl⟩ := SurveyM.pure_eq_ok done
      rw [← Array.getElem?_toList] at here
      obtain ⟨valid₁, grows₁, before₁, record⟩ := record_spec valid here before first
      have place := (List.getElem?_eq_some_iff.mp (getElem?_later grows₁.objects here)).1
      obtain ⟨valid₂, grows₂, listed₂, ended, records⟩ := ih valid₁ before₁ (by simpa [Nat.succ_le_iff] using place) others
      refine ⟨valid₂, grows₁.trans grows₂, by simp; omega, by simp; omega, ?_⟩
      intro objs owner covers k r' rec' there found
      cases k with
      | zero =>
        obtain rfl := Option.some.inj found
        have same := getElem?_later ((grows₁.trans grows₂).objects.trans covers.objects) here
        obtain rfl := Option.some.inj (there.symm.trans same)
        exact record objs owner (covers.earlier grows₂)
      | succ k =>
        have next : o + 1 + k = o + (k + 1) := by omega
        have := records objs owner covers k r' rec' (next ▸ there) found
        rwa [next] at this

/-! ### How many objects there are -/

theorem mem_held {t : Table} {r : Ref} :
    r ∈ held t ↔ (∃ kv ∈ t.toList, kv.1.value = .ref r ∨ kv.2 = .ref r) ∨ ∃ m, t.metatable = some m ∧ .table m = r := by
  have ref? (v : Value) : r ∈ v.ref?.toList ↔ v = .ref r := by
    cases v <;> simp [Value.ref?, eq_comm]
  simp only [held, List.mem_append, List.mem_flatMap, ref?]
  simp [Option.map_eq_some_iff]

theorem mentioned_of_held {t : Nat} {r : Ref} (mem : r ∈ held (h.table t)) : r ∈ mentioned h := by
  rw [Heap.table, Array.getD_eq_getD_getElem?] at mem
  cases here : h.tables[t]? with
  | none =>
    rw [here, Option.getD_none, mem_held] at mem
    simp [Table.toList] at mem
  | some table =>
    rw [here, Option.getD_some] at mem
    have inside : table ∈ h.tables.toList := List.mem_of_getElem? (Array.getElem?_toList ▸ here)
    exact List.mem_append_left _ (List.mem_cons_of_mem _ (List.mem_flatMap.mpr ⟨table, inside, mem⟩))

theorem mentioned_of_cell {c : Nat} {r : Ref} (here : h.cell c = .ref r) : r ∈ mentioned h := by
  rw [Heap.cell, Array.getD_eq_getD_getElem?] at here
  cases found : h.cells[c]? with
  | none =>
    rw [found] at here
    cases here
  | some v =>
    rw [found, Option.getD_some] at here
    have inside : v ∈ h.cells.toList := List.mem_of_getElem? (Array.getElem?_toList ▸ found)
    exact List.mem_append_right _ (List.mem_filterMap.mpr ⟨v, inside, here ▸ rfl⟩)

/-- The objects that a table holds are those that can be listed for it. -/
theorem mem_held_iff {t : Nat} {r : Ref} : r ∈ held (h.table t) ↔ h.Holds (.table t) (.ref r) := by
  constructor
  · rintro mem
    rcases mem_held.mp mem with ⟨⟨k, v⟩, entry, is | is⟩ | ⟨m, named, rfl⟩
    · obtain ⟨rfl, present⟩ := Table.mem_toList.mp entry
      exact is ▸ .key present
    · obtain ⟨rfl, _⟩ := Table.mem_toList.mp entry
      exact is ▸ .value k
    · exact .metatable named
  · intro holds
    generalize is : Value.ref r = v at holds
    rw [mem_held]
    cases holds with
    | @key _ k present => exact .inl ⟨_, Table.mem_toList.mpr ⟨rfl, present⟩, .inl is.symm⟩
    | @value _ k => exact .inl ⟨(k, _), Table.mem_toList.mpr ⟨rfl, is ▸ nofun⟩, .inr is.symm⟩
    | metatable named => exact .inr ⟨_, named, (Value.ref.inj is).symm⟩

/-- Whatever can be reached is mentioned. -/
theorem mentioned_of_reaches {r : Ref} (reached : h.Reaches r) : r ∈ mentioned h := by
  cases reached with
  | root => exact List.mem_cons_self ..
  | @step s _ _ holds =>
    cases s with
    | table t => exact mentioned_of_held (mem_held_iff.mpr holds)
    | closure c =>
      generalize is : Value.ref r = v at holds
      cases holds with
      | captured _ => exact mentioned_of_cell is.symm
    | _ => cases holds

/-- A survey has no more objects than are mentioned. -/
theorem Survey.Valid.size_le (valid : s.Valid h) : s.objects.size ≤ (mentioned h).length := by
  rw [← Array.length_toList]
  exact (List.subperm_of_subset valid.nodup fun r mem => mentioned_of_reaches (valid.reached r mem)).length_le

/-- The survey that a listing ends with. -/
theorem capture_eq_ok {l : Listing} (done : capture h = .ok l) : ∃ s₁ s : Survey,
    refer (.table Fixed.globals) {} = .ok (.object 1, s₁) ∧
      recordsFrom h (mentioned h).length 1 s₁ = .ok (l, s) := by
  unfold capture at done
  change Prod.fst <$> _ = _ at done
  cases walked : (do
      let _ ← refer (.table Fixed.globals)
      recordsFrom h (mentioned h).length 1 : SurveyM Listing) {} with
  | error e =>
    rw [walked] at done
    cases done
  | ok r =>
    obtain ⟨l', s⟩ := r
    rw [walked] at done
    cases done
    obtain ⟨x, s₁, first, others⟩ := SurveyM.bind_eq_ok walked
    cases first
    exact ⟨_, s, rfl, others⟩

/-- A listing is made by a survey that starts with the global table and describes the heap when it ends. -/
theorem exists_survey {l : Listing} (done : capture h = .ok l) : ∃ s₁ s : Survey, s₁.Valid h ∧ s₁.Before 1 1 ∧
    recordsFrom h (mentioned h).length 1 s₁ = .ok (l, s) ∧ s.Valid h ∧
    Describes h s.objects.toList (fun c => s.owners[c]?.getD (0, 0)) l := by
  obtain ⟨s₁, s, first, others⟩ := capture_eq_ok done
  obtain ⟨valid, _, owners, root⟩ := refer_spec (Survey.valid_empty h) (fun r is => Value.ref.inj is ▸ .root) first
  have start : ({} : Survey).Before 1 1 := fun c p here => by simp at here
  obtain ⟨valid', grows, listed, ended, records⟩ :=
    recordsFrom_spec (o := 0) valid (start.of_owners owners) (Nat.zero_le _) others
  have size := valid'.size_le
  have covers : s.Covers s.objects.toList fun c => s.owners[c]?.getD (0, 0) :=
    ⟨List.prefix_rfl, fun c p here => by simp [here]⟩
  refine ⟨s₁, s, valid, start.of_owners owners, others, valid', valid'.nodup, ?_, ?_, ?_⟩
  · cases root with
    | object here => exact getElem?_later grows.objects here
  · have same : s.objects.toList.length = s.objects.size := Array.length_toList
    omega
  · intro n r rec here found
    have := records _ _ covers n r rec (by rwa [Nat.zero_add]) found
    rwa [Nat.zero_add] at this

/-- A listing describes the heap, and lists nothing but what can be reached. -/
theorem describes_capture {l : Listing} (done : capture h = .ok l) :
    ∃ objs owner, Describes h objs owner l ∧ ∀ r ∈ objs, h.Reaches r := by
  obtain ⟨_, s, _, _, _, valid, d⟩ := exists_survey done
  exact ⟨_, _, d, valid.reached⟩

/-! ### Heaps that can be listed -/

/-- Can an object be listed? Of those that are no tables and no functions of a script only library
values can. -/
def canList : Ref → Bool
  | .table _ => true
  | .closure _ => true
  | r => (Fixed.pathOf? (.ref r)).isSome

theorem unlisted?_eq_none {r : Ref} (listed : canList r = true) : unlisted? r = none := by
  cases r with
  | handle id => simpa [unlisted?, canList, Option.isSome_iff_ne_none] using listed
  | thread id => cases listed
  | cell id => cases listed
  | _ => rfl

section Total

variable {α β : Type}

theorem SurveyM.bind_total {act : SurveyM α} {next : α → SurveyM β} (first : ∃ p, act s = .ok p)
    (others : ∀ a s₁, act s = .ok (a, s₁) → ∃ p, next a s₁ = .ok p) : ∃ p, (act >>= next) s = .ok p := by
  obtain ⟨⟨a, s₁⟩, done⟩ := first
  obtain ⟨p, done'⟩ := others a s₁ done
  refine ⟨p, ?_⟩
  change (act s >>= fun r => next r.1 r.2) = _
  rw [done]
  exact done'

end Total

theorem place_total (r : Ref) (s : Survey) : ∃ p, place r s = .ok p := by
  unfold place
  refine SurveyM.bind_total ⟨_, rfl⟩ fun a s₁ got => ?_
  cases got
  cases s.places.get? r <;> exact ⟨_, rfl⟩

theorem refer_total {v : Value} (s : Survey) (listed : ∀ r, v = .ref r → canList r = true) : ∃ p, refer v s = .ok p := by
  cases v with
  | ref r =>
    rw [refer, unlisted?_eq_none (listed r rfl)]
    exact SurveyM.bind_total (place_total r s) fun _ _ _ => ⟨_, rfl⟩
  | _ => exact ⟨_, rfl⟩

theorem referEntries_total {kvs : List (Key × Value)} (s : Survey)
    (listed : ∀ kv ∈ kvs, (∀ r, kv.1.value = .ref r → canList r = true) ∧ ∀ r, kv.2 = .ref r → canList r = true) :
    ∃ p, kvs.mapM referEntry s = .ok p := by
  induction kvs generalizing s with
  | nil => exact ⟨_, rfl⟩
  | cons kv kvs ih =>
    have here := listed kv (List.mem_cons_self ..)
    rw [List.mapM_cons]
    refine SurveyM.bind_total ?_ fun _ s₁ _ => ?_
    · refine SurveyM.bind_total (refer_total s here.1) fun _ s₁ _ => ?_
      exact SurveyM.bind_total (refer_total s₁ here.2) fun _ _ _ => ⟨_, rfl⟩
    · refine SurveyM.bind_total (ih s₁ fun kv mem => listed kv (List.mem_cons_of_mem _ mem)) fun _ _ _ => ⟨_, rfl⟩

theorem referUpvalues_total {o i : Nat} {cells : List Nat} (s : Survey)
    (listed : ∀ c ∈ cells, ∀ r, h.cell c = .ref r → canList r = true) : ∃ p, referUpvalues h o i cells s = .ok p := by
  induction cells generalizing s i with
  | nil => exact ⟨_, rfl⟩
  | cons c cells ih =>
    refine SurveyM.bind_total ?_ fun _ s₁ _ => ?_
    · refine SurveyM.bind_total ⟨_, rfl⟩ fun a s₁ got => ?_
      cases got
      cases s.owners.get? c with
      | some p => exact ⟨_, rfl⟩
      | none =>
        refine SurveyM.bind_total ⟨_, rfl⟩ fun _ s₁ _ => ?_
        exact SurveyM.bind_total (refer_total s₁ (listed c (List.mem_cons_self ..))) fun _ _ _ => ⟨_, rfl⟩
    · exact SurveyM.bind_total (ih s₁ fun c mem => listed c (List.mem_cons_of_mem _ mem)) fun _ _ _ => ⟨_, rfl⟩

variable (listed : ∀ r, h.Reaches r → canList r = true)
include listed

theorem record_total {n : Nat} {r : Ref} (s : Survey) (reached : h.Reaches r) : ∃ p, record h n r s = .ok p := by
  have leaf (path : canList r = (Fixed.pathOf? (.ref r)).isSome) : ∃ p, Fixed.pathOf? (.ref r) = some p :=
    Option.isSome_iff_exists.mp (path ▸ listed r reached)
  cases r with
  | table id =>
    refine SurveyM.bind_total (referEntries_total s ?_) fun _ s₁ _ => ?_
    · intro kv mem
      obtain ⟨key, value⟩ := reaches_entry reached mem
      exact ⟨fun r is => listed r (key r is), fun r is => listed r (value r is)⟩
    · refine SurveyM.bind_total ?_ fun _ _ _ => ⟨_, rfl⟩
      cases (h.table id).metatable with
      | none => exact ⟨_, rfl⟩
      | some m =>
        have total := refer_total (v := .table m) s₁ fun r is => Value.ref.inj is ▸ rfl
        change ∃ p, (refer (.table m) >>= fun x => pure (some x)) s₁ = _
        exact SurveyM.bind_total total fun _ _ _ => ⟨_, rfl⟩
  | closure id =>
    refine SurveyM.bind_total (referUpvalues_total s ?_) fun _ _ _ => ⟨_, rfl⟩
    intro c mem r is
    obtain ⟨i, here⟩ := List.getElem?_of_mem mem
    have held := Heap.Holds.captured (h := h) (Array.getElem?_toList ▸ here)
    exact listed r (.step reached (is ▸ held))
  | _ =>
    obtain ⟨p, path⟩ := leaf rfl
    rw [record_eq_of_leaf (by simp [Ref.sort, Ref.rank]), path]
    exact ⟨_, rfl⟩

theorem recordsFrom_total {fuel o : Nat} {s : Survey} (valid : s.Valid h) (before : s.Before (o + 1) 1) :
    ∃ p, recordsFrom h fuel (o + 1) s = .ok p := by
  induction fuel generalizing s o with
  | zero => exact ⟨_, rfl⟩
  | succ fuel ih =>
    rw [recordsFrom]
    refine SurveyM.bind_total ⟨_, rfl⟩ fun a s₁ got => ?_
    cases got
    rw [Nat.add_sub_cancel]
    cases here : s.objects[o]? with
    | none => exact ⟨_, rfl⟩
    | some r =>
      rw [← Array.getElem?_toList] at here
      have reached := valid.reached r (List.mem_of_getElem? here)
      refine SurveyM.bind_total (record_total listed s reached) fun rec s₁ done => ?_
      obtain ⟨valid₁, _, before₁, _⟩ := record_spec valid here before done
      exact SurveyM.bind_total (ih valid₁ before₁) fun _ _ _ => ⟨_, rfl⟩

/-- There is a listing if everything that can be reached can be listed. -/
theorem exists_capture : ∃ l, capture h = .ok l := by
  have walked : ∃ p, (do
      let _ ← refer (.table Fixed.globals)
      recordsFrom h (mentioned h).length 1 : SurveyM Listing) {} = .ok p := by
    refine SurveyM.bind_total (refer_total {} fun r is => Value.ref.inj is ▸ rfl) fun x s₁ first => ?_
    obtain ⟨valid, _, owners, _⟩ := refer_spec (Survey.valid_empty h) (fun r is => Value.ref.inj is ▸ .root) first
    have start : ({} : Survey).Before 1 1 := fun c p here => by simp at here
    exact recordsFrom_total listed (o := 0) valid (start.of_owners owners)
  obtain ⟨⟨l, s⟩, done⟩ := walked
  refine ⟨l, ?_⟩
  unfold capture
  change Prod.fst <$> _ = _
  rw [done]
  rfl

end LuaCapsule.Snapshot
