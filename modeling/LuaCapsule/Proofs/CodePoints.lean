import LuaCapsule.Lua.Library.CodePoints
import LuaCapsule.Proofs.HostRuns

/-! Strict reading of code points. What is read at a position is a character exactly if the bytes from there
on begin with the encoding of that character; so counting the code points of a byte string comes to its
end exactly if the string is the encoding of a text. -/

namespace LuaCapsule.Utf8

open String (utf8EncodeChar)

variable {b : Bytes} {c : Char} {i n code next : Nat}

/-- The bytes from a position on. -/
def rest (b : Bytes) (i : Nat) : List UInt8 := b.data.toList.drop i

theorem at0_add (b : Bytes) (i j : Nat) : b.at0 (i + j) = (rest b i).getD j 0 := by
  rw [rest, List.getD_eq_getElem?_getD, List.getElem?_drop, Bytes.at0]
  split
  next inside =>
    rw [List.getElem?_eq_getElem (by simpa using inside)]
    rfl
  next outside =>
    rw [List.getElem?_eq_none (by simpa using outside)]
    rfl

theorem rest_eq_cons (inside : i < b.size) : rest b i = b.at0 i :: rest b (i + 1) := by
  have bound : i < b.data.toList.length := by simpa using inside
  rw [rest, List.drop_eq_getElem_cons bound, Bytes.at0, dif_pos inside]
  rfl

/-! ### Single bytes -/

theorem isContinuation_iff {x : UInt8} : isContinuation x = true ↔ 128 ≤ x.toNat ∧ x.toNat < 192 := by
  have all : ∀ n : Fin 256, isContinuation (UInt8.ofNat n) = true ↔ 128 ≤ n.val ∧ n.val < 192 := by decide +kernel
  have here := all ⟨x.toNat, x.toNat_lt⟩
  rwa [UInt8.ofNat_toNat] at here

theorem following?_eq_some {x : UInt8} : following? x = some n ↔
    n = 0 ∧ x.toNat < 128 ∨ n = 1 ∧ 192 ≤ x.toNat ∧ x.toNat < 224 ∨ n = 2 ∧ 224 ≤ x.toNat ∧ x.toNat < 240 ∨
      n = 3 ∧ 240 ≤ x.toNat ∧ x.toNat < 248 ∨ n = 4 ∧ 248 ≤ x.toNat ∧ x.toNat < 252 ∨ n = 5 ∧ 252 ≤ x.toNat ∧ x.toNat < 254 := by
  unfold following?
  simp only [UInt8.lt_iff_toNat_lt, UInt8.reduceToNat]
  repeat' split
  all_goals
    simp only [Option.some.injEq, reduceCtorEq, false_iff]
    omega

theorem continued_succ {acc : Nat} : continued b (n + 1) i acc = some code ↔
    (128 ≤ (b.at0 i).toNat ∧ (b.at0 i).toNat < 192) ∧ continued b n (i + 1) (acc * 64 + (b.at0 i).toNat % 64) = some code := by
  rw [continued, ← isContinuation_iff]
  split
  next is => rw [and_iff_right is]
  next is => simp [is]

theorem decode?_eq_some : decode? b false i = some (code, next) ↔ ∃ n, following? (b.at0 i) = some n ∧
    continued b n (i + 1) (if n == 0 then (b.at0 i).toNat else (b.at0 i).toNat % Nat.pow 2 (6 - n)) = some code ∧
    least n ≤ code ∧ code ≤ 0x10ffff ∧ ¬(0xd800 ≤ code ∧ code ≤ 0xdfff) ∧ next = i + n + 1 := by
  unfold decode?
  simp only [Option.bind_eq_bind, Option.bind_eq_some_iff]
  refine exists_congr fun n => and_congr_right fun _ => ?_
  constructor
  · rintro ⟨code', read, fits⟩
    split at fits
    · cases fits
    · split at fits
      · cases fits
      next enough valid =>
        cases fits
        simp only [Bool.not_false, Bool.true_and, Bool.or_eq_true, Bool.and_eq_true, decide_eq_true_eq] at valid
        exact ⟨read, by omega, by omega, by omega, rfl⟩
  · rintro ⟨read, enough, small, plain, rfl⟩
    refine ⟨code, read, ?_⟩
    rw [if_neg (by omega), if_neg]
    simp only [Bool.not_false, Bool.true_and, Bool.or_eq_true, Bool.and_eq_true, decide_eq_true_eq]
    omega

/-! ### Characters -/

theorem valid_char (c : Char) : c.toNat < 0xd800 ∨ 0xdfff < c.toNat ∧ c.toNat < 0x110000 := c.valid

theorem encode_one (bound : c.toNat ≤ 0x7f) : utf8EncodeChar c = [.ofNat c.toNat] := if_pos bound

theorem encode_two (bound : 0x7f < c.toNat ∧ c.toNat ≤ 0x7ff) :
    utf8EncodeChar c = [.ofNat (c.toNat / 64 % 32 + 192), .ofNat (c.toNat % 64 + 128)] :=
  (if_neg (Nat.not_le_of_lt bound.1)).trans (if_pos bound.2)

theorem encode_three (bound : 0x7ff < c.toNat ∧ c.toNat ≤ 0xffff) : utf8EncodeChar c =
    [.ofNat (c.toNat / 4096 % 16 + 224), .ofNat (c.toNat / 64 % 64 + 128), .ofNat (c.toNat % 64 + 128)] :=
  (if_neg (show ¬c.toNat ≤ 0x7f by omega)).trans ((if_neg (Nat.not_le_of_lt bound.1)).trans (if_pos bound.2))

theorem encode_four (bound : 0xffff < c.toNat) : utf8EncodeChar c =
    [.ofNat (c.toNat / 262144 % 8 + 240), .ofNat (c.toNat / 4096 % 64 + 128), .ofNat (c.toNat / 64 % 64 + 128),
      .ofNat (c.toNat % 64 + 128)] :=
  (if_neg (show ¬c.toNat ≤ 0x7f by omega)).trans
    ((if_neg (show ¬c.toNat ≤ 0x7ff by omega)).trans (if_neg (Nat.not_le_of_lt bound)))

/-- Where the encoding of a character stands, the character is read. -/
theorem decode?_of_rest {bs : List UInt8} (here : rest b i = utf8EncodeChar c ++ bs) :
    decode? b false i = some (c.toNat, i + (utf8EncodeChar c).length) := by
  have valid := valid_char c
  have byte (j : Nat) : (b.at0 (i + j)).toNat = ((utf8EncodeChar c ++ bs).getD j 0).toNat := by rw [at0_add, here]
  have first : (b.at0 i).toNat = _ := byte 0
  have second : (b.at0 (i + 1)).toNat = _ := byte 1
  have third : (b.at0 (i + 1 + 1)).toNat = _ := byte 2
  have fourth : (b.at0 (i + 1 + 1 + 1)).toNat = _ := byte 3
  rw [decode?_eq_some]
  obtain bound | bound | bound | bound : c.toNat ≤ 0x7f ∨ (0x7f < c.toNat ∧ c.toNat ≤ 0x7ff) ∨
      (0x7ff < c.toNat ∧ c.toNat ≤ 0xffff) ∨ 0xffff < c.toNat := by omega
  · rw [encode_one bound] at first second third fourth ⊢
    simp only [List.cons_append, List.getD_cons_zero, List.getD_cons_succ, UInt8.toNat_ofNat'] at first second third fourth
    refine ⟨0, following?_eq_some.mpr (by omega), ?_, Nat.zero_le _, by omega, by omega, rfl⟩
    exact congrArg some (show (b.at0 i).toNat = _ by omega)
  · rw [encode_two bound] at first second third fourth ⊢
    simp only [List.cons_append, List.getD_cons_zero, List.getD_cons_succ, UInt8.toNat_ofNat'] at first second third fourth
    refine ⟨1, following?_eq_some.mpr (by omega), ?_, bound.1, by omega, by omega, rfl⟩
    change continued b 1 (i + 1) ((b.at0 i).toNat % 32) = _
    rw [continued_succ, continued]
    exact ⟨by omega, congrArg some (by omega)⟩
  · rw [encode_three bound] at first second third fourth ⊢
    simp only [List.cons_append, List.getD_cons_zero, List.getD_cons_succ, UInt8.toNat_ofNat'] at first second third fourth
    refine ⟨2, following?_eq_some.mpr (by omega), ?_, bound.1, by omega, by omega, rfl⟩
    change continued b 2 (i + 1) ((b.at0 i).toNat % 16) = _
    rw [continued_succ, continued_succ, continued]
    exact ⟨by omega, by omega, congrArg some (by omega)⟩
  · rw [encode_four bound] at first second third fourth ⊢
    simp only [List.cons_append, List.getD_cons_zero, List.getD_cons_succ, UInt8.toNat_ofNat'] at first second third fourth
    refine ⟨3, following?_eq_some.mpr (by omega), ?_, bound, by omega, by omega, rfl⟩
    change continued b 3 (i + 1) ((b.at0 i).toNat % 8) = _
    rw [continued_succ, continued_succ, continued_succ, continued]
    exact ⟨by omega, by omega, by omega, congrArg some (by omega)⟩

/-- A code point that is no surrogate and not beyond Unicode is that of a character. -/
theorem exists_toNat (small : code ≤ 0x10ffff) (plain : ¬(0xd800 ≤ code ∧ code ≤ 0xdfff)) : ∃ c : Char, c.toNat = code := by
  have valid : code.isValidChar := by
    unfold Nat.isValidChar
    omega
  exact ⟨Char.ofNatAux code valid, rfl⟩

theorem byte_eq {x : UInt8} {m : Nat} (same : m % 256 = x.toNat) : UInt8.ofNat m = x :=
  UInt8.toNat_inj.mp ((UInt8.toNat_ofNat').trans same)

/-- What is read is a character, and its encoding stands there. -/
theorem exists_char (read : decode? b false i = some (code, next)) (inside : i < b.size) :
    ∃ c : Char, next = i + (utf8EncodeChar c).length ∧ rest b i = utf8EncodeChar c ++ rest b next := by
  obtain ⟨n, follow, value, enough, small, plain, rfl⟩ := decode?_eq_some.mp read
  obtain ⟨c, rfl⟩ := exists_toNat small plain
  refine ⟨c, ?_⟩
  have more {j : Nat} (high : 128 ≤ (b.at0 j).toNat) : j < b.size := by
    refine Decidable.byContradiction fun beyond => ?_
    rw [Bytes.at0, dif_neg beyond] at high
    exact absurd high (by decide)
  rcases following?_eq_some.mp follow with ⟨rfl, range⟩ | ⟨rfl, range⟩ | ⟨rfl, range⟩ | ⟨rfl, range⟩ | ⟨rfl, range⟩ | ⟨rfl, range⟩
  · have value : (b.at0 i).toNat = c.toNat := Option.some.inj value
    rw [encode_one (by omega), rest_eq_cons inside, byte_eq (x := b.at0 i) (by omega)]
    exact ⟨rfl, rfl⟩
  · change continued b 1 (i + 1) ((b.at0 i).toNat % 32) = _ at value
    rw [continued_succ, continued, Option.some.injEq] at value
    obtain ⟨second, value⟩ := value
    have enough : 128 ≤ c.toNat := enough
    rw [encode_two (by omega), rest_eq_cons inside, rest_eq_cons (more second.1), byte_eq (x := b.at0 i) (by omega),
      byte_eq (x := b.at0 (i + 1)) (by omega)]
    exact ⟨rfl, rfl⟩
  · change continued b 2 (i + 1) ((b.at0 i).toNat % 16) = _ at value
    rw [continued_succ, continued_succ, continued, Option.some.injEq] at value
    obtain ⟨second, third, value⟩ := value
    have enough : 2048 ≤ c.toNat := enough
    rw [encode_three (by omega), rest_eq_cons inside, rest_eq_cons (more second.1), rest_eq_cons (more third.1),
      byte_eq (x := b.at0 i) (by omega), byte_eq (x := b.at0 (i + 1)) (by omega), byte_eq (x := b.at0 (i + 1 + 1)) (by omega)]
    exact ⟨rfl, rfl⟩
  · change continued b 3 (i + 1) ((b.at0 i).toNat % 8) = _ at value
    rw [continued_succ, continued_succ, continued_succ, continued, Option.some.injEq] at value
    obtain ⟨second, third, fourth, value⟩ := value
    have enough : 65536 ≤ c.toNat := enough
    rw [encode_four (by omega), rest_eq_cons inside, rest_eq_cons (more second.1), rest_eq_cons (more third.1),
      rest_eq_cons (more fourth.1), byte_eq (x := b.at0 i) (by omega), byte_eq (x := b.at0 (i + 1)) (by omega),
      byte_eq (x := b.at0 (i + 1 + 1)) (by omega), byte_eq (x := b.at0 (i + 1 + 1 + 1)) (by omega)]
    exact ⟨rfl, rfl⟩
  -- Five and six bytes are for code points beyond Unicode.
  · exact absurd (Nat.le_trans (show 0x200000 ≤ c.toNat from enough) small) (by decide)
  · exact absurd (Nat.le_trans (show 0x4000000 ≤ c.toNat from enough) small) (by decide)

/-- A byte string is the encoding of some characters exactly if it is that of a text. -/
theorem exists_text : (∃ cs : List Char, b.data.toList = cs.flatMap utf8EncodeChar) ↔ ∃ s, b = Bytes.ofString s := by
  constructor
  · rintro ⟨cs, is⟩
    refine ⟨String.ofList cs, ByteArray.ext (Array.toList_inj.mp ?_)⟩
    rw [is]
    exact (List.toList_data_toByteArray (l := cs.flatMap utf8EncodeChar)).symm
  · rintro ⟨s, rfl⟩
    refine ⟨s.toList, ?_⟩
    rw [← List.toList_data_toByteArray (l := s.toList.flatMap utf8EncodeChar)]
    refine congrArg (fun b : ByteArray => b.data.toList) ?_
    show s.toByteArray = s.toList.utf8Encode
    rw [← String.toByteArray_ofList, String.ofList_toList]

end LuaCapsule.Utf8

namespace LuaCapsule.Lua.CodePoints

open Utf8
open String (utf8EncodeChar)

variable {b : Bytes} {i n : Nat}

theorem length_rest (b : Bytes) (i : Nat) : (rest b i).length = b.size - i := by
  rw [rest, List.length_drop]
  rfl

theorem rest_add {bs bs' : List UInt8} (here : rest b i = bs ++ bs') : rest b (i + bs.length) = bs' := by
  rw [rest, ← List.drop_drop, ← rest, here, List.drop_left]

/-- Counting comes to the end of characters that are encoded. -/
theorem countFrom_of_rest (cs : List Char) : ∀ {fuel i n : Nat}, rest b i = cs.flatMap utf8EncodeChar → b.size < i + fuel →
    countFrom b false (b.size - 1) fuel i n = .ok (n + cs.length) := by
  induction cs with
  | nil =>
    intro fuel i n here enough
    have size := length_rest b i
    rw [here, List.flatMap_nil, List.length_nil] at size
    cases fuel with
    | zero => rfl
    | succ fuel =>
      rw [countFrom, if_pos (by omega)]
      rfl
  | cons c cs ih =>
    intro fuel i n here enough
    rw [List.flatMap_cons] at here
    have size := length_rest b i
    have positive := c.utf8Size_pos
    rw [here, List.length_append, String.length_utf8EncodeChar] at size
    have later := rest_add here
    rw [String.length_utf8EncodeChar] at later
    cases fuel with
    | zero => omega
    | succ fuel =>
      rw [countFrom, if_neg (by omega), decode?_of_rest here, String.length_utf8EncodeChar]
      refine (ih later (by omega)).trans ?_
      rw [List.length_cons, Nat.add_right_comm, Nat.add_assoc]

/-- Where counting comes to the end, characters are encoded. -/
theorem exists_of_countFrom : ∀ {fuel i n m : Nat}, countFrom b false (b.size - 1) fuel i n = .ok m → b.size < i + fuel →
    ∃ cs : List Char, rest b i = cs.flatMap utf8EncodeChar := by
  intro fuel
  induction fuel with
  | zero =>
    intro i n m _ beyond
    exact ⟨[], List.drop_eq_nil_of_le (Nat.le_of_lt beyond)⟩
  | succ fuel ih =>
    intro i n m counted enough
    rw [countFrom] at counted
    split at counted
    next done =>
      have beyond : b.data.toList.length ≤ i := show b.size ≤ i by omega
      exact ⟨[], List.drop_eq_nil_of_le beyond⟩
    next more =>
      split at counted
      next code next read =>
        obtain ⟨c, is, here⟩ := exists_char read (by omega)
        have positive := c.utf8Size_pos
        rw [String.length_utf8EncodeChar] at is
        obtain ⟨cs, others⟩ := ih counted (by omega)
        exact ⟨c :: cs, by rw [here, others, List.flatMap_cons]⟩
      next => cases counted

/-- The length of a byte string in code points is a number exactly if the string is text. -/
theorem len_spec (s : Site) (text : s.arguments = [.str b]) (st : State) : ∃ rs, len s st = .ok rs st ∧
    ((rs.headD .nil).truthy = true ↔ ∃ t, b = Bytes.ofString t) := by
  have string : s.checkString 1 = pure b := by
    unfold Site.checkString Site.arg Site.arg?
    rw [text]
    rfl
  have start : s.optInt 2 1 = pure 1 := by
    unfold Site.optInt Site.isAbsent Site.arg Site.arg?
    rw [text]
    rfl
  have stop : s.optInt 3 (-1) = pure (-1) := by
    unfold Site.optInt Site.isAbsent Site.arg Site.arg?
    rw [text]
    rfl
  have strict : (s.arg 4).truthy = false := by
    unfold Site.arg Site.arg?
    rw [text]
    rfl
  have last : relative (-1) b.size - 1 = b.size - 1 := by
    unfold relative
    split <;> omega
  have counted : (∃ m, countFrom b false (b.size - 1) (b.size + 1) 0 0 = .ok m) ↔ ∃ t, b = Bytes.ofString t := by
    rw [← exists_text]
    constructor
    · rintro ⟨_, counted⟩
      exact exists_of_countFrom counted (by omega)
    · rintro ⟨cs, is⟩
      exact ⟨_, countFrom_of_rest cs is (by omega)⟩
  have first : relative 1 b.size = 1 := rfl
  have bounds : (decide ((1 : Int) ≤ 1) && decide ((1 : Int) - 1 ≤ b.size)) = true := by simp
  unfold len
  simp only [string, start, stop, pure_bind, strict, last, first]
  rw [if_pos bounds, if_pos (by omega), ← counted, show ((1 : Int) - 1).toNat = 0 from rfl]
  cases countFrom b false (b.size - 1) (b.size + 1) 0 0 with
  | ok m => exact ⟨_, rfl, fun _ => ⟨m, rfl⟩, fun _ => rfl⟩
  | error i => exact ⟨_, rfl, nofun, nofun⟩

end LuaCapsule.Lua.CodePoints
