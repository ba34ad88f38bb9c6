import LuaCapsule.Proofs.Rounding
import LuaCapsule.Snapshot.Record
import Mathlib.Data.List.TakeWhile

/-! Bytes and doubles are read back from their spelling in a listing. A double is spelled with
all its digits, so that what is read is the very same one; only of what is not a number nothing
but that is kept. -/

namespace LuaCapsule

/-! ### Digits -/

namespace Numeral

/-- The bytes of characters below 128. -/
def ascii (cs : List Char) : List UInt8 := cs.map fun c => c.toNat.toUInt8

theorem toList_ofString {cs : List Char} (h : ∀ c ∈ cs, c.toNat < 128) :
    (Bytes.ofString (String.ofList cs)).data.toList = ascii cs := by
  induction cs with
  | nil => rfl
  | cons c cs ih =>
    have low := h c (List.mem_cons_self ..)
    have one : String.utf8EncodeChar c = [c.toNat.toUInt8] := by
      refine String.utf8EncodeChar_eq_singleton (Char.utf8Size_eq_one_iff.mpr ?_)
      rw [UInt32.le_iff_toNat_le]
      exact Nat.le_of_lt_succ low
    have others := ih fun c mem => h c (List.mem_cons_of_mem _ mem)
    rw [Bytes.ofString, String.toUTF8, String.toByteArray_ofList, List.utf8Encode, List.data_toByteArray] at others ⊢
    rw [List.flatMap_cons, one, ascii, List.map_cons, List.singleton_append]
    exact congrArg (_ :: ·) others

theorem valueIn_append (base : Nat) (as bs : List UInt8) :
    valueIn base (as ++ bs) = valueIn base as * base ^ bs.length + valueIn base bs := by
  have from' (bs : List UInt8) (start : Nat) :
      bs.foldl (fun n c => n * base + Bytes.hexValue c) start
        = start * base ^ bs.length + valueIn base bs := by
    induction bs generalizing start with
    | nil => simp [valueIn]
    | cons b bs ih =>
      have first : valueIn base (b :: bs) = Bytes.hexValue b * base ^ bs.length + valueIn base bs := by
        rw [valueIn, List.foldl_cons, Nat.zero_mul, Nat.zero_add, ih]
      rw [List.foldl_cons, ih, first, List.length_cons, Nat.pow_succ', Nat.add_mul, Nat.mul_assoc,
        Nat.add_assoc]
  rw [valueIn, List.foldl_append, from' bs]
  rfl

/-- A hexadecimal digit in lower case. -/
def IsHex (c : Char) : Prop := c.toNat < 128 ∧ Bytes.isHexDigit c.toNat.toUInt8 = true

theorem digitChar_hex {d : Nat} (small : d < 16) :
    IsHex (Printf.digitChar false d) ∧ Bytes.hexValue (Printf.digitChar false d).toNat.toUInt8 = d := by
  have all : ∀ d : Fin 16, (Printf.digitChar false d).toNat < 128 ∧
      Bytes.isHexDigit (Printf.digitChar false d).toNat.toUInt8 = true ∧
      Bytes.hexValue (Printf.digitChar false d).toNat.toUInt8 = d.val := by
    decide
  obtain ⟨low, hex, value⟩ := all ⟨d, small⟩
  exact ⟨⟨low, hex⟩, value⟩

theorem inBase_go (fuel : Nat) {n k : Nat} (enough : n < 16 ^ fuel) (short : n < 16 ^ k) (some' : 0 < k)
    (acc : List Char) :
    ∃ ds, Printf.inBase.go 16 false fuel n acc = ds ++ acc ∧ (∀ c ∈ ds, IsHex c) ∧
      valueIn 16 (ascii ds) = n ∧ ds.length ≤ k := by
  induction fuel generalizing n k acc with
  | zero =>
    obtain rfl : n = 0 := by simpa using enough
    exact ⟨[], rfl, by simp, rfl, Nat.zero_le _⟩
  | succ fuel ih =>
    obtain ⟨hex, value⟩ := digitChar_hex (d := n % 16) (Nat.mod_lt _ (by decide))
    rw [Printf.inBase.go]
    split
    next small =>
      refine ⟨[Printf.digitChar false (n % 16)], rfl, by simpa using hex, ?_, some'⟩
      simp only [ascii, valueIn, List.map_cons, List.map_nil, List.foldl_cons, List.foldl_nil, value]
      omega
    next large =>
      obtain ⟨k, rfl⟩ : ∃ k', k = k' + 2 := ⟨k - 2, by
        rcases k with _ | _ | k
        · omega
        · omega
        · rfl⟩
      rw [Nat.pow_succ] at enough short
      obtain ⟨ds, form, hexes, total, length⟩ := ih (n := n / 16) (k := k + 1) (by omega)
        (by omega) (by omega) (Printf.digitChar false (n % 16) :: acc)
      refine ⟨ds ++ [Printf.digitChar false (n % 16)], by rw [form]; simp, ?_, ?_, by simp; omega⟩
      · intro c mem
        rcases List.mem_append.mp mem with mem | mem
        · exact hexes c mem
        · exact List.mem_singleton.mp mem ▸ hex
      · rw [ascii, List.map_append, valueIn_append]
        change valueIn 16 (ascii ds) * _ + valueIn 16 [_] = n
        rw [total]
        simp only [valueIn, List.foldl_cons, List.foldl_nil, value, List.map_cons, List.map_nil, List.length_cons, List.length_nil]
        omega

theorem toList_inBase (n : Nat) : (Printf.inBase 16 false n).toList = Printf.inBase.go 16 false 64 n [] :=
  String.toList_ofList

/-- Thirteen digits, without the zeros at their end. -/
theorem fraction_digits {n : Nat} (small : n < 16 ^ 13) :
    ∃ ds j, (let full := Printf.inBase 16 false n
      let full := Printf.zeros (13 - full.length) ++ full
      String.ofList ((full.toList.reverse.dropWhile (· == '0')).reverse)) = String.ofList ds ∧
      (∀ c ∈ ds, IsHex c) ∧ ds.length + j = 13 ∧ valueIn 16 (ascii ds) * 16 ^ j = n := by
  obtain ⟨ds, form, hexes, total, length⟩ := inBase_go 64
    (Nat.lt_of_lt_of_le small (Nat.pow_le_pow_right (by decide) (by decide))) small (by decide) []
  rw [List.append_nil] at form
  obtain ⟨full, padded⟩ : ∃ full, full = List.replicate (13 - ds.length) '0' ++ ds := ⟨_, rfl⟩
  have zero : IsHex '0' := ⟨by decide, by decide⟩
  have chars : ∀ c ∈ full, IsHex c := by
    intro c mem
    rw [padded] at mem
    rcases List.mem_append.mp mem with mem | mem
    · exact (List.mem_replicate.mp mem).2 ▸ zero
    · exact hexes c mem
  have zeros (j : Nat) : valueIn 16 (ascii (List.replicate j '0')) = 0 := by
    induction j with
    | zero => rfl
    | succ j ih =>
      rw [List.replicate_succ', ascii, List.map_append, valueIn_append]
      change valueIn 16 (ascii _) * _ + 0 = 0
      rw [ih, Nat.zero_mul]
  have value : valueIn 16 (ascii full) = n := by
    rw [padded, ascii, List.map_append, valueIn_append]
    change valueIn 16 (ascii _) * _ + valueIn 16 (ascii ds) = n
    rw [zeros, Nat.zero_mul, Nat.zero_add, total]
  have kept : full = (full.reverse.dropWhile (· == '0')).reverse
      ++ List.replicate (full.reverse.takeWhile (· == '0')).length '0' := by
    have all : full.reverse.takeWhile (· == '0') = List.replicate (full.reverse.takeWhile (· == '0')).length '0' := by
      rw [List.eq_replicate_iff]
      exact ⟨rfl, fun c mem => by simpa using List.all_eq_true.mp List.all_takeWhile c mem⟩
    have whole := List.takeWhile_append_dropWhile (p := (· == '0')) (l := full.reverse)
    rw [← List.reverse_inj, List.reverse_append, List.reverse_reverse, List.reverse_replicate, ← all, whole]
  refine ⟨(full.reverse.dropWhile (· == '0')).reverse, (full.reverse.takeWhile (· == '0')).length, ?_, ?_, ?_, ?_⟩
  · dsimp only
    rw [String.toList_append, toList_inBase, form, Printf.zeros, String.toList_ofList, ← String.length_toList,
      toList_inBase, form, ← padded]
  · intro c mem
    refine chars c ?_
    rw [kept]
    exact List.mem_append_left _ mem
  · have := congrArg List.length kept
    rw [List.length_append, List.length_replicate] at this
    rw [← this, padded, List.length_append, List.length_replicate]
    omega
  · rw [kept, ascii, List.map_append, valueIn_append] at value
    change valueIn 16 (ascii _) * 16 ^ (List.map _ _).length + valueIn 16 (ascii _) = n at value
    rw [zeros, List.length_map, List.length_replicate] at value
    exact value

end Numeral

/-! ### Hexadecimal doubles -/

namespace Printf

/-- The text of a hexadecimal double without its sign. -/
def hexChars (lead : Char) (ds : List Char) (e : Int) : List Char :=
  '0' :: 'x' :: lead :: ((if ds = [] then [] else '.' :: ds)
    ++ 'p' :: (if e < 0 then '-' else '+') :: Nat.toDigits 10 e.natAbs)

theorem hexBody_eq {y : Binary64} (lead : Nat) (leadChar : Char) {frac : Nat} {e : Int} {ds : List Char}
    (parts : (if y.isZero then (0, 0, 0)
      else if y.exponentField == 0 then (0, y.fraction, -1022)
      else (1, y.fraction, (y.exponentField : Int) - 1023) : Nat × Nat × Int) = (lead, frac, e))
    (leadText : (toString lead).toList = [leadChar])
    (digits : (let full := inBase 16 false frac
      let full := zeros (13 - full.length) ++ full
      String.ofList ((full.toList.reverse.dropWhile (· == '0')).reverse)) = String.ofList ds) :
    "0" ++ hexBody false false y none = String.ofList (hexChars leadChar ds e) := by
  have form : hexBody false false y none = "x" ++ toString lead
      ++ (if (String.ofList ds).isEmpty then "" else ".") ++ String.ofList ds ++ "p"
      ++ (if e < 0 then "-" else "+") ++ toString e.natAbs := by
    rw [hexBody, parts]
    dsimp only at digits ⊢
    rw [digits]
    simp
  have sign : (if e < 0 then "-" else "+" : String).toList = [if e < 0 then '-' else '+'] := by
    split <;> rfl
  have exponent : (toString e.natAbs).toList = Nat.toDigits 10 e.natAbs := Nat.toList_repr
  rw [form, ← String.toList_inj]
  simp only [String.toList_append, String.toList_ofList, leadText, sign, exponent]
  cases ds with
  | nil => rfl
  | cons d ds =>
    have some' : (String.ofList (d :: ds)).isEmpty = false := by
      rw [Bool.eq_false_iff]
      intro empty
      rw [String.isEmpty_iff, ← String.toList_inj, String.toList_ofList] at empty
      cases empty
    rw [some']
    simp [hexChars]

theorem hexadecimal_eq {x : Binary64} (finite : x.isFinite = true) :
    hexadecimal x = (if x.isNegative then "-" else "") ++ ("0" ++ hexBody false false x.abs none) := by
  have sign : ({} : Spec).sign x.isNegative = if x.isNegative then "-" else "" := by
    cases x.isNegative <;> rfl
  have filled (sign body : String) : ({} : Spec).fill true sign body = sign ++ body := by
    simp [Spec.fill, blanks]
  have lower : 'a'.toLower = 'a' := rfl
  have small : 'a'.isUpper = false := rfl
  unfold hexadecimal Spec.double
  simp only [finite, lower, small, sign, filled, Bool.not_true, Bool.false_eq_true, if_false,
    String.append_assoc]

end Printf

namespace Numeral

/-- Decimal digits are read up to their end. -/
theorem decimal_read (n : Nat) :
    (ascii (Nat.toDigits 10 n)).takeWhile Bytes.isDigit = ascii (Nat.toDigits 10 n) ∧
      (ascii (Nat.toDigits 10 n)).dropWhile Bytes.isDigit = [] ∧
      valueIn 10 (ascii (Nat.toDigits 10 n)) = n := by
  have digit {c : Char} (mem : c ∈ Nat.toDigits 10 n) : 48 ≤ c.toNat ∧ c.toNat ≤ 57 := by
    have := Nat.isDigit_of_mem_toDigits (by decide) (by decide) mem
    simpa [Char.isDigit, UInt32.le_iff_toNat_le] using this
  have byte {c : Char} (h : 48 ≤ c.toNat ∧ c.toNat ≤ 57) :
      Bytes.isDigit c.toNat.toUInt8 = true ∧ Bytes.hexValue c.toNat.toUInt8 = c.toNat - 48 := by
    have all : ∀ k : Fin 10, Bytes.isDigit (48 + k.val).toUInt8 = true ∧
        Bytes.hexValue (48 + k.val).toUInt8 = k.val := by
      decide
    have := all ⟨c.toNat - 48, by omega⟩
    rwa [show 48 + (c.toNat - 48) = c.toNat by omega] at this
  have digits : ∀ b ∈ ascii (Nat.toDigits 10 n), Bytes.isDigit b = true := by
    intro b mem
    obtain ⟨c, place, rfl⟩ := List.mem_map.mp mem
    exact (byte (digit place)).1
  refine ⟨?_, ?_, ?_⟩
  · exact List.takeWhile_eq_self_iff.mpr digits
  · exact List.dropWhile_eq_nil_iff.mpr digits
  · have same (cs : List Char) (h : ∀ c ∈ cs, 48 ≤ c.toNat ∧ c.toNat ≤ 57) (start : Nat) :
        (ascii cs).foldl (fun n c => n * 10 + Bytes.hexValue c) start = Nat.ofDigitChars 10 cs start := by
      induction cs generalizing start with
      | nil => rfl
      | cons c cs ih =>
        rw [ascii, List.map_cons, List.foldl_cons, Nat.ofDigitChars_cons,
          (byte (h c (List.mem_cons_self ..))).2, Nat.mul_comm]
        exact ih (fun c mem => h c (List.mem_cons_of_mem _ mem)) _
    rw [valueIn, same _ (fun c mem => digit mem)]
    exact Nat.ofDigitChars_ten_toDigits

/-- The bytes of a hexadecimal double after its first two characters. -/
def hexTail (lead : UInt8) (ds : List UInt8) (e : Int) : List UInt8 :=
  lead :: ((if ds = [] then [] else 46 :: ds) ++ 112 :: (if e < 0 then 45 else 43) :: ascii (Nat.toDigits 10 e.natAbs))

theorem bytes_hexChars {lead : Char} {ds : List Char} {e : Int} (leadHex : IsHex lead)
    (hex : ∀ c ∈ ds, IsHex c) (negative : Bool) :
    (Bytes.ofString ((if negative then "-" else "") ++ String.ofList (Printf.hexChars lead ds e))).data.toList
      = (if negative then [45] else []) ++ 48 :: 120 :: hexTail lead.toNat.toUInt8 (ascii ds) e := by
  have joined : (if negative then "-" else "") ++ String.ofList (Printf.hexChars lead ds e)
      = String.ofList ((if negative then ['-'] else []) ++ Printf.hexChars lead ds e) := by
    rw [← String.toList_inj, String.toList_append, String.toList_ofList, String.toList_ofList]
    cases negative <;> rfl
  have low : ∀ c ∈ (if negative then ['-'] else []) ++ Printf.hexChars lead ds e, c.toNat < 128 := by
    have digits : ∀ c ∈ Nat.toDigits 10 e.natAbs, c.toNat < 128 := by
      intro c mem
      have := Nat.isDigit_of_mem_toDigits (by decide) (by decide) mem
      simp only [Char.isDigit, Bool.and_eq_true, decide_eq_true_eq, UInt32.le_iff_toNat_le] at this
      have := this.2
      change c.toNat ≤ 57 at this
      omega
    have fraction : ∀ c ∈ (if ds = [] then [] else '.' :: ds), c.toNat < 128 := by
      intro c mem
      split at mem
      · cases mem
      · rcases List.mem_cons.mp mem with rfl | mem
        · decide
        · exact (hex c mem).1
    intro c mem
    rcases List.mem_append.mp mem with mem | mem
    · cases negative
      · cases mem
      · obtain rfl := List.mem_singleton.mp mem
        decide
    · simp only [Printf.hexChars, List.mem_cons, List.mem_append] at mem
      rcases mem with rfl | rfl | rfl | mem | rfl | rfl | mem
      · decide
      · decide
      · exact leadHex.1
      · exact fraction c mem
      · decide
      · split <;> decide
      · exact digits c mem
  rw [joined, toList_ofString low]
  cases negative <;> cases ds <;> by_cases e < 0 <;> simp [ascii, Printf.hexChars, hexTail, *]

theorem sign_read (negative : Bool) (rest : List UInt8) :
    sign (trimLeft ((if negative then [45] else []) ++ 48 :: rest)) = (negative, 48 :: rest) := by
  cases negative <;> rfl

theorem exponent_read (e : Int) :
    exponent 112 (112 :: (if e < 0 then 45 else 43) :: ascii (Nat.toDigits 10 e.natAbs)) = (e, []) := by
  obtain ⟨taken, dropped, value⟩ := decimal_read e.natAbs
  have some' : (ascii (Nat.toDigits 10 e.natAbs)).isEmpty = false := by
    rw [List.isEmpty_eq_false_iff]
    intro empty
    exact Nat.toDigits_ne_nil (List.map_eq_nil_iff.mp empty)
  have mark : (Bytes.toLower 112 == 112) = true := rfl
  by_cases negative : e < 0
  · simp only [exponent, mark, if_true, if_pos negative, sign, taken, dropped, some', value,
      Bool.false_eq_true, if_false]
    congr 1
    omega
  · simp only [exponent, mark, if_true, if_neg negative, sign, taken, dropped, some', value,
      Bool.false_eq_true, if_false]
    congr 1
    omega

/-- The hexadecimal form of a double is read as a double. -/
theorem read?_hexTail {lead : UInt8} {ds : List UInt8} {e : Int} (leadHex : Bytes.isHexDigit lead = true)
    (hex : ∀ b ∈ ds, Bytes.isHexDigit b = true) (negative : Bool) {b : Bytes}
    (bytes : b.data.toList = (if negative then [45] else []) ++ 48 :: 120 :: hexTail lead ds e) :
    read? b = some (.float (scaled negative (valueIn 16 (lead :: ds)) (e - 4 * ds.length))) := by
  have body (rest : List UInt8) : hexBody? (48 :: 120 :: rest) = some rest := rfl
  have mark : Bytes.isHexDigit 112 = false := rfl
  have point : Bytes.isHexDigit 46 = false := rfl
  have noInt : int? b.data.toList = none := by
    rw [bytes, int?, sign_read]
    dsimp only
    rw [body]
    cases ds with
    | nil => simp [hexTail, leadHex, mark, isBlank, Bytes.isSpace]
    | cons d ds => simp [hexTail, leadHex, point, isBlank, Bytes.isSpace]
  have split : pointed Bytes.isHexDigit (hexTail lead ds e)
      = ([lead], ds, 112 :: (if e < 0 then 45 else 43) :: ascii (Nat.toDigits 10 e.natAbs)) := by
    cases ds with
    | nil => simp [pointed, hexTail, leadHex, mark]
    | cons d ds =>
      obtain ⟨rest, tail⟩ : ∃ rest, rest =
        112 :: (if e < 0 then 45 else 43) :: ascii (Nat.toDigits 10 e.natAbs) := ⟨_, rfl⟩
      have first : (d :: ds ++ rest).takeWhile Bytes.isHexDigit = d :: ds ++ rest.takeWhile Bytes.isHexDigit :=
        List.takeWhile_append_of_pos hex
      have later : (d :: ds ++ rest).dropWhile Bytes.isHexDigit = rest.dropWhile Bytes.isHexDigit :=
        List.dropWhile_append_of_pos hex
      simp only [tail, List.takeWhile_cons, List.dropWhile_cons, mark, List.append_nil, Bool.false_eq_true,
        if_false] at first later
      rw [List.cons_append] at first later
      simp [pointed, hexTail, leadHex, point]
      exact ⟨first, later⟩
  rw [read?, noInt]
  dsimp only
  rw [bytes, float?, sign_read]
  dsimp only
  rw [body]
  dsimp only
  rw [split]
  dsimp only
  rw [exponent_read]
  simp [isBlank]

end Numeral

namespace Snapshot

/-! ### Doubles -/

/-- A significand with some of the digits of its fraction, the others being zeros. -/
theorem scaled_exact {x : Binary64} (finite : x.isFinite = true) {ds : List Char} {j : Nat}
    (length : ds.length + j = 13) {lead : Char} {e : Int} (low : -1022 ≤ e) (high : e ≤ 1024)
    {m : Nat} (total : Numeral.valueIn 16 (Numeral.ascii (lead :: ds)) * 16 ^ j = m) (positive : 0 < m)
    (units : Binary64.unitsOf x.size = m * 2 ^ (e + 1022).toNat) :
    Numeral.scaled x.isNegative (Numeral.valueIn 16 (Numeral.ascii (lead :: ds))) (e - 4 * ds.length) = x := by
  generalize Numeral.valueIn 16 (Numeral.ascii (lead :: ds)) = v at total ⊢
  have nonzero : v ≠ 0 := by
    rintro rfl
    simp at total
    omega
  have value : Binary64.unitsOf x.size = v * 2 ^ (e - 4 * ds.length + 1074).toNat := by
    have power : (16 : Nat) ^ j = 2 ^ (4 * j) := by
      rw [Nat.pow_mul]
    rw [units, ← total, power, Nat.mul_assoc, ← Nat.pow_add]
    congr 2
    omega
  rw [Numeral.scaled, if_neg (by simpa using nonzero), if_neg (by omega), if_neg (by omega)]
  exact Binary64.ofMagnitude_exact nonzero finite (by omega) value

/-- The parts that the spelling of a finite double shows. -/
theorem hexadecimal_parts {x : Binary64} (finite : x.isFinite = true) :
    ∃ (lead : Char) (ds : List Char) (e : Int), Numeral.IsHex lead ∧ (∀ c ∈ ds, Numeral.IsHex c) ∧
      Printf.hexadecimal x = (if x.isNegative then "-" else "") ++ String.ofList (Printf.hexChars lead ds e) ∧
      Numeral.scaled x.isNegative (Numeral.valueIn 16 (Numeral.ascii (lead :: ds))) (e - 4 * ds.length) = x := by
  have bits : x.abs.bits.toNat = x.size := Binary64.toNat_and_mask (n := 63) _ rfl
  have bound : x.size < 9223372036854775808 := Nat.mod_lt _ (by decide)
  have field : x.abs.exponentField = x.size / 4503599627370496 := by
    rw [Binary64.exponentField_eq, bits]
    omega
  have fraction : x.abs.fraction = x.size % 4503599627370496 := by
    rw [Binary64.fraction_eq, bits]
  have below : x.size / 4503599627370496 < 2047 := by
    have own := Binary64.exponentField_eq x
    rw [Binary64.isFinite, bne_iff_ne] at finite
    have : x.size = x.bits.toNat % 9223372036854775808 := rfl
    omega
  have zeroHex : Numeral.IsHex '0' := ⟨by decide, by decide⟩
  have oneHex : Numeral.IsHex '1' := ⟨by decide, by decide⟩
  by_cases zero : x.abs.isZero = true
  · have size : x.size = 0 := by
      rw [Binary64.isZero, Bool.and_eq_true, beq_iff_eq, beq_iff_eq] at zero
      omega
    refine ⟨'0', [], 0, zeroHex, by simp, ?_, ?_⟩
    · rw [Printf.hexadecimal_eq finite, Printf.hexBody_eq 0 '0'
        (show _ = (0, 0, (0 : Int)) from if_pos zero) rfl (show _ = String.ofList [] from rfl)]
    · change Binary64.withSign x.isNegative .zero = x
      have back := Binary64.withSign_size x
      rw [size] at back
      exact back
  · obtain ⟨ds, j, digits, hex, length, value⟩ := Numeral.fraction_digits (n := x.abs.fraction) (by omega)
    have nonzero : x.size ≠ 0 := by
      intro none
      rw [Binary64.isZero, Bool.and_eq_true, beq_iff_eq, beq_iff_eq] at zero
      omega
    have sixteen : 16 ^ ds.length * 16 ^ j = 4503599627370496 := by
      rw [← Nat.pow_add, length]
    have total (lead : Char) : Numeral.valueIn 16 (Numeral.ascii (lead :: ds)) * 16 ^ j
        = Numeral.valueIn 16 (Numeral.ascii [lead]) * 4503599627370496 + x.abs.fraction := by
      have joined := Numeral.valueIn_append 16 (Numeral.ascii [lead]) (Numeral.ascii ds)
      rw [show Numeral.ascii (lead :: ds) = Numeral.ascii [lead] ++ Numeral.ascii ds from rfl, joined,
        Nat.add_mul, Nat.mul_assoc, value, show (Numeral.ascii ds).length = ds.length from List.length_map ..,
        sixteen]
    by_cases subnormal : x.abs.exponentField = 0
    · refine ⟨'0', ds, -1022, zeroHex, hex, ?_, ?_⟩
      · rw [Printf.hexadecimal_eq finite, Printf.hexBody_eq 0 '0' (e := -1022) _ rfl digits]
        rw [if_neg zero, if_pos (by simpa using subnormal)]
      · refine scaled_exact finite length (by omega) (by omega) (total '0') ?_ ?_
        · change 0 < 0 * _ + _
          omega
        · rw [Binary64.unitsOf, if_pos (by omega)]
          change x.size = (0 * _ + _) * 2 ^ 0
          omega
    · refine ⟨'1', ds, (x.abs.exponentField : Int) - 1023, oneHex, hex, ?_, ?_⟩
      · rw [Printf.hexadecimal_eq finite, Printf.hexBody_eq 1 '1' _ rfl digits]
        rw [if_neg zero, if_neg (by simpa using subnormal)]
      · refine scaled_exact finite length (by omega) (by omega) (total '1') ?_ ?_
        · change 0 < 1 * _ + _
          omega
        · rw [Binary64.unitsOf_normal (by omega), fraction, field]
          change _ = (1 * _ + _) * _
          congr 2
          omega

/-- A double is read back from its spelling. -/
theorem readDouble?_doubleText (x : Binary64) :
    readDouble? (doubleText x) = some (if x.isNaN then .invalid else x) := by
  unfold doubleText
  split
  next => rfl
  next =>
    split
    next infinite =>
      rw [← Binary64.eq_infinity infinite]
      cases x.isNegative <;> rfl
    next infinite =>
      have finite : x.isFinite = true := by
        simp only [Binary64.isNaN, Binary64.isInfinite, Binary64.isFinite] at *
        simp_all
      obtain ⟨lead, ds, e, leadHex, hex, form, value⟩ := hexadecimal_parts finite
      have bytes := Numeral.bytes_hexChars (e := e) leadHex hex x.isNegative
      have number := Numeral.read?_hexTail leadHex.2 (fun b mem => by
        obtain ⟨c, place, rfl⟩ := List.mem_map.mp mem
        exact (hex c place).2) x.isNegative bytes
      have other {t : String} (h : t.toList.head? ≠ some '0') (h' : t.toList.take 2 ≠ ['-', '0']) :
          ¬ (Printf.hexadecimal x == t) = true := by
        rw [beq_iff_eq, form]
        rintro rfl
        rw [String.toList_append, String.toList_ofList] at h h'
        by_cases negative : x.isNegative = true
        · rw [if_pos negative] at h'
          exact h' rfl
        · rw [if_neg negative] at h
          exact h rfl
      rw [readDouble?, if_neg (other (by decide) (by decide)), if_neg (other (by decide) (by decide)),
        if_neg (other (by decide) (by decide)), form, number]
      dsimp only
      rw [Numeral.ascii, List.length_map]
      exact congrArg some value

/-! ### Bytes -/

theorem hexDigit_read {n : Nat} (small : n < 16) :
    let c := Char.ofNat (Bytes.hexDigit n).toNat
    unhexList.isDigit c = true ∧ unhexList.digitValue c = n := by
  have all : ∀ n : Fin 16, unhexList.isDigit (Char.ofNat (Bytes.hexDigit n).toNat) = true ∧
      unhexList.digitValue (Char.ofNat (Bytes.hexDigit n).toNat) = n.val := by
    decide
  exact all ⟨n, small⟩

theorem unhexList_toHex (bs : List UInt8) :
    unhexList ((bs.flatMap fun c => [Bytes.hexDigit (c.toNat / 16), Bytes.hexDigit (c.toNat % 16)]).map
      fun c => Char.ofNat c.toNat) = some bs := by
  induction bs with
  | nil => rfl
  | cons b bs ih =>
    have bound : b.toNat < 256 := b.toNat_lt
    obtain ⟨high, highValue⟩ := hexDigit_read (n := b.toNat / 16) (by omega)
    obtain ⟨low, lowValue⟩ := hexDigit_read (n := b.toNat % 16) (by omega)
    have byte : (b.toNat / 16 * 16 + b.toNat % 16).toUInt8 = b := by
      rw [show b.toNat / 16 * 16 + b.toNat % 16 = b.toNat by omega]
      simp
    rw [List.flatMap_cons, List.map_append, List.map_cons, List.map_singleton, List.cons_append,
      List.singleton_append, unhexList, high, low, highValue, lowValue, byte, ih]
    rfl

/-- Bytes are read back from their digits. -/
theorem unhex?_hexText (b : Bytes) : unhex? (hexText b) = some b := by
  have digits : (hexText b).toList = _ := String.toList_ofList
  rw [unhex?, digits]
  change (unhexList ((b.data.toList.flatMap _).map _)).map Bytes.ofList = _
  rw [unhexList_toHex]
  rfl

end Snapshot

end LuaCapsule
