import LuaCapsule.Json.Reader
import LuaCapsule.Json.Writer
import LuaCapsule.Number.Exact

/-! Strings and integers are read back from their JSON forms. A string may hold anything: what
cannot stand in quotes as it is comes back from its escape, or from the two that stand for a
character beyond the first plane. -/

namespace LuaCapsule.Json

/-! ### Strings -/

theorem hexValue?_digitChar {d : Nat} (small : d < 16) : hexValue? (Nat.digitChar d) = some d := by
  have all : ∀ d : Fin 16, hexValue? (Nat.digitChar d) = some d.val := by decide
  exact all ⟨d, small⟩

/-- The digits of an escape, from the first to the last. -/
theorem hex4_eq {n : Nat} (small : n < 65536) : hex4 n = ['\\', 'u', Nat.digitChar (n / 4096),
    Nat.digitChar (n / 256 % 16), Nat.digitChar (n / 16 % 16), Nat.digitChar (n % 16)] := by
  have one {n : Nat} (small : n < 16) : Nat.toDigits 16 n = [Nat.digitChar n] := Nat.toDigits_of_lt_base small
  have more {n : Nat} (large : 16 ≤ n) : Nat.toDigits 16 n = Nat.toDigits 16 (n / 16) ++ [Nat.digitChar (n % 16)] :=
    Nat.toDigits_of_base_le (by decide) large
  unfold hex4
  rcases Nat.lt_or_ge n 16 with short | long
  · rw [one short, show n / 4096 = 0 by omega, show n / 256 % 16 = 0 by omega, show n / 16 % 16 = 0 by omega,
      show n % 16 = n by omega]
    rfl
  rcases Nat.lt_or_ge n 256 with short | long'
  · rw [more long, one (by omega), show n / 4096 = 0 by omega, show n / 256 % 16 = 0 by omega,
      show n / 16 % 16 = n / 16 by omega]
    rfl
  rcases Nat.lt_or_ge n 4096 with short | long''
  · rw [more long, more (by omega), one (by omega), show n / 4096 = 0 by omega, show n / 256 % 16 = n / 16 / 16 by omega]
    rfl
  · rw [more long, more (by omega), more (by omega), one (by omega), show n / 16 / 16 / 16 = n / 4096 by omega,
      show n / 16 / 16 = n / 256 by omega]
    rfl

theorem readHex4_hex4 {n : Nat} (small : n < 65536) :
    ∃ ds, hex4 n = '\\' :: 'u' :: ds ∧ ∀ rest, readHex4 (ds ++ rest) = some (n, rest) := by
  refine ⟨_, hex4_eq small, fun rest => ?_⟩
  simp only [List.cons_append, List.nil_append, readHex4, hexValue?_digitChar (show n / 4096 < 16 by omega),
    hexValue?_digitChar (Nat.mod_lt _ (by decide : 16 > 0))]
  rw [show ((n / 4096 * 16 + n / 256 % 16) * 16 + n / 16 % 16) * 16 + n % 16 = n by omega]

theorem readString_simple {c d : Char} (h : simpleEscape? d = some c) (fuel : Nat)
    (acc rest : List Char) :
    readString (fuel + 1) acc ('\\' :: d :: rest) = readString fuel (c :: acc) rest := by
  rw [readString.eq_def]
  have : d ≠ 'u' := by
    rintro rfl
    cases h
  simp [h]

/-- A character of the first plane is read back from its number. -/
theorem readString_hex4 {c : Char} (small : c.toNat < 65536) (fuel : Nat) (acc rest : List Char) :
    readString (fuel + 1) acc (hex4 c.toNat ++ rest) = readString fuel (c :: acc) rest := by
  obtain ⟨ds, shape, value⟩ := readHex4_hex4 small
  have back : Char.ofNat c.toNat = c := Char.ofNat_toNat c
  have scalar : c.toNat < 0xd800 ∨ 0xdfff < c.toNat ∧ c.toNat < 0x110000 := c.valid
  rw [shape, List.cons_append, List.cons_append, readString.eq_def]
  simp only [value]
  rw [if_neg (by simp; omega), if_neg (by simp; omega), back]

/-- Any other character is read back from the two halves of its number. -/
theorem readString_pair {c : Char} (large : 65536 ≤ c.toNat) (fuel : Nat) (acc rest : List Char) :
    readString (fuel + 1) acc (hex4 (0xd800 + (c.toNat - 0x10000) / 1024) ++
      (hex4 (0xdc00 + (c.toNat - 0x10000) % 1024) ++ rest)) = readString fuel (c :: acc) rest := by
  have scalar : c.toNat < 0xd800 ∨ 0xdfff < c.toNat ∧ c.toNat < 0x110000 := c.valid
  obtain ⟨hi, shape, value⟩ := readHex4_hex4 (show 0xd800 + (c.toNat - 0x10000) / 1024 < 65536 by omega)
  obtain ⟨lo, shape', value'⟩ := readHex4_hex4 (show 0xdc00 + (c.toNat - 0x10000) % 1024 < 65536 by omega)
  have whole : 0x10000 + (0xd800 + (c.toNat - 0x10000) / 1024 - 0xd800) * 1024 +
      (0xdc00 + (c.toNat - 0x10000) % 1024 - 0xdc00) = c.toNat := by omega
  rw [shape, shape', List.cons_append, List.cons_append, readString.eq_def]
  simp only [value, List.cons_append, value']
  rw [if_pos (by simp; omega), if_pos (by simp; omega), whole, Char.ofNat_toNat]

/-- One character is read back from its form. -/
theorem readString_escape (ascii : Bool) (c : Char) (fuel : Nat) (acc rest : List Char) :
    readString (fuel + 1) acc (escape ascii c ++ rest) = readString fuel (c :: acc) rest := by
  unfold escape
  simp only [beq_iff_eq]
  split
  next h =>
    subst h
    exact readString_simple rfl ..
  split
  next h =>
    subst h
    exact readString_simple rfl ..
  split
  next h =>
    subst h
    exact readString_simple rfl ..
  split
  next h =>
    subst h
    exact readString_simple rfl ..
  split
  next h =>
    subst h
    exact readString_simple rfl ..
  split
  next h =>
    subst h
    exact readString_simple rfl ..
  split
  next h =>
    subst h
    exact readString_simple rfl ..
  split
  next small => exact readString_hex4 (by omega) ..
  split
  next large _ =>
    rw [readString.eq_def]
    simp_all [Nat.not_lt.mpr]
  split
  next small => exact readString_hex4 small ..
  next large =>
    rw [List.append_assoc]
    exact readString_pair (Nat.not_lt.mp large) ..

theorem readString_quoted (ascii : Bool) (cs : List Char) (fuel : Nat) (acc rest : List Char)
    (enough : cs.length < fuel) :
    readString fuel acc (cs.flatMap (escape ascii) ++ '"' :: rest)
      = some (String.ofList (acc.reverse ++ cs), rest) := by
  induction cs generalizing fuel acc with
  | nil =>
    obtain ⟨fuel, rfl⟩ : ∃ f, fuel = f + 1 := ⟨fuel - 1, by simp at enough; omega⟩
    simp [readString]
  | cons c cs ih =>
    obtain ⟨fuel, rfl⟩ : ∃ f, fuel = f + 1 := ⟨fuel - 1, by simp at enough; omega⟩
    rw [List.flatMap_cons, List.append_assoc, readString_escape,
      ih fuel (c :: acc) (by simpa using enough)]
    simp

/-! ### Digits -/

/-- What follows some digits: nothing that could belong to them. -/
def NoDigit (rest : List Char) : Prop := ∀ c cs, rest = c :: cs → c.isDigit = false

/-- What can follow a number: nothing that could belong to it. -/
def Ends (rest : List Char) : Prop := ∀ c cs, rest = c :: cs → c = ',' ∨ c = ']' ∨ c = '\x7d'

theorem NoDigit.cons {c : Char} (other : c.isDigit = false) (cs : List Char) : NoDigit (c :: cs) := by
  rintro _ _ ⟨⟩
  exact other

theorem Ends.noDigit {rest : List Char} (ends : Ends rest) : NoDigit rest := by
  intro c cs h
  rcases ends c cs h with rfl | rfl | rfl <;> rfl

section Digits

variable {ds rest : List Char} (digits : ∀ c ∈ ds, c.isDigit = true) (ends : NoDigit rest)
include digits ends

theorem takeWhile_digits : (ds ++ rest).takeWhile Char.isDigit = ds := by
  rw [List.takeWhile_append_of_pos digits]
  cases rest with
  | nil => simp
  | cons c cs => simp [ends c cs rfl]

theorem dropWhile_digits : (ds ++ rest).dropWhile Char.isDigit = rest := by
  rw [List.dropWhile_append_of_pos digits]
  cases rest with
  | nil => rfl
  | cons c cs => simp [ends c cs rfl]

/-- Digits that are zero or do not begin with zero are the whole part of a number. -/
theorem readWhole_digits (some' : ds ≠ []) (first : ∀ tail, ds = '0' :: tail → tail = []) :
    readWhole (ds ++ rest) = some (ds, rest) := by
  unfold readWhole
  split
  next tail h =>
    cases ds with
    | nil => exact absurd rfl some'
    | cons d ds =>
      rw [List.cons_append] at h
      obtain ⟨rfl, rfl⟩ := List.cons.inj h
      obtain rfl := first ds rfl
      rfl
  next =>
    rw [takeWhile_digits digits ends, dropWhile_digits digits ends]
    split
    next => exact absurd rfl some'
    next => rfl

end Digits

theorem natOfDigits_eq (ds : List Char) (start : Nat) :
    ds.foldl (fun n c => n * 10 + (c.toNat - 48)) start = Nat.ofDigitChars 10 ds start := by
  induction ds generalizing start with
  | nil => rfl
  | cons d ds ih =>
    rw [List.foldl_cons, ih, Nat.ofDigitChars_cons, Nat.mul_comm]
    rfl

theorem natOfDigits_toDigits (n : Nat) : natOfDigits (Nat.toDigits 10 n) = n := by
  rw [natOfDigits, natOfDigits_eq]
  exact Nat.ofDigitChars_ten_toDigits

theorem isDigit_toDigits {n : Nat} {c : Char} (mem : c ∈ Nat.toDigits 10 n) : c.isDigit = true :=
  Nat.isDigit_of_mem_toDigits (by decide) (by decide) mem

/-- Only zero begins with the digit zero. -/
theorem toDigits_head {n : Nat} {ds : List Char} (h : Nat.toDigits 10 n = '0' :: ds) :
    n = 0 ∧ ds = [] := by
  induction n using Nat.strongRecOn generalizing ds with
  | ind n ih =>
    by_cases small : n < 10
    · rw [Nat.toDigits_of_lt_base small] at h
      obtain ⟨first, rfl⟩ := List.cons.inj h
      refine ⟨?_, rfl⟩
      match n, small with
      | 0, _ => rfl
      | 1, _ | 2, _ | 3, _ | 4, _ | 5, _ | 6, _ | 7, _ | 8, _ | 9, _ => simp [Nat.digitChar] at first
    · rw [Nat.toDigits_of_base_le (by decide) (by omega)] at h
      cases front : Nat.toDigits 10 (n / 10) with
      | nil => exact absurd front Nat.toDigits_ne_nil
      | cons d front' =>
        rw [front, List.cons_append] at h
        obtain ⟨rfl, _⟩ := List.cons.inj h
        have := (ih (n / 10) (by omega) front).1
        omega

theorem readExponent_ends {rest : List Char} (ends : Ends rest) :
    readExponent rest = some (none, rest) := by
  cases rest with
  | nil => rfl
  | cons c cs => rcases ends c cs rfl with rfl | rfl | rfl <;> rfl

/-- What begins with a digit is read as a number without a sign. -/
theorem readScalar_digit {c : Char} {cs : List Char} (digit : c.isDigit = true) :
    readScalar (c :: cs) = readNumber false (c :: cs) := by
  unfold readScalar
  split
  next h =>
    obtain ⟨rfl, _⟩ := List.cons.inj h
    cases digit
  next h =>
    obtain ⟨rfl, rfl⟩ := List.cons.inj h
    exact if_pos digit
  next h => cases h

theorem readScalar_sign (cs : List Char) : readScalar ('-' :: cs) =
    match word? "Infinity" cs with
    | some r => some (.float Binary64.infinity.neg, r)
    | none => readNumber true cs := rfl

/-- What begins with a sign and a digit is read as a number with the sign. -/
theorem readScalar_minus {c : Char} {cs : List Char} (digit : c.isDigit = true) :
    readScalar ('-' :: c :: cs) = readNumber true (c :: cs) := by
  have noWord : word? "Infinity" (c :: cs) = none := by
    have other : ('I' == c) = false := by
      rw [beq_eq_false_iff_ne]
      rintro rfl
      cases digit
    simp [word?, List.isPrefixOf, other]
  rw [readScalar_sign, noWord]

/-- Digits are read with the sign before them, if there is one. -/
theorem readScalar_signed {ds : List Char} (digits : ∀ c ∈ ds, c.isDigit = true) (some' : ds ≠ []) (negative : Bool)
    (rest : List Char) :
    readScalar ((if negative then ['-'] else []) ++ (ds ++ rest)) = readNumber negative (ds ++ rest) := by
  cases ds with
  | nil => exact absurd rfl some'
  | cons d ds =>
    have digit := digits d (List.mem_cons_self ..)
    cases negative with
    | false => exact readScalar_digit digit
    | true => exact readScalar_minus digit

/-! ### Integers -/

theorem isLong_eq_false {i : Int} : isLong i = false ↔ (Nat.toDigits 10 i.natAbs).length ≤ maxDigits := by
  rw [Nat.length_toDigits_le_iff (by decide) (by decide), isLong, decide_eq_false_iff_not, Nat.not_le, Nat.pow_eq]

theorem isLong_of_isInt64 {i : Int} (fits : isInt64 i = true) : isLong i = false := by
  obtain ⟨low, high⟩ := Binary64.isInt64_iff.mp fits
  have short : (Nat.toDigits 10 i.natAbs).length ≤ 20 := by
    rw [Nat.length_toDigits_le_iff (by decide) (by decide)]
    omega
  exact isLong_eq_false.mpr (Nat.le_trans short (by decide))

theorem readNumber_digits {rest : List Char} (ends : Ends rest) (negative : Bool) {n : Nat}
    (short : (Nat.toDigits 10 n).length ≤ maxDigits) :
    readNumber negative (Nat.toDigits 10 n ++ rest)
      = some (.int (if negative then -(n : Int) else n), rest) := by
  unfold readNumber
  rw [readWhole_digits (fun _ => isDigit_toDigits) ends.noDigit Nat.toDigits_ne_nil fun _ h => (toDigits_head h).2]
  have value : (Nat.toDigits 10 n).length > maxDigits ↔ False := by simpa using short
  match rest, ends with
  | [], _ => simp [readExponent, natOfDigits_toDigits, value]
  | c :: cs, ends =>
    rcases ends c cs rfl with rfl | rfl | rfl <;>
      simp [readExponent, natOfDigits_toDigits, value]

/-- The text of an integer is its digits after its sign. -/
theorem toList_toString (i : Int) :
    (toString i).toList = (if decide (i < 0) then ['-'] else []) ++ Nat.toDigits 10 i.natAbs := by
  rw [Int.toString_eq_repr, Int.repr_eq_if]
  split
  next nonneg =>
    rw [decide_eq_false (by omega), Nat.toList_repr, show i.toNat = i.natAbs by omega]
    rfl
  next negative =>
    rw [decide_eq_true (by omega), String.toList_append, Nat.toList_repr, show (-i).toNat = i.natAbs by omega]
    rfl

/-- An integer is its absolute value with its sign. -/
theorem signed_natAbs (i : Int) : (if decide (i < 0) then -(i.natAbs : Int) else i.natAbs) = i := by
  split
  next negative =>
    have := of_decide_eq_true negative
    omega
  next nonneg =>
    have := of_decide_eq_false (by simpa using nonneg : decide (i < 0) = false)
    omega

/-- An integer is read back if it is not too long to be written. -/
theorem readScalar_int {rest : List Char} (ends : Ends rest) {i : Int} (short : isLong i = false) :
    readScalar ((toString i).toList ++ rest) = some (.int i, rest) := by
  rw [toList_toString, List.append_assoc, readScalar_signed (fun _ => isDigit_toDigits) Nat.toDigits_ne_nil,
    readNumber_digits ends _ (isLong_eq_false.mp short), signed_natAbs]

end LuaCapsule.Json
