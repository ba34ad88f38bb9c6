import LuaCapsule.Proofs.JsonText
import LuaCapsule.Proofs.ShortestDigits

/-! Doubles are read back from their JSON forms. Wherever the point stands in the shortest digits, and
with an exponent or without, the numeral denotes a decimal that rounds to the double. -/

namespace LuaCapsule.Json

open Digits Binary64

/-! ### Values of digits -/

theorem natOfDigits_append (as bs : List Char) :
    natOfDigits (as ++ bs) = natOfDigits as * 10 ^ bs.length + natOfDigits bs := by
  have step (bs : List Char) (start : Nat) :
      bs.foldl (fun n c => n * 10 + (c.toNat - 48)) start = start * 10 ^ bs.length + natOfDigits bs := by
    induction bs generalizing start with
    | nil => simp [natOfDigits]
    | cons b bs ih =>
      rw [natOfDigits, List.foldl_cons, List.foldl_cons, ih, ih, List.length_cons, Nat.pow_succ]
      ring
  rw [natOfDigits, List.foldl_append, step]
  rfl

theorem natOfDigits_zeros (k : Nat) : natOfDigits (List.replicate k '0') = 0 := by
  induction k with
  | zero => rfl
  | succ k ih =>
    rw [List.replicate_succ, ← List.singleton_append, natOfDigits_append, ih]
    exact Nat.zero_mul _

theorem isDigit_zeros {k : Nat} {c : Char} (mem : c ∈ List.replicate k '0') : c.isDigit = true := by
  rw [List.eq_of_mem_replicate mem]
  rfl

/-! ### The parts of numbers -/

section Parts

variable {ds rest : List Char} (digits : ∀ c ∈ ds, c.isDigit = true) (ends : NoDigit rest) (some' : ds ≠ [])
include digits ends some'

/-- An exponent is read with its sign. -/
theorem readExponent_signed (negative : Bool) :
    readExponent ('e' :: (if negative then '-' else '+') :: (ds ++ rest)) =
      some (some (if negative then -(natOfDigits ds : Int) else natOfDigits ds), rest) := by
  have front := takeWhile_digits digits ends
  have behind := dropWhile_digits digits ends
  cases negative <;> unfold readExponent
  · simp only [Bool.false_eq_true, if_false, beq_self_eq_true, Bool.true_or, if_true, front, behind]
  · simp only [if_true, beq_self_eq_true, Bool.true_or, front, behind]

/-- Digits behind a point are digits of a double, whose exponent follows, if there is one. -/
theorem readNumber_point {whole tail : List Char} {e : Option Int} (negative : Bool)
    (first : readWhole (whole ++ '.' :: (ds ++ rest)) = some (whole, '.' :: (ds ++ rest)))
    (exponent : readExponent rest = some (e, tail)) : readNumber negative (whole ++ '.' :: (ds ++ rest)) =
      some (.float (ofDecimal negative (natOfDigits (whole ++ ds)) (e.getD 0 - ds.length)), tail) := by
  have front := takeWhile_digits digits ends
  have behind := dropWhile_digits digits ends
  have full : ds.isEmpty = false := List.isEmpty_eq_false_iff.mpr some'
  unfold readNumber
  simp only [first, front, behind, exponent, full, Bool.false_and, Bool.false_eq_true, if_false]

end Parts

/-- Digits with an exponent behind them are those of a double. -/
theorem readNumber_mark {whole rest tail : List Char} {e : Int} (negative : Bool)
    (first : readWhole (whole ++ 'e' :: rest) = some (whole, 'e' :: rest))
    (exponent : readExponent ('e' :: rest) = some (some e, tail)) :
    readNumber negative (whole ++ 'e' :: rest) = some (.float (ofDecimal negative (natOfDigits whole) e), tail) := by
  unfold readNumber
  simp only [first]
  split
  next h => cases h
  next h =>
    cases h
    simp only [exponent, Option.isNone_some, Bool.and_false, Bool.false_eq_true, if_false, List.append_nil,
      List.length_nil, Option.getD_some, Nat.cast_zero, sub_zero]

/-! ### Numerals -/

/-- The parts of a numeral that is no integer: digits before and behind the point, if there is one,
and the exponent, if there is one. -/
structure Numeral where
  whole : List Char
  fraction : List Char
  exponent : Option Int
  nonempty : whole ≠ []
  digits : ∀ c ∈ whole ++ fraction, c.isDigit = true
  first : ∀ tail, whole = '0' :: tail → tail = []
  marked : fraction ≠ [] ∨ exponent.isSome = true

namespace Numeral

/-- An exponent behind its mark. -/
def exponentChars : Option Int → List Char
  | none => []
  | some e => 'e' :: (exponentText e).toList

/-- What stands behind the digits before the point. -/
def tailChars (n : Numeral) : List Char :=
  if n.fraction = [] then exponentChars n.exponent else '.' :: (n.fraction ++ exponentChars n.exponent)

/-- The text of a numeral. -/
def chars (n : Numeral) : List Char := n.whole ++ n.tailChars

/-- The digits of a numeral as a natural number. -/
def significand (n : Numeral) : Nat := natOfDigits (n.whole ++ n.fraction)

/-- The power of ten at the last digit. -/
def scale (n : Numeral) : Int := n.exponent.getD 0 - n.fraction.length

theorem toList_padded (n width : Nat) : (padded n width).toList =
    List.replicate (width - (Nat.toDigits 10 n).length) '0' ++ Nat.toDigits 10 n := by
  have chars : (toString n).toList = Nat.toDigits 10 n := Nat.toList_repr
  rw [padded, String.toList_append, String.toList_ofList, ← String.length_toList, chars]

theorem toList_exponentText (e : Int) :
    (exponentText e).toList = (if decide (e < 0) then '-' else '+') :: (padded e.natAbs 2).toList := by
  rw [exponentText, String.toList_append]
  by_cases negative : e < 0
  · rw [if_pos negative, if_pos (decide_eq_true negative)]
    rfl
  · rw [if_neg negative, if_neg (by simpa using negative)]
    rfl

section Reading

variable {rest : List Char} (ends : Ends rest)
include ends

theorem readExponent_exponentChars (e : Option Int) : readExponent (exponentChars e ++ rest) = some (e, rest) := by
  cases e with
  | none => exact readExponent_ends ends
  | some e =>
    have digits : ∀ c ∈ (padded e.natAbs 2).toList, c.isDigit = true := by
      intro c mem
      rw [toList_padded] at mem
      exact (List.mem_append.mp mem).elim isDigit_zeros isDigit_toDigits
    have some' : (padded e.natAbs 2).toList ≠ [] := by
      rw [toList_padded]
      exact List.append_ne_nil_of_right_ne_nil _ Nat.toDigits_ne_nil
    have value : natOfDigits (padded e.natAbs 2).toList = e.natAbs := by
      rw [toList_padded, natOfDigits_append, natOfDigits_zeros, natOfDigits_toDigits, Nat.zero_mul, Nat.zero_add]
    rw [exponentChars, toList_exponentText, List.cons_append, List.cons_append,
      readExponent_signed digits ends.noDigit some', value, signed_natAbs]

theorem noDigit_exponentChars (e : Option Int) : NoDigit (exponentChars e ++ rest) := by
  cases e with
  | none => exact ends.noDigit
  | some e => exact NoDigit.cons rfl _

/-- A numeral is read as the double nearest to its decimal. -/
theorem readNumber_chars (n : Numeral) (negative : Bool) :
    readNumber negative (n.chars ++ rest) = some (.float (ofDecimal negative n.significand n.scale), rest) := by
  have wholeDigits : ∀ c ∈ n.whole, c.isDigit = true := fun c mem => n.digits c (List.mem_append_left _ mem)
  have fractionDigits : ∀ c ∈ n.fraction, c.isDigit = true := fun c mem => n.digits c (List.mem_append_right _ mem)
  have exponent := readExponent_exponentChars ends n.exponent
  have quiet := noDigit_exponentChars ends n.exponent
  rw [chars, tailChars, List.append_assoc]
  by_cases none : n.fraction = []
  · obtain ⟨e, is⟩ := Option.isSome_iff_exists.mp (n.marked.resolve_left (not_not_intro none))
    have first := readWhole_digits wholeDigits quiet n.nonempty n.first
    rw [is] at exponent first
    rw [if_pos none, is, significand, scale, is, none, List.append_nil]
    refine (readNumber_mark negative first exponent).trans ?_
    simp
  · have point : NoDigit ('.' :: (n.fraction ++ (exponentChars n.exponent ++ rest))) := NoDigit.cons rfl _
    have first := readWhole_digits wholeDigits point n.nonempty n.first
    rw [if_neg none, List.cons_append, List.append_assoc]
    exact readNumber_point fractionDigits quiet none negative first exponent

theorem readScalar_chars (n : Numeral) (negative : Bool) :
    readScalar ((if negative then ['-'] else []) ++ n.chars ++ rest) =
      some (.float (ofDecimal negative n.significand n.scale), rest) := by
  have read := readNumber_chars ends n negative
  rw [chars, List.append_assoc] at read
  rw [chars, List.append_assoc, List.append_assoc, readScalar_signed (fun c mem => n.digits c (List.mem_append_left _ mem)) n.nonempty,
    read]

end Reading

/-! ### Where the point stands -/

theorem exists_pointed (whole fraction : List Char) (digits : ∀ c ∈ whole ++ fraction, c.isDigit = true)
    (nonempty : whole ≠ []) (first : ∀ tail, whole = '0' :: tail → tail = []) (some' : fraction ≠ []) :
    ∃ n : Numeral, n.chars = whole ++ '.' :: fraction ∧ n.significand = natOfDigits (whole ++ fraction) ∧
      n.scale = -fraction.length := by
  refine ⟨⟨whole, fraction, none, nonempty, digits, first, .inl some'⟩, ?_, rfl, ?_⟩
  · rw [chars, tailChars, if_neg some', exponentChars, List.append_nil]
  · simp [scale]

theorem toList_toString_nat (c : Nat) : (toString c).toList = Nat.toDigits 10 c := Nat.toList_repr

theorem length_toString (c : Nat) : (toString c).length = (Nat.toDigits 10 c).length := by
  rw [← String.length_toList, toList_toString_nat]

section Point

variable {c : Nat} (k : Int) (some' : c ≠ 0)
include some'

theorem toDigits_head_ne (ds : List Char) : Nat.toDigits 10 c ≠ '0' :: ds := fun h => some' (toDigits_head h).1

/-- Digits with a point among them, before them, or behind them and some zeros. -/
theorem exists_withPoint : ∃ n : Numeral,
    (withPoint (toString c) (k + (toString c).length)).toList = n.chars ∧ decimal n.significand n.scale = decimal c k := by
  have chars := toList_toString_nat c
  have digits : ∀ d ∈ Nat.toDigits 10 c, d.isDigit = true := fun _ => isDigit_toDigits
  have value := natOfDigits_toDigits c
  have head := toDigits_head_ne some'
  have nonempty := @Nat.toDigits_ne_nil c 10
  unfold withPoint
  rw [length_toString]
  generalize Nat.toDigits 10 c = ds at chars digits value head nonempty ⊢
  rw [chars]
  split
  next before =>
    generalize zeros : (-(k + ds.length)).toNat = z
    obtain ⟨n, text, significand, scale⟩ := exists_pointed ['0'] (List.replicate z '0' ++ ds)
      (by
        intro d mem
        rcases List.mem_append.mp mem with zero | mem
        · rw [List.mem_singleton.mp zero]
          rfl
        · exact (List.mem_append.mp mem).elim isDigit_zeros (digits d))
      (by simp) (fun _ h => (List.cons.inj h).2.symm) (List.append_ne_nil_of_right_ne_nil _ nonempty)
    refine ⟨n, ?_, ?_⟩
    · rw [text, String.toList_append, String.toList_append, String.toList_ofList, chars]
      simp
    · have same : n.significand = c := by
        rw [significand, natOfDigits_append, natOfDigits_append, natOfDigits_zeros, value]
        simp [natOfDigits]
      rw [same, scale, List.length_append, List.length_replicate, show -((z + ds.length : Nat) : Int) = k by push_cast; omega]
  dsimp only
  split
  next before beyond =>
    generalize zeros : (k + ds.length).toNat - ds.length = z
    obtain ⟨n, text, significand, scale⟩ := exists_pointed (ds ++ List.replicate z '0') ['0']
      (by
        intro d mem
        rcases List.mem_append.mp mem with mem | zero
        · exact (List.mem_append.mp mem).elim (digits d) isDigit_zeros
        · rw [List.mem_singleton.mp zero]
          rfl)
      (List.append_ne_nil_of_left_ne_nil nonempty _)
      (by
        intro tail h
        cases ds with
        | nil => exact absurd rfl nonempty
        | cons d ds =>
          rw [List.cons_append] at h
          exact absurd (by rw [(List.cons.inj h).1]) (head ds))
      (by simp)
    refine ⟨n, ?_, ?_⟩
    · rw [text, String.toList_append, String.toList_append, String.toList_ofList, chars]
      simp
    · have same : n.significand = c * 10 ^ (z + 1) := by
        rw [significand, natOfDigits_append, natOfDigits_append, natOfDigits_zeros, value, List.length_replicate]
        change (c * 10 ^ z + 0) * 10 + 0 = _
        rw [Nat.pow_succ]
        ring
      have place : k = z := by omega
      rw [same, scale, place, decimal, decimal]
      congr 1
      rw [List.length_singleton, Nat.cast_one, zpow_neg_one, zpow_natCast, Nat.cast_mul, Nat.cast_pow, pow_succ]
      push_cast
      field_simp
  next before inside =>
    generalize place : (k + ds.length).toNat = b at inside ⊢
    have split := List.take_append_drop b ds
    obtain ⟨n, text, significand, scale⟩ := exists_pointed (ds.take b) (ds.drop b)
      (by rwa [split])
      (by
        intro none
        have := congrArg List.length none
        rw [List.length_take, List.length_nil] at this
        omega)
      (by
        intro tail h
        rw [h] at split
        exact absurd split.symm (head _))
      (by
        intro none
        have := congrArg List.length none
        rw [List.length_drop, List.length_nil] at this
        omega)
    refine ⟨n, ?_, ?_⟩
    · rw [text]
      simp
    · rw [significand, split, value, scale, List.length_drop, show -((ds.length - b : Nat) : Int) = k by omega]

/-- One digit before the point, the others behind it, and an exponent. -/
theorem exists_scientific (lead : Int) (place : lead = k + (toString c).length - 1) : ∃ n : Numeral,
    ((if (String.ofList ((toString c).toList.drop 1)).isEmpty then toString c
      else String.ofList ((toString c).toList.take 1) ++ "." ++ String.ofList ((toString c).toList.drop 1)) ++
        "e" ++ exponentText lead).toList = n.chars ∧ decimal n.significand n.scale = decimal c k := by
  have chars := toList_toString_nat c
  have digits : ∀ d ∈ Nat.toDigits 10 c, d.isDigit = true := fun _ => isDigit_toDigits
  have value := natOfDigits_toDigits c
  have head := toDigits_head_ne some'
  have nonempty := @Nat.toDigits_ne_nil c 10
  rw [length_toString] at place
  generalize Nat.toDigits 10 c = ds at chars digits value head nonempty place
  cases ds with
  | nil => exact absurd rfl nonempty
  | cons d ds =>
    let n : Numeral := ⟨[d], ds, some lead, by simp, digits, fun tail h => (List.cons.inj h).2.symm, .inr rfl⟩
    refine ⟨n, ?_, ?_⟩
    · rw [chars, List.drop_one, List.tail_cons, List.take_one, List.head?_cons, Option.toList_some]
      cases ds with
      | nil =>
        rw [if_pos (by simp), String.toList_append, String.toList_append, chars]
        rfl
      | cons d' ds =>
        have some'' : (String.ofList (d' :: ds)).isEmpty = false := by simp
        rw [some'', if_neg (by decide)]
        simp only [String.toList_append, String.toList_ofList, List.append_assoc]
        rfl
    · have same : n.significand = c := value
      have scale : n.scale = k := by
        change lead - (ds.length : Int) = k
        rw [List.length_cons] at place
        omega
      rw [same, scale]

end Point

end Numeral

/-! ### Rendered doubles -/

variable {x : Binary64}

theorem size_abs (x : Binary64) : x.abs.size = x.size := by
  rw [size, Binary64.abs, toNat_and_mask (n := 63) _ rfl, size]
  exact Nat.mod_mod _ _

theorem isFinite_abs (finite : x.isFinite = true) : x.abs.isFinite = true := by
  have same := size_abs x
  rw [size, size] at same
  rw [isFinite, bne_iff_ne, exponentField_eq] at finite ⊢
  omega

theorem isZero_iff (x : Binary64) : x.isZero = true ↔ x.size = 0 := by
  rw [isZero, Bool.and_eq_true, beq_iff_eq, beq_iff_eq, exponentField_eq, fraction_eq, size]
  omega

theorem isNaN_of_isFinite (finite : x.isFinite = true) : x.isNaN = false := by
  rw [isFinite, bne_iff_ne] at finite
  rw [isNaN, beq_false_of_ne finite, Bool.false_and]

theorem isInfinite_of_isFinite (finite : x.isFinite = true) : x.isInfinite = false := by
  rw [isFinite, bne_iff_ne] at finite
  rw [isInfinite, beq_false_of_ne finite, Bool.false_and]

theorem isInfinite_of_not (infinite : ¬x.isFinite = true) (odd : ¬x.isNaN = true) : x.isInfinite = true := by
  rw [isFinite, bne_iff_ne, not_not] at infinite
  rw [isNaN, infinite] at odd
  rw [isInfinite, infinite]
  simpa using odd

/-- A finite double is rendered as a numeral, after its sign, whose decimal rounds to it. -/
theorem exists_render (l : Layout) (finite : x.isFinite = true) : ∃ n : Numeral,
    (l.render x).toList = (if x.isNegative then ['-'] else []) ++ n.chars ∧ Rounds (decimal n.significand n.scale) x.size := by
  have sign (s : String) : ((if x.isNegative then "-" else "") ++ s).toList = (if x.isNegative then ['-'] else []) ++ s.toList := by
    rw [String.toList_append]
    split <;> rfl
  unfold Layout.render
  rw [isNaN_of_isFinite finite, isInfinite_of_isFinite finite, if_neg (by decide), if_neg (by decide)]
  split
  next zero =>
    rw [isZero_iff] at zero
    obtain ⟨n, text, significand, _⟩ := Numeral.exists_pointed ['0'] ['0'] (fun _ mem => isDigit_zeros (k := 2) mem)
      (by simp) (fun _ h => (List.cons.inj h).2.symm) (by simp)
    refine ⟨n, (sign "0.0").trans (by rw [text]; rfl), ?_⟩
    rw [significand, zero]
    exact rounds_zero (by simp [decimal, natOfDigits])
  next nonzero =>
    rw [isZero_iff] at nonzero
    have rounds := rounds_shortest (isFinite_abs finite) (by rwa [size_abs])
    rw [size_abs] at rounds
    have some' : (shortest x.abs).digits ≠ 0 := by
      intro none
      rw [none] at rounds
      exact nonzero (rounds.unique (rounds_zero (by simp [decimal])))
    dsimp only
    split
    · obtain ⟨n, text, same⟩ := Numeral.exists_withPoint (shortest x.abs).exponent some'
      refine ⟨n, ?_, same ▸ rounds⟩
      rw [sign, Int.sub_add_cancel, text]
    · obtain ⟨n, text, same⟩ := Numeral.exists_scientific (shortest x.abs).exponent some' _ rfl
      refine ⟨n, ?_, same ▸ rounds⟩
      rw [String.append_assoc, String.append_assoc, sign, ← String.append_assoc, text]

/-- A double as it is read back: what is not a number is spelled in one way only. -/
def settledDouble (x : Binary64) : Binary64 := if x.isNaN then quietNaN else x

/-- A double is read back from its form. -/
theorem readScalar_double {rest : List Char} (ends : Ends rest) (x : Binary64) :
    readScalar ((doubleLayout.render x).toList ++ rest) = some (.float (settledDouble x), rest) := by
  by_cases finite : x.isFinite = true
  · obtain ⟨n, text, rounds⟩ := exists_render doubleLayout finite
    rw [text, Numeral.readScalar_chars ends, ofDecimal_eq _ rounds, withSign_size, settledDouble, isNaN_of_isFinite finite]
    rfl
  · by_cases odd : x.isNaN = true
    · rw [Layout.render, if_pos odd, settledDouble, if_pos odd]
      rfl
    · have infinite := isInfinite_of_not finite odd
      have whole := eq_infinity infinite
      rw [Layout.render, if_neg odd, settledDouble, if_neg odd, if_pos infinite]
      split
      next negative =>
        rw [if_pos negative] at whole
        rw [← whole]
        rfl
      next positive =>
        rw [if_neg positive] at whole
        rw [← whole]
        rfl

/-- The form of a double begins like a number or a word. -/
theorem render_head (x : Binary64) :
    ∃ c cs, (doubleLayout.render x).toList = c :: cs ∧ (c = '-' ∨ c.isAlphanum = true) := by
  have behind (negative : Bool) {cs : List Char} {c : Char} (head : c.isAlphanum = true) :
      ∃ c' cs', (if negative then ['-'] else []) ++ c :: cs = c' :: cs' ∧ (c' = '-' ∨ c'.isAlphanum = true) := by
    cases negative with
    | false => exact ⟨c, cs, rfl, .inr head⟩
    | true => exact ⟨'-', _, rfl, .inl rfl⟩
  by_cases finite : x.isFinite = true
  · obtain ⟨n, text, _⟩ := exists_render doubleLayout finite
    obtain ⟨d, ds, whole⟩ := List.exists_cons_of_ne_nil n.nonempty
    have digit : d.isDigit = true := n.digits d (by rw [whole]; exact List.mem_cons_self ..)
    rw [text, Numeral.chars, whole]
    exact behind _ (by rw [Char.isAlphanum, digit, Bool.or_true])
  · rw [Layout.render]
    split
    · exact ⟨'N', _, rfl, .inr rfl⟩
    next odd =>
      dsimp only
      rw [if_pos (isInfinite_of_not finite odd)]
      split
      · exact ⟨'-', _, rfl, .inl rfl⟩
      · exact ⟨'I', _, rfl, .inr rfl⟩

end LuaCapsule.Json
