import LuaCapsule.Number.Digits
import LuaCapsule.Proofs.Rounding

/-! The shortest digits of a double read back as the double. Seventeen digits are always enough, since
numbers that differ from the seventeenth digit on only are nearer to a double than its neighbours are. -/

namespace LuaCapsule.Digits

open Binary64

/-! ### Fractions -/

theorem scale_value (num : Nat) {den : Nat} (some : den ≠ 0) (k : Int) :
    (scale num den k).2 ≠ 0 ∧ ((scale num den k).1 / (scale num den k).2 : ℚ) = num / den * 10 ^ k := by
  have power (n : Nat) : ((Nat.pow 10 n : Nat) : ℚ) = 10 ^ (n : Int) := by
    rw [Nat.pow_eq, zpow_natCast]
    push_cast
    rfl
  unfold scale
  split
  next nonneg =>
    refine ⟨some, ?_⟩
    dsimp only
    rw [Nat.cast_mul, power, Int.toNat_of_nonneg nonneg]
    ring
  next negative =>
    refine ⟨Nat.mul_ne_zero some (Nat.ne_of_gt (Nat.pow_pos (by decide))), ?_⟩
    dsimp only
    rw [Nat.cast_mul, power, Int.toNat_of_nonneg (by omega), zpow_neg]
    field_simp

theorem fraction_value (m : Nat) (e : Int) :
    (fraction m e).2 ≠ 0 ∧ ((fraction m e).1 / (fraction m e).2 : ℚ) = m * 2 ^ e := by
  unfold fraction
  split
  next nonneg =>
    refine ⟨Nat.one_ne_zero, ?_⟩
    obtain ⟨e, rfl⟩ := Int.eq_ofNat_of_zero_le nonneg
    rw [Int.toNat_natCast, Nat.shiftLeft_eq, zpow_natCast]
    push_cast
    ring
  next negative =>
    obtain ⟨e', rfl⟩ : ∃ e' : Nat, e = -e' := ⟨(-e).toNat, by omega⟩
    rw [Int.neg_neg, Int.toNat_natCast, Nat.one_shiftLeft, zpow_neg, zpow_natCast]
    refine ⟨Nat.ne_of_gt (Nat.two_pow_pos _), ?_⟩
    push_cast
    rfl

/-! ### The place of the first digit -/

/-- Three tenths of a binary exponent, and some more, are a decimal one: no double is so large or
small that the difference would count. -/
theorem ten_pow_le_two_pow {l g : Int} (low : -1100 ≤ l) (high : l ≤ 1100) (less : 100000 * (g + 1) ≤ 30103 * l) :
    (10 : ℚ) ^ g ≤ 2 ^ l := by
  rcases le_total 0 l with nonneg | nonpos
  · refine (pow_le_pow_iff_left₀ (by positivity) (by positivity) (show 103 ≠ 0 by decide)).mp ?_
    calc ((10 : ℚ) ^ g) ^ 103 = 10 ^ (g * 103) := by rw [zpow_mul, ← zpow_natCast]; rfl
      _ ≤ 10 ^ (31 * l) := zpow_le_zpow_right₀ (by norm_num) (by omega)
      _ = (10 ^ 31) ^ l := by rw [zpow_mul]; rfl
      _ ≤ (2 ^ 103) ^ l := zpow_le_zpow_left₀ nonneg (by positivity) (by norm_num)
      _ = (2 ^ l) ^ 103 := by rw [← zpow_natCast, ← zpow_natCast, ← zpow_mul, ← zpow_mul, mul_comm]
  · obtain ⟨a, rfl⟩ : ∃ a : Nat, l = -a := ⟨(-l).toNat, by omega⟩
    refine (pow_le_pow_iff_left₀ (by positivity) (by positivity) (show 106 ≠ 0 by decide)).mp ?_
    calc ((10 : ℚ) ^ g) ^ 106 = 10 ^ (g * 106) := by rw [zpow_mul, ← zpow_natCast]; rfl
      _ ≤ 10 ^ (-(32 * a : Int)) := zpow_le_zpow_right₀ (by norm_num) (by omega)
      _ = ((10 ^ 32) ^ a)⁻¹ := by rw [zpow_neg, zpow_mul]; rfl
      _ ≤ ((2 ^ 106) ^ a)⁻¹ := by gcongr; norm_num
      _ = (2 ^ (-a : Int)) ^ 106 := by rw [zpow_neg, zpow_natCast, inv_pow, ← pow_mul, ← pow_mul, mul_comm]

/-- A fraction is not less than the power of ten of its first digit. -/
theorem ten_pow_exponentOf {num den : Nat} {v : ℚ} (value : (num / den : ℚ) = v) (low : 2 ^ (-1074 : Int) ≤ v)
    (high : v < 2 ^ (1024 : Int)) : (10 : ℚ) ^ exponentOf num den ≤ v := by
  have positive : (0 : ℚ) < v := lt_of_lt_of_le (by positivity) low
  have some : num ≠ 0 := by
    rintro rfl
    rw [← value] at positive
    simp at positive
  have some' : den ≠ 0 := by
    rintro rfl
    rw [← value] at positive
    simp at positive
  have fits {x : Int} (h : (scale num den (-x)).1 ≥ (scale num den (-x)).2) : (10 : ℚ) ^ x ≤ v := by
    obtain ⟨some', scaled⟩ := scale_value num some' (-x)
    have one : (1 : ℚ) ≤ num / den * 10 ^ (-x) := by
      rw [← scaled, one_le_div (by exact_mod_cast Nat.pos_of_ne_zero some')]
      exact_mod_cast h
    rwa [value, zpow_neg, ← div_eq_mul_inv, one_le_div (by positivity)] at one
  unfold exponentOf
  dsimp only
  split
  next h => exact fits (by simpa using h)
  split
  next h => exact fits (by simpa using h)
  split
  next h => exact fits (by simpa using h)
  next =>
    generalize exponent : (num.log2 : Int) - (den.log2 : Int) - 1 = l
    have numLow : (2 : ℚ) ^ (num.log2 : Int) ≤ num := by
      rw [zpow_natCast]
      exact_mod_cast Nat.log2_self_le some
    have numHigh : (num : ℚ) < 2 ^ ((num.log2 + 1 : Nat) : Int) := by
      rw [zpow_natCast]
      exact_mod_cast Nat.lt_log2_self
    have denLow : (2 : ℚ) ^ (den.log2 : Int) ≤ den := by
      rw [zpow_natCast]
      exact_mod_cast Nat.log2_self_le some'
    have denHigh : (den : ℚ) < 2 ^ ((den.log2 + 1 : Nat) : Int) := by
      rw [zpow_natCast]
      exact_mod_cast Nat.lt_log2_self
    have denPos : (0 : ℚ) < den := lt_of_lt_of_le (by positivity) denLow
    have above : (2 : ℚ) ^ l < v := by
      rw [← value, lt_div_iff₀ denPos]
      calc (2 : ℚ) ^ l * den < 2 ^ l * 2 ^ ((den.log2 + 1 : Nat) : Int) := mul_lt_mul_of_pos_left denHigh (by positivity)
        _ = 2 ^ (num.log2 : Int) := by
          rw [← zpow_add₀ two_ne_zero, ← exponent]
          congr 1
          push_cast
          omega
        _ ≤ num := numLow
    have below : v < 2 ^ (l + 2) := by
      rw [← value, div_lt_iff₀ denPos]
      calc (num : ℚ) < 2 ^ ((num.log2 + 1 : Nat) : Int) := numHigh
        _ = 2 ^ (l + 2) * 2 ^ (den.log2 : Int) := by
          rw [← zpow_add₀ two_ne_zero, ← exponent]
          congr 1
          push_cast
          omega
        _ ≤ 2 ^ (l + 2) * den := mul_le_mul_of_nonneg_left denLow (by positivity)
    have most : l < 1024 := (zpow_lt_zpow_iff_right₀ one_lt_two).mp (above.trans high)
    have least : -1074 < l + 2 := (zpow_lt_zpow_iff_right₀ one_lt_two).mp (low.trans_lt below)
    exact (ten_pow_le_two_pow (by omega) (by omega) (by omega)).trans (le_of_lt above)

/-! ### The search -/

section Search

variable {x : Binary64} {m : Nat} {e : Int}

/-- The units of a double are its significand and exponent. -/
theorem cast_units (parts : x.magnitude = (m, e)) : (unitsOf x.size : ℚ) = m * 2 ^ e * 2 ^ 1074 := by
  obtain ⟨low, value⟩ := magnitude_units parts
  rw [value, Nat.cast_mul, Nat.cast_pow, mul_assoc]
  congr 1
  rw [← zpow_natCast, ← zpow_natCast, ← zpow_add₀ two_ne_zero, Int.toNat_of_nonneg (by omega)]
  rfl

theorem significand_ne_zero (some : x.size ≠ 0) (parts : x.magnitude = (m, e)) : m ≠ 0 := by
  rintro rfl
  have value := (magnitude_units parts).2
  rw [Nat.zero_mul] at value
  have positive := unitsOf_lt (Nat.pos_of_ne_zero some)
  omega

variable (finite : x.isFinite = true) (some : x.size ≠ 0) (parts : x.magnitude = (m, e))
include finite some parts

/-- A decimal reads back as a double if it rounds to it. -/
theorem readsBack_iff (c : Nat) (k : Int) : readsBack m e c k = true ↔ Rounds (decimal c k) x.size := by
  have own : roundBits m e false = x.size := by
    have rounds : Rounds (m * 2 ^ (e + 1074)) (roundBits m e false) :=
      rounds_roundBits (significand_ne_zero some parts) (fun _ => rfl) nofun
    rw [zpow_add₀ two_ne_zero, ← mul_assoc, show (1074 : Int) = (1074 : Nat) from rfl, zpow_natCast,
      ← cast_units parts] at rounds
    exact rounds.unique (rounds_self (size_lt_of_isFinite finite))
  obtain ⟨some', scaled⟩ := scale_value c Nat.one_ne_zero k
  obtain ⟨n, rounds, ratio⟩ := exists_ofRatio (scale c 1 k).1 some'
  rw [scaled, Nat.cast_one, div_one] at rounds
  have bits : (withSign false ⟨n.toUInt64⟩).bits.toNat = n := by
    have bounded := rounds.bounded
    have value : n.toUInt64.toNat = n := UInt64.toNat_ofNat_of_lt' (by
      rw [infiniteSize] at bounded
      exact Nat.lt_of_le_of_lt bounded (by decide))
    rw [withSign, UInt64.toNat_or, toNat_and_mask (n := 63) _ rfl, value]
    rw [infiniteSize] at bounded
    exact (Nat.or_zero _).trans (Nat.mod_eq_of_lt (Nat.lt_of_le_of_lt bounded (by decide)))
  have unfolded : readsBack m e c k = (x.size == n) := by
    unfold readsBack
    dsimp only
    rw [ratio, bits, own]
  rw [unfolded, beq_iff_eq]
  constructor
  · rintro rfl
    exact rounds
  · exact fun own => own.unique rounds

/-- The double is within the range of doubles. -/
theorem value_bounds : (2 : ℚ) ^ (-1074 : Int) ≤ m * 2 ^ e ∧ (m * 2 ^ e : ℚ) < 2 ^ (1024 : Int) := by
  have units := cast_units parts
  have scale : (0 : ℚ) < 2 ^ 1074 := by positivity
  constructor
  · have one : (1 : ℚ) ≤ m * 2 ^ e * 2 ^ 1074 := by
      rw [← units]
      have positive := unitsOf_lt (Nat.pos_of_ne_zero some)
      exact_mod_cast Nat.lt_of_le_of_lt (Nat.zero_le _) positive
    rwa [zpow_neg, show (1074 : Int) = (1074 : Nat) from rfl, zpow_natCast, inv_le_iff_one_le_mul₀ scale]
  · have below : (unitsOf x.size : ℚ) < 2 ^ 52 * 2 ^ 2046 := by
      have place := unitsOf_grid (t := 2046) (s := 4503599627370496) (by decide) (.inr (Nat.le_refl _))
      have less := unitsOf_lt_cast (size_lt_of_isFinite finite)
      rw [show infiniteSize = 2046 * 4503599627370496 + 4503599627370496 from rfl, place] at less
      rw [Nat.cast_mul, Nat.cast_pow] at less
      refine less.trans_le (le_of_eq ?_)
      congr 1
    rw [units, ← pow_add] at below
    refine lt_of_mul_lt_mul_right ?_ (le_of_lt scale)
    rw [show (1024 : Int) = (1024 : Nat) from rfl, zpow_natCast, ← pow_add]
    exact below

/-- With seventeen digits, the decimal below a double or the one above it reads back. -/
theorem readsBack_seventeen {n d : Nat} {k lead : Int} (reached : (10 : ℚ) ^ lead ≤ m * 2 ^ e) (place : k = lead - 16)
    (some' : d ≠ 0) (scaled : (n / d : ℚ) = m * 2 ^ e * 10 ^ (-k)) :
    readsBack m e (n / d) k = true ∨ readsBack m e (n / d + 1) k = true := by
  rw [readsBack_iff finite some parts, readsBack_iff finite some parts]
  have positive : (0 : ℚ) < d := by exact_mod_cast Nat.pos_of_ne_zero some'
  have step : (0 : ℚ) < 10 ^ k := by positivity
  have cut : (n / d : ℚ) * 10 ^ k = m * 2 ^ e := by
    rw [scaled, zpow_neg]
    field_simp
  have low : ((n / d : Nat) : ℚ) * 10 ^ k ≤ m * 2 ^ e := by
    rw [← cut]
    refine mul_le_mul_of_nonneg_right ((le_div_iff₀ positive).mpr ?_) (le_of_lt step)
    exact_mod_cast Nat.div_mul_le_self n d
  have high : (m * 2 ^ e : ℚ) ≤ ((n / d : Nat) + 1) * 10 ^ k := by
    rw [← cut]
    refine mul_le_mul_of_nonneg_right ((div_le_iff₀ positive).mpr ?_) (le_of_lt step)
    exact_mod_cast Nat.le_of_lt (Nat.lt_mul_of_div_lt (Nat.lt_succ_self (n / d)) (Nat.pos_of_ne_zero some'))
  have leading : (10 : ℚ) ^ k * 10 ^ 16 ≤ m * 2 ^ e := by
    refine le_trans (le_of_eq ?_) reached
    rw [← zpow_natCast, ← zpow_add₀ (by norm_num), place]
    congr 1
    push_cast
    omega
  have units := cast_units parts
  have scale : (0 : ℚ) < 2 ^ 1074 := by positivity
  -- The nearer of the two is half a step away at most.
  have near {c : Nat} (half : |(c * 10 ^ k : ℚ) - m * 2 ^ e| ≤ 10 ^ k / 2) : Rounds (decimal c k) x.size := by
    refine rounds_of_near (size_lt_of_isFinite finite) ?_
    rw [units, decimal, ← sub_mul, abs_mul, abs_of_pos scale, mul_right_comm]
    refine mul_le_mul_of_nonneg_right ?_ (le_of_lt scale)
    linarith
  rcases le_total (m * 2 ^ e - (n / d : Nat) * 10 ^ k : ℚ) (10 ^ k / 2) with lower | upper
  · left
    refine near (abs_le.mpr ⟨?_, ?_⟩) <;> linarith
  · right
    refine near (abs_le.mpr ⟨?_, ?_⟩) <;> push_cast <;> linarith

/-- Whatever grid the search ends on, the digits that it finds read back. -/
theorem rounds_shortestFrom {lead : Int} (reached : (10 : ℚ) ^ lead ≤ m * 2 ^ e) (fuel count : Nat)
    (steps : fuel + count = 18) (more : fuel ≠ 0) :
    Rounds (decimal (shortestFrom m e (fraction m e).1 (fraction m e).2 lead fuel count).digits
      (shortestFrom m e (fraction m e).1 (fraction m e).2 lead fuel count).exponent) x.size := by
  have reads {c : Nat} {k : Int} (h : readsBack m e c k = true) : Rounds (decimal c k) x.size :=
    (readsBack_iff finite some parts c k).mp h
  induction fuel generalizing count with
  | zero => exact absurd rfl more
  | succ fuel ih =>
    obtain ⟨some', scaled⟩ := fraction_value m e
    rw [shortestFrom]
    dsimp only
    split
    next both =>
      rw [Bool.and_eq_true] at both
      split
      · exact reads both.1
      · exact reads both.2
    split
    next lowOk => exact reads lowOk
    split
    next highOk => exact reads highOk
    next noLow noHigh =>
      refine ih (count + 1) (by omega) ?_
      rintro rfl
      obtain rfl : count = 17 := by omega
      obtain ⟨some'', scaled'⟩ := scale_value (fraction m e).1 some' (-(lead - ((17 : Nat) : Int) + 1))
      rw [scaled] at scaled'
      rcases readsBack_seventeen finite some parts reached (by push_cast; omega) some'' scaled' with low | high
      · exact noLow low
      · exact noHigh high

end Search

/-! ### The result -/

theorem decimal_normalize_go (fuel : Nat) (d : Decimal) :
    decimal (Decimal.normalize.go fuel d).digits (Decimal.normalize.go fuel d).exponent = decimal d.digits d.exponent := by
  induction fuel generalizing d with
  | zero => rfl
  | succ fuel ih =>
    rw [Decimal.normalize.go]
    split
    next even =>
      rw [ih]
      have whole : d.digits = d.digits / 10 * 10 := by
        simp only [Bool.and_eq_true, beq_iff_eq] at even
        omega
      rw [decimal, decimal]
      dsimp only
      rw [zpow_add_one₀ (by norm_num)]
      conv_rhs => rw [whole]
      congr 1
      push_cast
      ring
    next => rfl

/-- The shortest digits of a double read back as the double. -/
theorem rounds_shortest {x : Binary64} (finite : x.isFinite = true) (some : x.size ≠ 0) :
    Rounds (decimal (shortest x).digits (shortest x).exponent) x.size := by
  obtain ⟨⟨m, e⟩, parts⟩ : ∃ p, x.magnitude = p := ⟨_, rfl⟩
  have value := fraction_value m e
  obtain ⟨low, high⟩ := value_bounds finite some parts
  have reached := ten_pow_exponentOf value.2 low high
  have found := rounds_shortestFrom finite some parts reached 17 1 rfl (by decide)
  have unfolded : shortest x =
      (shortestFrom m e (fraction m e).1 (fraction m e).2 (exponentOf (fraction m e).1 (fraction m e).2) 17 1).normalize := by
    rw [shortest, parts]
  rw [unfolded, Decimal.normalize, decimal_normalize_go]
  exact found

end LuaCapsule.Digits
