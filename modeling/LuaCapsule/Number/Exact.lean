import LuaCapsule.Number.Binary64

/-! The exact values of doubles. Every finite double is a whole number of units, a unit being
the least positive double, and an infinite one is given the next power of two; with that the
order of doubles, and that between doubles and integers, is the order of integers. -/

namespace LuaCapsule.Binary64

-- Powers are the core library's, here and where another instance is in scope as well. An exponent
-- that is a literal has its type written out, since the default for literals is that other instance.
attribute [local instance (high)] instPowNat

/-! ### The parts as arithmetic -/

theorem toNat_and_mask {m : UInt64} {n : Nat} (b : UInt64) (h : m.toNat = 2 ^ n - 1) :
    (b &&& m).toNat = b.toNat % 2 ^ n := by
  rw [UInt64.toNat_and, h, Nat.and_two_pow_sub_one_eq_mod]

theorem exponentField_eq (x : Binary64) :
    x.exponentField = x.bits.toNat / 4503599627370496 % 2048 := by
  rw [exponentField, toNat_and_mask (n := 11) _ rfl, UInt64.toNat_shiftRight,
    Nat.shiftRight_eq_div_pow]
  rfl

theorem fraction_eq (x : Binary64) : x.fraction = x.bits.toNat % 4503599627370496 :=
  toNat_and_mask (n := 52) _ rfl

theorem isNegative_eq (x : Binary64) :
    x.isNegative = decide (9223372036854775808 ≤ x.bits.toNat) := by
  have shifted : (x.bits >>> 63).toNat = x.bits.toNat / 9223372036854775808 := by
    rw [UInt64.toNat_shiftRight, Nat.shiftRight_eq_div_pow]
    rfl
  have bound : x.bits.toNat < 18446744073709551616 := x.bits.toNat_lt
  rw [isNegative, Bool.eq_iff_iff, beq_iff_eq, decide_eq_true_iff, ← UInt64.toNat_inj, shifted]
  simp
  omega

/-- The bits of the absolute value. -/
def size (x : Binary64) : Nat := x.bits.toNat % 9223372036854775808

/-- An integer with a sign given to it. -/
def signed (negative : Bool) (n : Nat) : Int := if negative then -(n : Int) else n

theorem signed_lt_signed {f : Nat → Nat} (zero : f 0 = 0) (mono : ∀ {i j}, i < j → f i < f j)
    (s t : Bool) (m n : Nat) : signed s (f m) < signed t (f n) ↔ signed s m < signed t n := by
  have reflects {i j : Nat} : f i < f j ↔ i < j := by
    refine ⟨fun h => Nat.lt_of_not_le fun le => ?_, mono⟩
    rcases Nat.lt_or_eq_of_le le with lt | rfl
    · exact Nat.lt_asymm h (mono lt)
    · exact Nat.lt_irrefl _ h
  have isZero (i : Nat) : f i = 0 ↔ i = 0 := by
    have h := reflects (i := 0) (j := i)
    omega
  have both := reflects (i := m) (j := n)
  have swapped := reflects (i := n) (j := m)
  have left := isZero m
  have right := isZero n
  cases s <;> cases t <;> simp [signed] <;> omega

theorem eq_of_parts {x y : Binary64} (size : x.size = y.size) (sign : x.isNegative = y.isNegative) :
    x = y := by
  obtain ⟨b⟩ := x
  obtain ⟨c⟩ := y
  rw [isNegative_eq, isNegative_eq, decide_eq_decide] at sign
  simp only [Binary64.size] at size sign
  have := b.toNat_lt
  have := c.toNat_lt
  congr 1
  exact UInt64.toNat_inj.mp (by omega)

theorem orderKey_eq (x : Binary64) : x.orderKey = signed x.isNegative x.size := by
  rw [orderKey, toNat_and_mask (n := 63) _ rfl]
  rfl

/-! ### Units -/

/-- The absolute value in units, from its bits. -/
def unitsOf (n : Nat) : Nat :=
  if n < 4503599627370496 then n
  else (4503599627370496 + n % 4503599627370496) * 2 ^ (n / 4503599627370496 - 1)

theorem unitsOf_lt_succ (n : Nat) : unitsOf n < unitsOf (n + 1) := by
  unfold unitsOf
  rcases Nat.lt_trichotomy (n + 1) 4503599627370496 with small | edge | large
  · rw [if_pos (by omega), if_pos small]
    omega
  · obtain rfl : n = 4503599627370495 := by omega
    decide
  · rw [if_neg (by omega), if_neg (by omega)]
    have power : 0 < 2 ^ (n / 4503599627370496 - 1) := Nat.two_pow_pos _
    by_cases last : n % 4503599627370496 = 4503599627370495
    · have quotient : (n + 1) / 4503599627370496 = n / 4503599627370496 + 1 := by omega
      have rest : (n + 1) % 4503599627370496 = 0 := by omega
      rw [quotient, rest, last,
        show n / 4503599627370496 + 1 - 1 = n / 4503599627370496 - 1 + 1 by omega, Nat.pow_succ]
      omega
    · have quotient : (n + 1) / 4503599627370496 = n / 4503599627370496 := by omega
      have rest : (n + 1) % 4503599627370496 = n % 4503599627370496 + 1 := by omega
      rw [quotient, rest]
      exact Nat.mul_lt_mul_of_pos_right (by omega) power

theorem unitsOf_lt {m n : Nat} (h : m < n) : unitsOf m < unitsOf n := by
  induction n with
  | zero => omega
  | succ n ih =>
    rcases Nat.lt_succ_iff_lt_or_eq.mp h with lt | rfl
    · exact Nat.lt_trans (ih lt) (unitsOf_lt_succ n)
    · exact unitsOf_lt_succ m

/-- The value of a double in units. -/
def units (x : Binary64) : Int := signed x.isNegative (unitsOf x.size)

theorem orderKey_lt (x y : Binary64) : x.orderKey < y.orderKey ↔ x.units < y.units := by
  rw [orderKey_eq, orderKey_eq]
  exact (signed_lt_signed rfl unitsOf_lt _ _ _ _).symm

theorem compare_orderKey (x y : Binary64) :
    compare x.orderKey y.orderKey = compare x.units y.units := by
  have lt := orderKey_lt x y
  have gt := orderKey_lt y x
  simp only [Int.compare_eq_ite_lt]
  simp only [lt, gt]


/-- Significand and exponent give the units of the absolute value. -/
theorem magnitude_units {x : Binary64} {m : Nat} {e : Int} (h : x.magnitude = (m, e)) :
    -1074 ≤ e ∧ unitsOf x.size = m * 2 ^ (e + 1074).toNat := by
  have bound : x.bits.toNat < 18446744073709551616 := x.bits.toNat_lt
  have field := exponentField_eq x
  have fraction := fraction_eq x
  have size : x.size = x.bits.toNat % 9223372036854775808 := rfl
  unfold magnitude at h
  split at h
  next zero =>
    rw [beq_iff_eq] at zero
    obtain ⟨rfl, rfl⟩ := Prod.mk.inj h
    refine ⟨by omega, ?_⟩
    rw [unitsOf, if_pos (by omega)]
    simp
    omega
  next nonzero =>
    rw [beq_iff_eq] at nonzero
    obtain ⟨rfl, rfl⟩ := Prod.mk.inj h
    refine ⟨by omega, ?_⟩
    rw [unitsOf, if_neg (by omega)]
    congr 2 <;> omega

theorem compare_mul_right {a b c : Int} (h : 0 < c) : compare (a * c) (b * c) = compare a b := by
  have lt (a b : Int) : a * c < b * c ↔ a < b := Int.mul_lt_mul_right h
  simp only [Int.compare_eq_ite_lt, lt]

theorem signed_mul (s : Bool) (m n : Nat) : signed s (m * n) = signed s m * n := by
  cases s with
  | true =>
    change -((m * n : Nat) : Int) = -(m : Int) * n
    rw [Int.natCast_mul, Int.neg_mul]
  | false => exact Int.natCast_mul m n

/-- A unit is two to the power of this number below one. -/
@[irreducible] def depth : Nat := 1074

theorem depth_eq : depth = 1074 := by rw [depth]

theorem signed_shiftRight_eq (s : Bool) (m k : Nat) (i : Int) :
    (if (m >>> k) <<< k == m then some (signed s (m >>> k)) else none) = some i
      ↔ signed s m = i * (2 ^ k : Nat) := by
  have pos : 0 < 2 ^ k := Nat.two_pow_pos k
  rw [Nat.shiftLeft_eq, Nat.shiftRight_eq_div_pow]
  generalize 2 ^ k = d at pos ⊢
  have whole := Nat.div_add_mod m d
  rw [Nat.mul_comm] at whole
  constructor
  · intro h
    split at h
    next exact =>
      rw [beq_iff_eq] at exact
      rw [← Option.some_inj.mp h, ← signed_mul, exact]
    next => cases h
  · intro h
    have divides : d ∣ m := by
      rw [← Int.natCast_dvd_natCast]
      have : (d : Int) ∣ signed s m := ⟨i, by rw [h, Int.mul_comm]⟩
      cases s
      · exact this
      · exact Int.dvd_neg.mp this
    have exact : m / d * d = m := Nat.div_mul_cancel divides
    rw [if_pos (by rw [beq_iff_eq]; exact exact), Option.some_inj]
    rw [← exact, signed_mul] at h
    exact Int.eq_of_mul_eq_mul_right (by omega) h

/-- The units of one. -/
def one : Nat := 2 ^ depth

theorem one_pos : 0 < one := Nat.two_pow_pos _

/-- One split at a power of two. -/
theorem one_eq {m n : Nat} (h : m + n = depth) : one = 2 ^ m * 2 ^ n := by
  rw [one, ← Nat.pow_add, h]

theorem size_infinite {x : Binary64} (h : x.isInfinite = true) : x.size = 9218868437227405312 := by
  have bound : x.bits.toNat < 18446744073709551616 := x.bits.toNat_lt
  have field := exponentField_eq x
  have fraction := fraction_eq x
  rw [isInfinite, Bool.and_eq_true, beq_iff_eq, beq_iff_eq] at h
  rw [size]
  omega

/-- The units of an infinite double outweigh those of every 64-bit integer. -/
theorem unitsOf_infinite {x : Binary64} (h : x.isInfinite = true) :
    2 ^ (64 : Nat) * one ≤ unitsOf x.size := by
  have field : (9218868437227405312 : Nat) / 4503599627370496 - 1 = 64 + depth + 908 := by
    rw [depth_eq]
  rw [size_infinite h, unitsOf, if_neg (by decide), field, one, ← Nat.pow_add]
  calc 2 ^ (64 + depth) ≤ 2 ^ (64 + depth + 908) := Nat.pow_le_pow_right (by decide) (by omega)
    _ ≤ _ := Nat.le_mul_of_pos_left _ (by decide)

/-- The order between a double and an integer is that of their units. -/
theorem compareInt_eq (x : Binary64) {i : Int} (h : i.natAbs ≤ 2 ^ (63 : Nat)) :
    x.compareInt i = compare x.units (i * one) := by
  have pos : (0 : Int) < one := Int.natCast_pos.mpr one_pos
  unfold compareInt
  split
  next infinite =>
    have large : (2 : Int) ^ (64 : Nat) * one ≤ unitsOf x.size := by exact_mod_cast unitsOf_infinite infinite
    have below : i * one < 2 ^ (64 : Nat) * one := Int.mul_lt_mul_of_pos_right (by omega) pos
    have above : -(2 ^ (64 : Nat)) * one < i * one := Int.mul_lt_mul_of_pos_right (by omega) pos
    rw [Int.neg_mul] at above
    rw [Int.compare_eq_ite_lt, Binary64.units, signed]
    split
    · rw [if_pos (by omega)]
    · rw [if_neg (by omega), if_pos (by omega)]
  next =>
    obtain ⟨⟨m, e⟩, parts⟩ : ∃ p, x.magnitude = p := ⟨_, rfl⟩
    obtain ⟨low, total⟩ := magnitude_units parts
    have power (n : Nat) : ((Nat.pow 2 n : Nat) : Int) = (2 ^ n : Nat) := rfl
    rw [parts]
    change (if e ≥ 0 then compare (signed x.isNegative m * Nat.pow 2 e.toNat) i
      else compare (signed x.isNegative m) (i * Nat.pow 2 (-e).toNat)) = _
    rw [units, total, signed_mul, power, power]
    split
    next =>
      have exponent : (e + 1074).toNat = e.toNat + depth := by
        rw [depth_eq]
        omega
      rw [exponent, Nat.pow_add, Int.natCast_mul, ← Int.mul_assoc, ← compare_mul_right pos]
      rfl
    next =>
      rw [one_eq (m := (-e).toNat) (n := (e + 1074).toNat) (by rw [depth_eq]; omega), Int.natCast_mul, ← Int.mul_assoc,
        compare_mul_right (Int.natCast_pos.mpr (Nat.two_pow_pos _))]

/-- A double denotes an integer when its units are a multiple of those of one. -/
theorem toInt?_eq_some {x : Binary64} {i : Int} :
    x.toInt? = some i ↔ x.isFinite = true ∧ x.units = i * one := by
  obtain ⟨⟨m, e⟩, parts⟩ : ∃ p, x.magnitude = p := ⟨_, rfl⟩
  obtain ⟨low, total⟩ := magnitude_units parts
  have shape : x.toInt? = if !x.isFinite then none
      else if e ≥ 0 then some (signed x.isNegative (m <<< e.toNat))
      else if (m >>> (-e).toNat) <<< (-e).toNat == m then some (signed x.isNegative (m >>> (-e).toNat))
      else none := by
    rw [toInt?, parts]
    rfl
  rw [shape, units, total]
  by_cases finite : x.isFinite = true
  · rw [finite]
    simp only [Bool.not_true, Bool.false_eq_true, if_false, true_and]
    split
    next =>
      have exponent : (e + 1074).toNat = e.toNat + depth := by
        rw [depth_eq]
        omega
      have pos : (one : Int) ≠ 0 := by
        have := one_pos
        omega
      rw [exponent, Nat.pow_add, ← Nat.mul_assoc, signed_mul, Nat.shiftLeft_eq, Option.some_inj]
      exact (Int.mul_eq_mul_right_iff pos).symm
    next =>
      have pos : ((2 ^ (e + 1074).toNat : Nat) : Int) ≠ 0 := by
        have := Nat.two_pow_pos (e + 1074).toNat
        omega
      rw [one_eq (m := (-e).toNat) (n := (e + 1074).toNat) (by rw [depth_eq]; omega), signed_mul,
        Int.natCast_mul, ← Int.mul_assoc, Int.mul_eq_mul_right_iff pos]
      exact signed_shiftRight_eq ..
  · simp [finite]

/-! ### 64-bit integers -/

theorem natAbs_toInt_le (i : Int64) : i.toInt.natAbs ≤ 2 ^ (63 : Nat) := by
  have := i.le_toInt
  have := i.toInt_lt
  omega

theorem isInt64_iff {i : Int} : isInt64 i = true ↔ -2 ^ (63 : Nat) ≤ i ∧ i < 2 ^ (63 : Nat) := by
  rw [isInt64, Bool.and_eq_true, decide_eq_true_iff, decide_eq_true_iff]
  rfl

theorem isInt64_toInt (i : Int64) : isInt64 i.toInt = true :=
  isInt64_iff.mpr ⟨i.le_toInt, i.toInt_lt⟩

theorem toInt_ofInt_of_isInt64 {i : Int} (h : isInt64 i = true) : (Int64.ofInt i).toInt = i :=
  Int64.toInt_ofInt_of_le (isInt64_iff.mp h).1 (isInt64_iff.mp h).2

theorem toInt64?_eq_some {x : Binary64} {i : Int64} :
    x.toInt64? = some i ↔ x.isFinite = true ∧ x.units = i.toInt * one := by
  rw [← toInt?_eq_some, toInt64?]
  constructor
  · intro h
    cases found : x.toInt? with
    | none => simp [found] at h
    | some j =>
      rw [found] at h
      simp only at h
      split at h
      next fits => rw [← Option.some_inj.mp h, toInt_ofInt_of_isInt64 fits]
      next => cases h
  · intro h
    rw [h]
    simp [isInt64_toInt]

/-- A number that denotes no 64-bit integer. -/
def isKey (x : Binary64) : Bool := !x.isNaN && x.toInt64?.isNone

theorem isNaN_eq_false {x : Binary64} (h : x.isKey = true) : x.isNaN = false := by
  simp only [isKey, Bool.and_eq_true, Bool.not_eq_true'] at h
  exact h.1

/-- The units of a number that denotes no 64-bit integer are not those of one. -/
theorem units_ne_of_isKey {x : Binary64} (h : x.isKey = true) (i : Int64) :
    x.units ≠ i.toInt * one := by
  intro same
  have number := isNaN_eq_false h
  simp only [isKey, Bool.and_eq_true, Option.isNone_iff_eq_none] at h
  by_cases finite : x.isFinite = true
  · have := toInt64?_eq_some.mpr ⟨finite, same⟩
    rw [h.2] at this
    cases this
  · have infinite : x.isInfinite = true := by
      simp only [isNaN, isFinite, isInfinite] at *
      simp_all
    have large := unitsOf_infinite infinite
    have small := natAbs_toInt_le i
    have equal : unitsOf x.size = i.toInt.natAbs * one := by
      have := congrArg Int.natAbs same
      rw [Int.natAbs_mul, Int.natAbs_natCast] at this
      rw [← this, units]
      cases x.isNegative <;> simp [signed]
    rw [equal] at large
    have := Nat.le_of_mul_le_mul_right large one_pos
    omega

/-- Numbers that denote no 64-bit integers are equal when their units are. -/
theorem eq_of_units {x y : Binary64} (hx : x.isKey = true) (h : x.units = y.units) : x = y := by
  have nonzero : x.units ≠ 0 := by
    have := units_ne_of_isKey hx 0
    simpa using this
  have same {i j : Nat} (h : unitsOf i = unitsOf j) : i = j := by
    rcases Nat.lt_trichotomy i j with lt | rfl | lt
    · have := unitsOf_lt lt
      omega
    · rfl
    · have := unitsOf_lt lt
      omega
  rw [units, units] at h
  rw [units] at nonzero
  revert h nonzero
  cases sx : x.isNegative <;> cases sy : y.isNegative <;> simp only [signed] <;> intro h nonzero
  · exact eq_of_parts (same (by simp at h; omega)) (by rw [sx, sy])
  · simp at h nonzero
    omega
  · simp at h nonzero
    omega
  · exact eq_of_parts (same (by simp at h; omega)) (by rw [sx, sy])

end LuaCapsule.Binary64
