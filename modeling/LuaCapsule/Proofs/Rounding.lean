import LuaCapsule.Number.Exact
import Mathlib.Algebra.Order.Field.Power
import Mathlib.Data.Rat.Cast.Order
import Mathlib.Tactic.FieldSimp
import Mathlib.Tactic.Linarith
import Mathlib.Tactic.NormNum
import Mathlib.Tactic.Positivity
import Mathlib.Tactic.Ring

/-! Rounding to the nearest double. Numbers are counted in units, a unit being the least positive
double. A number of units rounds to a size if it lies between the middles of the gaps on both sides
of it, and a middle itself rounds to the even one of its neighbours. There is one such size for each
number, and all conversions to doubles find it. -/

namespace LuaCapsule.Binary64

/-! ### Gaps -/

/-- The size of an infinite double. -/
def infiniteSize : Nat := 9218868437227405312

/-- Twice the middle between a double and the next one, in units. -/
def middle (n : Nat) : Nat := unitsOf n + unitsOf (n + 1)

theorem middle_lt {m n : Nat} (h : m < n) : middle m < middle n :=
  Nat.add_lt_add (unitsOf_lt h) (unitsOf_lt (Nat.succ_lt_succ h))

theorem middle_le {m n : Nat} (h : m ≤ n) : middle m ≤ middle n := by
  rcases Nat.lt_or_eq_of_le h with lt | rfl
  · exact Nat.le_of_lt (middle_lt lt)
  · exact Nat.le_refl _

/-- Sizes count the steps of a grid as long as its numbers have the digits of a double. -/
theorem unitsOf_grid {t s : Nat} (small : s ≤ 9007199254740992) (normal : t = 0 ∨ 4503599627370496 ≤ s) :
    unitsOf (t * 4503599627370496 + s) = s * 2 ^ t := by
  unfold unitsOf
  rcases Nat.lt_or_ge s (4503599627370496) with sub | full
  · obtain rfl : t = 0 := normal.resolve_right (Nat.not_le.mpr sub)
    rw [if_pos (by omega)]
    simp
  · rw [if_neg (by omega)]
    rcases Nat.lt_or_eq_of_le small with inside | rfl
    · rw [show (t * 4503599627370496 + s) % 4503599627370496 = s - 4503599627370496 by omega,
        show (t * 4503599627370496 + s) / 4503599627370496 - 1 = t by omega, show 4503599627370496 + (s - 4503599627370496) = s by omega]
    · rw [show (t * 4503599627370496 + 9007199254740992) % 4503599627370496 = 0 by omega,
        show (t * 4503599627370496 + 9007199254740992) / 4503599627370496 - 1 = t + 1 by omega, Nat.pow_succ]
      omega

/-- The gap below a double is at least the last of its fifty-three digits. -/
theorem unitsOf_gap (n : Nat) : unitsOf (n + 1) ≤ 9007199254740992 * (unitsOf (n + 1) - unitsOf n) := by
  unfold unitsOf
  rcases Nat.lt_trichotomy (n + 1) 4503599627370496 with small | edge | large
  · rw [if_pos small, if_pos (by omega : n < 4503599627370496)]
    omega
  · obtain rfl : n = 4503599627370495 := by omega
    decide
  · rw [if_neg (by omega), if_neg (by omega)]
    generalize power : 2 ^ (n / 4503599627370496 - 1) = p
    by_cases last : n % 4503599627370496 = 4503599627370495
    · rw [show (n + 1) / 4503599627370496 - 1 = n / 4503599627370496 - 1 + 1 by omega,
        show (n + 1) % 4503599627370496 = 0 by omega, last, Nat.pow_succ, power]
      omega
    · rw [show (n + 1) / 4503599627370496 - 1 = n / 4503599627370496 - 1 by omega,
        show (n + 1) % 4503599627370496 = n % 4503599627370496 + 1 by omega, power, ← Nat.sub_mul,
        show 4503599627370496 + (n % 4503599627370496 + 1) - (4503599627370496 + n % 4503599627370496) = 1 by omega, Nat.one_mul]
      exact Nat.mul_le_mul_right p (by omega)

/-! ### The nearest double -/

/-- A number of units that is nearest to the double of a size: the middles of the gaps beside it lie on
the two sides of the number, or in it if the size is even. Behind infinity there is no gap. -/
structure Rounds (u : ℚ) (n : Nat) : Prop where
  bounded : n ≤ infiniteSize
  above : ∀ l, n = l + 1 → (middle l < 2 * u ∨ middle l = 2 * u ∧ n % 2 = 0)
  below : n < infiniteSize → (2 * u < middle n ∨ 2 * u = middle n ∧ n % 2 = 0)

theorem Rounds.not_lt {u : ℚ} {m n : Nat} (first : Rounds u m) (second : Rounds u n) : ¬m < n := by
  intro less
  obtain ⟨l, rfl⟩ : ∃ l, n = l + 1 := ⟨n - 1, by omega⟩
  have order : (middle m : ℚ) ≤ middle l := by exact_mod_cast middle_le (Nat.le_of_lt_succ less)
  rcases first.below (Nat.lt_of_lt_of_le less second.bounded) with under | ⟨tie, even⟩
  · rcases second.above l rfl with higher | ⟨tie', _⟩ <;> linarith
  · rcases second.above l rfl with higher | ⟨tie', even'⟩
    · linarith
    · have same : middle m = middle l := by exact_mod_cast (show (middle m : ℚ) = middle l by rw [← tie, tie'])
      rcases Nat.lt_or_eq_of_le (Nat.le_of_lt_succ less) with lt | rfl
      · have := middle_lt lt
        omega
      · omega

/-- There is one nearest double. -/
theorem Rounds.unique {u : ℚ} {m n : Nat} (first : Rounds u m) (second : Rounds u n) : m = n := by
  have := first.not_lt second
  have := second.not_lt first
  omega

theorem unitsOf_lt_cast {m n : Nat} (h : m < n) : (unitsOf m : ℚ) < unitsOf n := by exact_mod_cast unitsOf_lt h

/-- What is so near to a double that it is told from it by the seventeenth digit at most rounds to it. -/
theorem rounds_of_near {u : ℚ} {n : Nat} (finite : n < infiniteSize)
    (near : |u - unitsOf n| * (2 * 10 ^ 16) ≤ unitsOf n) : Rounds u n := by
  obtain ⟨low, high⟩ := abs_le.mp (show |u - unitsOf n| ≤ unitsOf n / (2 * 10 ^ 16) from (le_div_iff₀ (by positivity)).mpr near)
  have gap (n : Nat) : (unitsOf (n + 1) : ℚ) ≤ 9007199254740992 * (unitsOf (n + 1) - unitsOf n) := by
    have whole := unitsOf_gap n
    rw [Nat.mul_sub] at whole
    have le : unitsOf n ≤ unitsOf (n + 1) := Nat.le_of_lt (unitsOf_lt (Nat.lt_succ_self n))
    have : (unitsOf (n + 1) : ℚ) + 9007199254740992 * unitsOf n ≤ 9007199254740992 * unitsOf (n + 1) := by
      have le' := Nat.mul_le_mul_left (9007199254740992) le
      exact_mod_cast (show unitsOf (n + 1) + 9007199254740992 * unitsOf n ≤ 9007199254740992 * unitsOf (n + 1) by omega)
    linarith
  refine ⟨Nat.le_of_lt finite, ?_, fun _ => .inl ?_⟩
  · rintro l rfl
    left
    have width := gap l
    have pos : (0 : ℚ) < unitsOf (l + 1) := by exact_mod_cast Nat.lt_of_le_of_lt (Nat.zero_le _) (unitsOf_lt (Nat.lt_succ_self l))
    rw [middle]
    push_cast
    linarith
  · have width := gap n
    have less := unitsOf_lt_cast (Nat.lt_succ_self n)
    have nonneg : (0 : ℚ) ≤ unitsOf n := by positivity
    rw [middle]
    push_cast
    linarith

/-- A double rounds to itself. -/
theorem rounds_self {n : Nat} (finite : n < infiniteSize) : Rounds (unitsOf n) n :=
  rounds_of_near finite (by simp)

/-- A number that is rounded on a grid that has the digits of a double rounds to the size of the step. -/
theorem rounds_grid {u : ℚ} {t s : Nat} (least : t = 0 ∨ 4503599627370496 * 2 ^ t ≤ u) (most : u < 9007199254740992 * 2 ^ t)
    (low : (2 * s - 1) * 2 ^ t < 2 * u ∨ (2 * s - 1) * 2 ^ t = 2 * u ∧ s % 2 = 0)
    (high : 2 * u < (2 * s + 1) * 2 ^ t ∨ 2 * u = (2 * s + 1) * 2 ^ t ∧ s % 2 = 0) :
    Rounds u (min (t * 4503599627370496 + s) infiniteSize) := by
  have width : (0 : ℚ) < 2 ^ t := by positivity
  have small : s ≤ 9007199254740992 := by
    have reached : (2 * s - 1) * 2 ^ t ≤ 2 * u := low.elim le_of_lt fun tie => le_of_eq tie.1
    have inside : (2 * s - 1 : ℚ) < 2 * 9007199254740992 := lt_of_mul_lt_mul_right (by linarith) (le_of_lt width)
    have : 2 * s < 2 * 9007199254740992 + 1 := by exact_mod_cast (show (2 * s : ℚ) < 2 * 9007199254740992 + 1 by linarith)
    omega
  have normal : t = 0 ∨ 4503599627370496 ≤ s := by
    refine least.imp_right fun least => ?_
    have reached : 2 * u ≤ (2 * s + 1) * 2 ^ t := high.elim le_of_lt fun tie => le_of_eq tie.1
    have inside : (2 * 4503599627370496 : ℚ) ≤ 2 * s + 1 := le_of_mul_le_mul_right (by linarith) width
    have : 2 * 4503599627370496 ≤ 2 * s + 1 := by exact_mod_cast inside
    omega
  have even : (t * 4503599627370496 + s) % 2 = s % 2 := by omega
  have here := unitsOf_grid small normal
  have lower (l : Nat) (is : t * 4503599627370496 + s = l + 1) : (middle l : ℚ) < 2 * u ∨ (middle l : ℚ) = 2 * u ∧ s % 2 = 0 := by
    rw [is] at here
    by_cases sub : t = 0 ∨ 4503599627370496 < s
    · obtain ⟨s, rfl⟩ : ∃ s', s = s' + 1 := ⟨s - 1, by omega⟩
      have before := unitsOf_grid (t := t) (s := s) (by omega) (by omega)
      rw [show t * 4503599627370496 + s = l by omega] at before
      have value : (middle l : ℚ) = (2 * (s + 1 : Nat) - 1) * 2 ^ t := by
        rw [middle, here, before]
        push_cast
        ring
      rw [value]
      exact low
    · left
      obtain ⟨t, rfl⟩ : ∃ t', t = t' + 1 := ⟨t - 1, by omega⟩
      obtain rfl : s = 4503599627370496 := by omega
      have place : t * 4503599627370496 + (9007199254740992 - 1) = l := by omega
      have before := unitsOf_grid (t := t) (Nat.sub_le 9007199254740992 1) (.inr (by norm_num))
      rw [place] at before
      have reached := least.resolve_left (by omega)
      have pos : (0 : ℚ) < 2 ^ t := by positivity
      have value : (middle l : ℚ) = (18014398509481984 - 1) * 2 ^ t := by
        rw [middle, here, before]
        push_cast
        ring
      rw [pow_succ 2 t] at reached
      rw [value]
      linarith
  have upper : (2 * u : ℚ) < middle (t * 4503599627370496 + s) ∨ 2 * u = middle (t * 4503599627370496 + s) ∧ s % 2 = 0 := by
    rcases Nat.lt_or_eq_of_le small with inside | full
    · have after := unitsOf_grid (t := t) (s := s + 1) (by omega) (by omega)
      have value : (middle (t * 4503599627370496 + s) : ℚ) = (2 * s + 1) * 2 ^ t := by
        rw [middle, here, Nat.add_assoc, after]
        push_cast
        ring
      rw [value]
      exact high
    · left
      have after := unitsOf_lt (Nat.lt_succ_self (t * 4503599627370496 + s))
      rw [middle, here]
      rw [here] at after
      generalize unitsOf (t * 4503599627370496 + s + 1) = next at after ⊢
      have after : (s * 2 ^ t : ℚ) < next := by exact_mod_cast after
      rw [full] at after ⊢
      push_cast at after ⊢
      linarith
  rcases Nat.lt_or_ge (t * 4503599627370496 + s) infiniteSize with finite | beyond
  · rw [Nat.min_eq_left (Nat.le_of_lt finite)]
    refine ⟨Nat.le_of_lt finite, fun l is => ?_, fun _ => ?_⟩
    · rw [even]
      exact lower l is
    · rw [even]
      exact upper
  · rw [Nat.min_eq_right beyond]
    refine ⟨Nat.le_refl _, ?_, fun less => absurd less (Nat.lt_irrefl _)⟩
    intro l is
    have even : infiniteSize % 2 = 0 := by decide
    obtain ⟨l', is'⟩ : ∃ l', t * 4503599627370496 + s = l' + 1 := ⟨t * 4503599627370496 + s - 1, by omega⟩
    have order : (middle l : ℚ) ≤ middle l' := by exact_mod_cast middle_le (by omega)
    have reached : (middle l' : ℚ) ≤ 2 * u := (lower l' is').elim le_of_lt fun tie => le_of_eq tie.1
    rcases lt_or_eq_of_le (order.trans reached) with less | same
    · exact .inl less
    · exact .inr ⟨same, even⟩

/-! ### Numbers in binary -/

/-- A number cut off after some bits, and rounded by what was cut off. -/
theorem half_even {m s : Nat} {sticky : Bool} {w : ℚ} (exact : sticky = false → w = m)
    (between : sticky = true → m < w ∧ w < m + 1) (some : 0 < s) :
    let q := m >>> s
    let r := m - (q <<< s)
    let half := 1 <<< (s - 1)
    let c := if r > half || (r == half && (sticky || q % 2 == 1)) then q + 1 else q
    ((2 * c - 1) * 2 ^ s < 2 * w ∨ (2 * c - 1) * 2 ^ s = 2 * w ∧ c % 2 = 0) ∧
      (2 * w < (2 * c + 1) * 2 ^ s ∨ 2 * w = (2 * c + 1) * 2 ^ s ∧ c % 2 = 0) := by
  obtain ⟨s, rfl⟩ : ∃ s', s = s' + 1 := ⟨s - 1, by omega⟩
  intro q r half c
  have halfIs : half = 2 ^ s := Nat.one_shiftLeft s
  have parts : m = q * 2 ^ (s + 1) + r ∧ r < 2 ^ (s + 1) := by
    have cut : q * 2 ^ (s + 1) ≤ m := by
      change m >>> (s + 1) * 2 ^ (s + 1) ≤ m
      rw [Nat.shiftRight_eq_div_pow]
      exact Nat.div_mul_le_self ..
    have rest : r = m - q * 2 ^ (s + 1) := by
      change m - (q <<< (s + 1)) = _
      rw [Nat.shiftLeft_eq]
    have whole : m < q * 2 ^ (s + 1) + 2 ^ (s + 1) := by
      change m < m >>> (s + 1) * 2 ^ (s + 1) + 2 ^ (s + 1)
      rw [Nat.shiftRight_eq_div_pow]
      exact Nat.lt_div_mul_add (Nat.two_pow_pos _)
    omega
  have value : (m : ℚ) = q * (2 * 2 ^ s) + r := by
    have := congrArg (Nat.cast : Nat → ℚ) parts.1
    push_cast at this
    rw [this, pow_succ]
    ring
  have inside : (r : ℚ) + 1 ≤ 2 * 2 ^ s := by
    have := parts.2
    rw [Nat.pow_succ] at this
    exact_mod_cast (show r + 1 ≤ 2 * 2 ^ s by omega)
  have pos : (0 : ℚ) < 2 ^ s := by positivity
  have low : (m : ℚ) ≤ w ∧ w < m + 1 := by
    cases sticky with
    | false => simp [exact rfl]
    | true => exact ⟨le_of_lt (between rfl).1, (between rfl).2⟩
  rw [pow_succ]
  have decision : c = if r > half || (r == half && (sticky || q % 2 == 1)) then q + 1 else q := rfl
  rcases Nat.lt_trichotomy r half with less | tie | more
  · have down : c = q := by
      rw [decision]
      simp [Nat.not_lt.mpr (Nat.le_of_lt less), Nat.ne_of_lt less]
    have below : (r : ℚ) + 1 ≤ 2 ^ s := by
      rw [halfIs] at less
      exact_mod_cast less
    rw [down]
    exact ⟨.inl (by linarith), .inl (by linarith)⟩
  · have here : (r : ℚ) = 2 ^ s := by
      rw [tie, halfIs]
      push_cast
      rfl
    cases sticky with
    | true =>
      have up : c = q + 1 := by
        rw [decision]
        simp [tie]
      have higher := (between rfl).1
      rw [up]
      push_cast
      exact ⟨.inl (by linarith), .inl (by linarith)⟩
    | false =>
      have same := exact rfl
      rcases Nat.mod_two_eq_zero_or_one q with even | odd
      · have down : c = q := by
          rw [decision]
          simp [tie, even]
        rw [down]
        exact ⟨.inl (by linarith), .inr ⟨by linarith, even⟩⟩
      · have up : c = q + 1 := by
          rw [decision]
          simp [tie, odd]
        rw [up]
        push_cast
        exact ⟨.inr ⟨by linarith, by omega⟩, .inl (by linarith)⟩
  · have up : c = q + 1 := by
      rw [decision]
      simp [more]
    have above : (2 : ℚ) ^ s + 1 ≤ r := by
      rw [halfIs] at more
      exact_mod_cast more
    rw [up]
    push_cast
    exact ⟨.inl (by linarith), .inl (by linarith)⟩

/-- The bits that are found for a number in binary are those of the nearest double. -/
theorem rounds_roundBits {m : Nat} {e : Int} {sticky : Bool} {w : ℚ} (some : m ≠ 0) (exact : sticky = false → w = m)
    (between : sticky = true → m < w ∧ w < m + 1 ∧ 52 < m.log2) :
    Rounds (w * 2 ^ (e + 1074)) (roundBits m e sticky) := by
  obtain ⟨target, is⟩ : ∃ target, target = max ((m.log2 : Int) + e - 52) (-1074) := ⟨_, rfl⟩
  obtain ⟨t, place⟩ : ∃ t : Nat, target + 1074 = t := ⟨(target + 1074).toNat, by omega⟩
  have unit : (0 : ℚ) < 2 ^ (e + 1074) := by positivity
  have reached : (2 : ℚ) ^ m.log2 ≤ w := by
    have : (2 : ℚ) ^ m.log2 ≤ m := by exact_mod_cast Nat.log2_self_le some
    cases sticky with
    | false => rwa [exact rfl]
    | true => exact this.trans (le_of_lt (between rfl).1)
  have bounded : w < 2 ^ (m.log2 + 1) := by
    have : (m : ℚ) + 1 ≤ 2 ^ (m.log2 + 1) := by exact_mod_cast Nat.lt_log2_self
    cases sticky with
    | false =>
      rw [exact rfl]
      linarith
    | true => exact (between rfl).2.1.trans_le this
  have grid : (2 : ℚ) ^ t = 2 ^ (target - e) * 2 ^ (e + 1074) := by
    rw [← zpow_natCast, ← place, ← zpow_add₀ two_ne_zero]
    congr 1
    omega
  have least : t = 0 ∨ 4503599627370496 * 2 ^ t ≤ w * 2 ^ (e + 1074) := by
    by_cases zero : t = 0
    · exact .inl zero
    · right
      have same : (4503599627370496 : ℚ) * 2 ^ t = 2 ^ m.log2 * 2 ^ (e + 1074) := by
        rw [show (4503599627370496 : ℚ) = 2 ^ (52 : ℤ) by norm_num, ← zpow_natCast, ← zpow_natCast,
          ← zpow_add₀ two_ne_zero, ← zpow_add₀ two_ne_zero]
        congr 1
        omega
      rw [same]
      exact mul_le_mul_of_nonneg_right reached (le_of_lt unit)
  have most : w * 2 ^ (e + 1074) < 9007199254740992 * 2 ^ t := by
    refine (mul_lt_mul_of_pos_right bounded unit).trans_le ?_
    rw [show (9007199254740992 : ℚ) = 2 ^ (53 : ℤ) by norm_num, ← zpow_natCast, ← zpow_natCast,
      ← zpow_add₀ two_ne_zero, ← zpow_add₀ two_ne_zero]
    exact zpow_le_zpow_right₀ one_le_two (by push_cast; omega)
  have unfolded : roundBits m e sticky = min (t * 4503599627370496 +
      (if target - e ≤ 0 then m <<< (-(target - e)).toNat
      else
        let s := (target - e).toNat
        let q := m >>> s
        let r := m - (q <<< s)
        let half := 1 <<< (s - 1)
        if r > half || (r == half && (sticky || q % 2 == 1)) then q + 1 else q)) infiniteSize := by
    rw [roundBits, if_neg (by simpa using some)]
    simp only [← is]
    rw [place]
    rfl
  rw [unfolded]
  split
  next short =>
    have crisp : sticky = false := by
      cases sticky with
      | false => rfl
      | true =>
        have := (between rfl).2.2
        omega
    have same : w * 2 ^ (e + 1074) = (m <<< (-(target - e)).toNat : Nat) * 2 ^ t := by
      rw [exact crisp, Nat.shiftLeft_eq]
      push_cast
      rw [grid, ← zpow_natCast, mul_assoc, ← mul_assoc (2 ^ _) (2 ^ _), ← zpow_add₀ two_ne_zero]
      rw [show ((-(target - e)).toNat : Int) + (target - e) = 0 by omega]
      simp
    have width : (0 : ℚ) < 2 ^ t := by positivity
    refine rounds_grid least most ?_ ?_
    · left
      rw [same]
      linarith
    · left
      rw [same]
      linarith
  next long =>
    have rounded := half_even exact (fun is => ⟨(between is).1, (between is).2.1⟩) (show 0 < (target - e).toNat by omega)
    have shift : (2 : ℚ) ^ (target - e) = 2 ^ (target - e).toNat := by
      rw [← zpow_natCast]
      congr 1
      omega
    rw [shift] at grid
    dsimp only at rounded ⊢
    obtain ⟨low, high⟩ := rounded
    refine rounds_grid least most ?_ ?_
    · rw [grid, ← mul_assoc, ← mul_assoc]
      refine low.imp (fun less => mul_lt_mul_of_pos_right less unit) fun tie => ⟨by rw [tie.1], tie.2⟩
    · rw [grid, ← mul_assoc, ← mul_assoc]
      refine high.imp (fun less => mul_lt_mul_of_pos_right less unit) fun tie => ⟨by rw [tie.1], tie.2⟩

/-! ### Fractions and decimals -/

theorem rounds_zero {u : ℚ} (small : 2 * u < 1) : Rounds u 0 where
  bounded := Nat.zero_le _
  above := nofun
  below := fun _ => .inl (by
    rw [show middle 0 = 1 from rfl]
    exact_mod_cast small)

theorem rounds_infinite {u : ℚ} (large : 2 ^ 2098 ≤ u) : Rounds u infiniteSize where
  bounded := Nat.le_refl _
  above := by
    rintro l is
    left
    have place : 2046 * 4503599627370496 + 4503599627370496 = l + 1 := by
      rw [← is]
      rfl
    have here := unitsOf_grid (t := 2046) (s := 4503599627370496) (by decide) (.inr (Nat.le_refl _))
    rw [place] at here
    have less := unitsOf_lt_cast (Nat.lt_succ_self l)
    have here : (unitsOf (l + 1) : ℚ) = 2 ^ 52 * 2 ^ 2046 := by
      rw [here, Nat.cast_mul, Nat.cast_pow, show (2 ^ 52 : ℚ) = (4503599627370496 : Nat) by norm_num]
      rfl
    rw [show 2098 = 52 + 2046 from rfl, pow_add, ← here] at large
    rw [middle]
    push_cast
    linarith
  below := fun less => absurd less (Nat.lt_irrefl _)

theorem ofMagnitude_eq {m n : Nat} {e : Int} {sticky : Bool} {w : ℚ} (negative : Bool) (some : m ≠ 0)
    (exact : sticky = false → w = m) (between : sticky = true → m < w ∧ w < m + 1 ∧ 52 < m.log2)
    (rounds : Rounds (w * 2 ^ (e + 1074)) n) : ofMagnitude negative m e sticky = withSign negative ⟨n.toUInt64⟩ := by
  rw [ofMagnitude, (rounds_roundBits some exact between).unique rounds]

/-- A fraction becomes the nearest double. -/
theorem exists_ofRatio (num : Nat) {den : Nat} (some : den ≠ 0) :
    ∃ n, Rounds (num / den * 2 ^ 1074) n ∧ ∀ negative, ofRatio negative num den = withSign negative ⟨n.toUInt64⟩ := by
  by_cases zero : num = 0
  · refine ⟨0, rounds_zero (by simp [zero]), fun negative => ?_⟩
    rw [ofRatio, zero]
    rfl
  obtain ⟨k, shift⟩ : ∃ k, 66 + den.log2 - num.log2 = k := ⟨_, rfl⟩
  have unfolded (negative : Bool) : ofRatio negative num den = withSign negative
      ⟨(roundBits (num <<< k / den) (-(k : Int)) (num <<< k % den != 0)).toUInt64⟩ := by
    rw [ofRatio, if_neg (by simp [zero, some]), shift]
    rfl
  refine ⟨_, ?_, unfolded⟩
  have positive : (0 : ℚ) < den := by exact_mod_cast Nat.pos_of_ne_zero some
  have parts : (num * 2 ^ k : ℚ) = den * (num <<< k / den : Nat) + (num <<< k % den : Nat) := by
    have := Nat.div_add_mod (num <<< k) den
    rw [Nat.shiftLeft_eq] at this ⊢
    exact_mod_cast this.symm
  have long : 65 ≤ (num <<< k / den).log2 := by
    have up : 2 ^ (66 + den.log2) ≤ num <<< k := by
      rw [Nat.shiftLeft_eq]
      calc 2 ^ (66 + den.log2) ≤ 2 ^ (num.log2 + k) := Nat.pow_le_pow_right (by decide) (by omega)
        _ = 2 ^ num.log2 * 2 ^ k := Nat.pow_add ..
        _ ≤ num * 2 ^ k := Nat.mul_le_mul_right _ (Nat.log2_self_le zero)
    have quotient : 2 ^ 65 ≤ num <<< k / den := by
      rw [Nat.le_div_iff_mul_le (Nat.pos_of_ne_zero some)]
      calc 2 ^ 65 * den ≤ 2 ^ 65 * 2 ^ (den.log2 + 1) := Nat.mul_le_mul_left _ (Nat.le_of_lt Nat.lt_log2_self)
        _ = 2 ^ (66 + den.log2) := by
          rw [← Nat.pow_add]
          congr 1
          omega
        _ ≤ num <<< k := up
    exact (Nat.le_log2 (by omega)).mpr quotient
  have same : (num / den * 2 ^ 1074 : ℚ) = num * 2 ^ k / den * 2 ^ (-(k : Int) + 1074) := by
    rw [zpow_add₀ two_ne_zero, zpow_neg, zpow_natCast]
    field_simp
  rw [same]
  refine rounds_roundBits ?_ ?_ ?_
  · rintro none
    rw [none] at long
    simp at long
  · intro even
    have whole : num <<< k % den = 0 := by simpa using even
    rw [parts, whole, div_eq_iff positive.ne']
    push_cast
    ring
  · intro odd
    have part : 0 < num <<< k % den := Nat.pos_of_ne_zero (by simpa using odd)
    have bound := Nat.mod_lt (num <<< k) (Nat.pos_of_ne_zero some)
    have part : (0 : ℚ) < (num <<< k % den : Nat) := by exact_mod_cast part
    have bound : ((num <<< k % den : Nat) : ℚ) < den := by exact_mod_cast bound
    refine ⟨?_, ?_, by omega⟩
    · rw [lt_div_iff₀ positive, parts]
      linarith
    · rw [div_lt_iff₀ positive, parts]
      linarith

theorem ofRatio_eq {num den n : Nat} (negative : Bool) (some : den ≠ 0)
    (rounds : Rounds (num / den * 2 ^ 1074) n) : ofRatio negative num den = withSign negative ⟨n.toUInt64⟩ := by
  obtain ⟨n', rounds', same⟩ := exists_ofRatio num some
  rw [same, rounds'.unique rounds]

/-- A decimal in units. -/
def decimal (c : Nat) (k : Int) : ℚ := c * 10 ^ k * 2 ^ 1074

theorem lt_ten_pow (c : Nat) : c < 10 ^ (c.log2 / 3 + 1) :=
  calc c < 2 ^ (c.log2 + 1) := Nat.lt_log2_self
    _ ≤ 2 ^ (3 * (c.log2 / 3 + 1)) := Nat.pow_le_pow_right (by decide) (by omega)
    _ = 8 ^ (c.log2 / 3 + 1) := by rw [Nat.pow_mul]
    _ ≤ 10 ^ (c.log2 / 3 + 1) := Nat.pow_le_pow_left (by decide) _

theorem two_pow_le_ten_pow : (2 ^ 1203 : ℚ) ≤ 10 ^ 401 := by
  rw [show 1203 = 3 * 401 from rfl, pow_mul]
  exact pow_le_pow_left₀ (by norm_num) (by norm_num) _

/-- A decimal becomes the nearest double. -/
theorem ofDecimal_eq {c n : Nat} {k : Int} (negative : Bool) (rounds : Rounds (decimal c k) n) :
    ofDecimal negative c k = withSign negative ⟨n.toUInt64⟩ := by
  rw [ofDecimal]
  rw [decimal] at rounds
  by_cases zero : c = 0
  · rw [zero] at rounds ⊢
    rw [rounds.unique (rounds_zero (by simp))]
    rfl
  rw [if_neg (by simpa using zero)]
  have one : (1 : ℚ) ≤ c := by exact_mod_cast Nat.pos_of_ne_zero zero
  split
  next large =>
    have huge : (2 ^ 2098 : ℚ) ≤ c * 10 ^ k * 2 ^ 1074 := by
      have power : (10 ^ 401 : ℚ) ≤ 10 ^ k := by
        rw [← zpow_natCast]
        exact zpow_le_zpow_right₀ (by norm_num) (by omega)
      have step : (2 ^ 1024 : ℚ) ≤ 2 ^ 1203 := pow_le_pow_right₀ one_le_two (by omega)
      have most : (2 ^ 1024 : ℚ) ≤ c * 10 ^ k := by
        refine (step.trans (two_pow_le_ten_pow.trans power)).trans (le_mul_of_one_le_left (by positivity) one)
      rw [show 2098 = 1024 + 1074 from rfl, pow_add]
      exact mul_le_mul_of_nonneg_right most (by positivity)
    rw [rounds.unique (rounds_infinite huge)]
    rfl
  split
  next nonneg =>
    obtain ⟨k, rfl⟩ := Int.eq_ofNat_of_zero_le nonneg
    refine ofMagnitude_eq (w := c * 10 ^ k) negative ?_ ?_ nofun ?_
    · exact Nat.mul_ne_zero zero (Nat.ne_of_gt (Nat.pow_pos (by decide)))
    · intro _
      rw [Int.toNat_natCast, Nat.pow_eq]
      push_cast
      rfl
    · rwa [zpow_natCast] at rounds
  split
  next small =>
    have tiny : 2 * (c * 10 ^ k * 2 ^ 1074) < (1 : ℚ) := by
      have below : (c : ℚ) < 10 ^ ((c.log2 / 3 + 1 : Nat) : Int) := by
        rw [zpow_natCast]
        exact_mod_cast lt_ten_pow c
      have power : (c * 10 ^ k : ℚ) ≤ 10 ^ (-401 : Int) := by
        refine (mul_le_mul_of_nonneg_right (le_of_lt below) (by positivity)).trans ?_
        rw [← zpow_add₀ (by norm_num)]
        exact zpow_le_zpow_right₀ (by norm_num) (by push_cast; omega)
      have limit : (2 * (10 ^ (-401 : Int) * 2 ^ 1074) : ℚ) < 1 := by
        have step : (2 ^ 1075 : ℚ) < 2 ^ 1203 := pow_lt_pow_right₀ one_lt_two (by omega)
        have : (2 ^ 1075 : ℚ) < 10 ^ 401 := step.trans_le two_pow_le_ten_pow
        rw [zpow_neg, show (401 : Int) = ((401 : Nat) : Int) from rfl, zpow_natCast, inv_mul_eq_div, ← mul_div_assoc,
          div_lt_one (by positivity), ← pow_succ']
        exact this
      refine lt_of_le_of_lt ?_ limit
      exact mul_le_mul_of_nonneg_left (mul_le_mul_of_nonneg_right power (by positivity)) zero_le_two
    rw [rounds.unique (rounds_zero tiny)]
    rfl
  next negativeExponent _ =>
    refine ofRatio_eq negative (Nat.ne_of_gt (Nat.pow_pos (by decide))) ?_
    have same : (c / (Nat.pow 10 (-k).toNat : Nat) * 2 ^ 1074 : ℚ) = c * 10 ^ k * 2 ^ 1074 := by
      have power : ((Nat.pow 10 (-k).toNat : Nat) : ℚ) = (10 ^ k)⁻¹ := by
        rw [← zpow_neg, Nat.pow_eq]
        push_cast
        rw [← zpow_natCast]
        congr 1
        omega
      rw [power, div_inv_eq_mul]
    rwa [same]

/-! ### The double of a size -/

/-- Two to the power of the exponent, in units: the significand of a double of such bits. -/
theorem unitsOf_normal {n : Nat} (h : 4503599627370496 ≤ n) :
    unitsOf n = (4503599627370496 + n % 4503599627370496) * 2 ^ (n / 4503599627370496 - 1) :=
  if_neg (by omega)

theorem withSign_size (x : Binary64) : withSign x.isNegative ⟨x.size.toUInt64⟩ = x := by
  obtain ⟨b⟩ := x
  have bound := b.toNat_lt
  have small : b.toNat % 9223372036854775808 < 18446744073709551616 := by omega
  have back : (b.toNat % 9223372036854775808).toUInt64.toNat = b.toNat % 9223372036854775808 := by
    simp only [Nat.toUInt64_eq, UInt64.toNat_ofNat']
    exact Nat.mod_eq_of_lt small
  have split (n : Nat) (h : n < 2 ^ 63) : 2 ^ 63 + n = 9223372036854775808 ||| n := by
    have := Nat.two_pow_add_eq_or_of_lt h 1
    rwa [Nat.mul_one] at this
  have twice : b.toNat % 9223372036854775808 % 2 ^ 63 = b.toNat % 9223372036854775808 := by omega
  rw [isNegative_eq, withSign, size]
  congr 1
  rw [← UInt64.toNat_inj, UInt64.toNat_or, toNat_and_mask (n := 63) _ rfl, back, twice]
  by_cases negative : 9223372036854775808 ≤ b.toNat
  · rw [decide_eq_true negative, if_pos rfl, Nat.or_comm]
    have := split (b.toNat % 9223372036854775808) (by omega)
    change 9223372036854775808 ||| _ = _
    omega
  · rw [decide_eq_false negative, if_neg (by decide)]
    change _ ||| 0 = _
    rw [Nat.or_zero]
    omega

theorem size_lt_of_isFinite {x : Binary64} (finite : x.isFinite = true) : x.size < infiniteSize := by
  have bound : x.bits.toNat < 18446744073709551616 := x.bits.toNat_lt
  rw [isFinite, bne_iff_ne, exponentField_eq] at finite
  rw [size, infiniteSize]
  omega

theorem eq_infinity {x : Binary64} (infinite : x.isInfinite = true) :
    (if x.isNegative then infinity.neg else .infinity) = x := by
  have size := size_infinite infinite
  by_cases negative : x.isNegative = true
  · rw [if_pos negative]
    exact eq_of_parts size.symm negative.symm
  · rw [if_neg negative]
    exact eq_of_parts size.symm (Bool.eq_false_iff.mpr negative).symm

/-- What is exactly the absolute value of a finite double gives it back. -/
theorem ofMagnitude_exact {x : Binary64} {m : Nat} {e : Int} (nonzero : m ≠ 0) (finite : x.isFinite = true)
    (low : -1074 ≤ e) (value : unitsOf x.size = m * 2 ^ (e + 1074).toNat) : ofMagnitude x.isNegative m e false = x := by
  have units : (m * 2 ^ (e + 1074) : ℚ) = unitsOf x.size := by
    rw [value, Nat.cast_mul, Nat.cast_pow, ← zpow_natCast, Int.toNat_of_nonneg (by omega)]
    rfl
  have rounds : Rounds (m * 2 ^ (e + 1074)) x.size := units ▸ rounds_self (size_lt_of_isFinite finite)
  have same : ofMagnitude x.isNegative m e false = _ := ofMagnitude_eq _ nonzero (fun _ => rfl) nofun rounds
  exact same.trans (withSign_size x)

end LuaCapsule.Binary64
