import Mathlib.Algebra.Order.Floor.Semifield
import Mathlib.Data.Int.Log
import Mathlib.Data.Rat.Floor
import Mathlib.Tactic.FieldSimp
import Mathlib.Tactic.Linarith
import Mathlib.Tactic.Positivity
import StirlingTriangle.Rounding

/-!
# Rounding

How far rounding moves a number, and that it keeps the order.

* `NearestEven` is the nearest integer, of two the even one. It is monotone
  (`NearestEven.mono`): between two numbers that are rounded to neighbours there is
  a tie at most, and ties go to the same side;
* `RoundsTo` is the nearest multiple of the weight of the last binary digit that is
  kept, the `quantum`. This is off by at most half of it (`RoundsTo.abs_sub_le`),
  monotone, also from one power of two to the next (`RoundsTo.mono`), and keeps the
  integers with few enough digits (`roundsTo_natCast`);
* `roundDiv` and `Ratio.toBinary` are these: `nearestEven_roundDiv` and
  `Ratio.roundsTo_toBinary`.
-/

namespace StirlingTriangle

/-! ## To the nearest integer -/

/-- `k` is the integer nearest to `x`, of two the even one. -/
structure NearestEven (x : ℚ) (k : Nat) : Prop where
  abs_sub_le : |(k : ℚ) - x| ≤ 1 / 2
  even_of_tie : |(k : ℚ) - x| = 1 / 2 → Even k

theorem NearestEven.mono {x y : ℚ} {k l : Nat} (hx : NearestEven x k) (hy : NearestEven y l)
    (h : x ≤ y) : k ≤ l := by
  by_contra hlt
  have hnext : (l : ℚ) + 1 ≤ k := by exact_mod_cast Nat.lt_of_not_le hlt
  have hupper := (abs_le.1 hx.abs_sub_le).2
  have hlower := (abs_le.1 hy.abs_sub_le).1
  -- both are the tie between `l` and the next integer, which is `k`
  have hk : (k : ℚ) = l + 1 := by linarith
  have hevenNext : Even k := by
    refine hx.even_of_tie ?_
    have hdistance : (k : ℚ) - x = 1 / 2 := by linarith
    rw [hdistance, abs_of_pos one_half_pos]
  have heven : Even l := by
    refine hy.even_of_tie ?_
    have hdistance : (l : ℚ) - y = -(1 / 2) := by linarith
    rw [hdistance, abs_neg, abs_of_pos one_half_pos]
  have hsucc : k = l + 1 := by exact_mod_cast hk
  rw [hsucc, Nat.even_add_one] at hevenNext
  exact hevenNext heven

theorem nearestEven_natCast (k : Nat) : NearestEven k k := by
  constructor <;> norm_num

theorem abs_roundDiv_sub_le (num : Nat) {den : Nat} (h : 0 < den) :
    |(roundDiv num den : ℚ) - num / den| ≤ 1 / 2 := by
  obtain ⟨hupper, hlower⟩ := @roundDiv_error num den h
  have hden : (0 : ℚ) < den := by exact_mod_cast h
  have hupper : 2 * ((den : ℚ) * roundDiv num den) ≤ 2 * num + den := by exact_mod_cast hupper
  have hlower : 2 * (num : ℚ) ≤ 2 * (den * roundDiv num den) + den := by exact_mod_cast hlower
  have hscaled : ((roundDiv num den : ℚ) - num / den) * den = den * roundDiv num den - num := by
    field_simp
  rw [abs_le]
  constructor
  · refine le_of_mul_le_mul_right ?_ hden
    rw [hscaled]
    linarith
  · refine le_of_mul_le_mul_right ?_ hden
    rw [hscaled]
    linarith

/-- A tie goes to the even neighbour. -/
theorem even_roundDiv_of_tie {num den k : Nat} (h : 0 < den) (htie : 2 * num = (2 * k + 1) * den) :
    Even (roundDiv num den) := by
  have hdouble : den * (2 * k) = 2 * (den * k) := Nat.mul_left_comm den 2 k
  have hsum : 2 * num = 2 * (den * k) + den := by
    rw [htie, Nat.add_mul, Nat.one_mul, Nat.mul_comm, hdouble]
  have hquotient : num / den = k := by
    refine Nat.div_eq_of_lt_le ?_ ?_
    · rw [Nat.mul_comm]
      omega
    · rw [Nat.mul_comm, Nat.mul_add, Nat.mul_one]
      omega
  have hrest : 2 * (num % den) = den := by
    have hmod := Nat.div_add_mod num den
    rw [hquotient] at hmod
    omega
  unfold roundDiv
  simp only
  rw [if_neg (by omega), if_neg (by omega), Nat.even_iff]
  omega

theorem nearestEven_roundDiv (num : Nat) {den : Nat} (h : 0 < den) :
    NearestEven (num / den) (roundDiv num den) where
  abs_sub_le := abs_roundDiv_sub_le num h
  even_of_tie := by
    intro htie
    have hden : (den : ℚ) ≠ 0 := by exact_mod_cast h.ne'
    -- the tie is between the rounded quotient and the integer before or after it
    rcases (abs_eq one_half_pos.le).1 htie with hbefore | hafter
    · have hone : 1 ≤ roundDiv num den := by
        have hnonneg : (0 : ℚ) ≤ num / den := by positivity
        have hpos : (0 : ℚ) < roundDiv num den := by linarith
        exact_mod_cast hpos
      refine even_roundDiv_of_tie (k := roundDiv num den - 1) h ?_
      have hquotient : (num : ℚ) / den = roundDiv num den - 1 / 2 := by linarith
      rw [div_eq_iff hden] at hquotient
      have hscaled : 2 * (num : ℚ) = (2 * ((roundDiv num den - 1 : ℕ) : ℚ) + 1) * den := by
        rw [hquotient, Nat.cast_sub hone]
        push_cast
        ring
      exact_mod_cast hscaled
    · refine even_roundDiv_of_tie (k := roundDiv num den) h ?_
      have hquotient : (num : ℚ) / den = roundDiv num den + 1 / 2 := by linarith
      rw [div_eq_iff hden] at hquotient
      have hscaled : 2 * (num : ℚ) = (2 * roundDiv num den + 1) * den := by
        rw [hquotient]
        ring
      exact_mod_cast hscaled

/-! ## To a number of binary digits -/

/-- The weight of the last of `bits` binary digits. -/
def quantum (bits : Nat) (x : ℚ) : ℚ := 2 ^ (Int.log 2 x + 1 - bits)

/-- `y` is `x` rounded to `bits` binary digits. -/
def RoundsTo (bits : Nat) (x y : ℚ) : Prop :=
  ∃ k : Nat, NearestEven (x / quantum bits x) k ∧ y = k * quantum bits x

section BinaryDigits

variable {bits : Nat} {x x' y y' : ℚ}

theorem quantum_pos (bits : Nat) (x : ℚ) : 0 < quantum bits x := zpow_pos two_pos _

theorem quantum_le {k : ℤ} (hpos : 0 < x) (h : x < 2 ^ (k + 1)) (bits : Nat) :
    quantum bits x ≤ 2 ^ (k + 1 - bits) := by
  have hlog : Int.log 2 x < k + 1 := (Int.lt_zpow_iff_log_lt Nat.one_lt_two hpos).1 h
  exact zpow_le_zpow_right₀ one_le_two (by omega)

/-- The powers of two from the first digit on are multiples of the quantum. -/
theorem two_zpow_eq_mul_quantum (bits : Nat) (x : ℚ) (e : Nat) (h : 1 ≤ bits + e) :
    (2 : ℚ) ^ (Int.log 2 x + e) = (2 ^ (bits + e - 1) : ℕ) * quantum bits x := by
  rw [quantum]
  push_cast
  rw [← zpow_natCast, ← zpow_add₀ two_ne_zero]
  congr 1
  omega

namespace RoundsTo

/-- Rounding is off by at most half a quantum. -/
theorem abs_sub_le (h : RoundsTo bits x y) : |y - x| ≤ quantum bits x / 2 := by
  obtain ⟨k, hk, rfl⟩ := h
  have hpos := quantum_pos bits x
  have hscaled : k * quantum bits x - x = (k - x / quantum bits x) * quantum bits x := by
    rw [sub_mul, div_mul_cancel₀ _ hpos.ne']
  rw [hscaled, abs_mul, abs_of_pos hpos]
  calc |(k : ℚ) - x / quantum bits x| * quantum bits x
      ≤ 1 / 2 * quantum bits x := mul_le_mul_of_nonneg_right hk.abs_sub_le hpos.le
    _ = quantum bits x / 2 := by ring

/-- Rounding does not leave the two powers of two around a number. -/
theorem mem_powers (hbits : 0 < bits) (hx : 0 < x) (h : RoundsTo bits x y) :
    (2 : ℚ) ^ Int.log 2 x ≤ y ∧ y ≤ 2 ^ (Int.log 2 x + 1) := by
  obtain ⟨k, hk, rfl⟩ := h
  have hpos := quantum_pos bits x
  have hlow := two_zpow_eq_mul_quantum bits x 0 hbits
  have hhigh := two_zpow_eq_mul_quantum bits x 1 (Nat.le_add_left 1 bits)
  rw [Nat.cast_zero, add_zero] at hlow
  rw [Nat.cast_one] at hhigh
  constructor
  · have hle : 2 ^ (bits + 0 - 1) ≤ k := by
      refine (nearestEven_natCast _).mono hk ?_
      rw [le_div_iff₀ hpos, ← hlow]
      exact Int.zpow_log_le_self Nat.one_lt_two hx
    rw [hlow]
    exact mul_le_mul_of_nonneg_right (by exact_mod_cast hle) hpos.le
  · have hle : k ≤ 2 ^ (bits + 1 - 1) := by
      refine hk.mono (nearestEven_natCast _) ?_
      rw [div_le_iff₀ hpos, ← hhigh]
      exact (Int.lt_zpow_succ_log_self Nat.one_lt_two x).le
    rw [hhigh]
    exact mul_le_mul_of_nonneg_right (by exact_mod_cast hle) hpos.le

theorem pos (hbits : 0 < bits) (hx : 0 < x) (h : RoundsTo bits x y) : 0 < y :=
  (zpow_pos two_pos _).trans_le (h.mem_powers hbits hx).1

/-- Rounding keeps the order. -/
theorem mono (hbits : 0 < bits) (hx : 0 < x) (h : RoundsTo bits x y) (h' : RoundsTo bits x' y')
    (hle : x ≤ x') : y ≤ y' := by
  rcases eq_or_lt_of_le (Int.log_mono_right hx hle) with heq | hlt
  · -- of the same exponent, they are rounded to multiples of the same quantum
    have hquantum : quantum bits x = quantum bits x' := by rw [quantum, quantum, heq]
    have hpos := quantum_pos bits x'
    obtain ⟨k, hk, rfl⟩ := h
    obtain ⟨k', hk', rfl⟩ := h'
    rw [hquantum] at hk ⊢
    have hkk' : k ≤ k' := hk.mono hk' (div_le_div_of_nonneg_right hle hpos.le)
    exact mul_le_mul_of_nonneg_right (by exact_mod_cast hkk') hpos.le
  · -- otherwise there is a power of two between them
    calc y ≤ 2 ^ (Int.log 2 x + 1) := (h.mem_powers hbits hx).2
      _ ≤ 2 ^ Int.log 2 x' := zpow_le_zpow_right₀ one_le_two hlt
      _ ≤ y' := (h'.mem_powers hbits (hx.trans_le hle)).1

theorem unique (hbits : 0 < bits) (hx : 0 < x) (h : RoundsTo bits x y) (h' : RoundsTo bits x y') :
    y = y' :=
  le_antisymm (h.mono hbits hx h' le_rfl) (h'.mono hbits hx h le_rfl)

end RoundsTo

/-- A multiple of the quantum is not moved. -/
theorem roundsTo_of_multiple {k : Nat} (h : x = k * quantum bits x) : RoundsTo bits x x := by
  refine ⟨k, ?_, h⟩
  have hquotient : x / quantum bits x = k := by
    rw [div_eq_iff (quantum_pos bits x).ne']
    exact h
  rw [hquotient]
  exact nearestEven_natCast k

/-- An integer with no more digits is not moved, nor is the first one with more. -/
theorem roundsTo_natCast {k : Nat} (hbits : 0 < bits) (hk : 0 < k) (h : k ≤ 2 ^ bits) :
    RoundsTo bits k k := by
  have hlog : Int.log 2 (k : ℚ) = Nat.log 2 k := Int.log_natCast 2 k
  rcases Nat.eq_or_lt_of_le h with rfl | hlt
  · have hpow := two_zpow_eq_mul_quantum bits ((2 ^ bits : ℕ) : ℚ) 0 hbits
    rw [hlog, Nat.log_pow Nat.one_lt_two, Nat.cast_zero, add_zero, zpow_natCast] at hpow
    refine roundsTo_of_multiple (Eq.trans ?_ hpow)
    push_cast
    rfl
  · have hdigits : Nat.log 2 k < bits := Nat.log_lt_of_lt_pow hk.ne' hlt
    have hquantum : (2 : ℚ) ^ (bits - 1 - Nat.log 2 k) * quantum bits k = 1 := by
      rw [quantum, hlog, ← zpow_natCast, ← zpow_add₀ two_ne_zero]
      convert zpow_zero (2 : ℚ) using 2
      omega
    refine roundsTo_of_multiple (k := k * 2 ^ (bits - 1 - Nat.log 2 k)) ?_
    push_cast
    rw [mul_assoc, hquantum, mul_one]

end BinaryDigits

/-! ## Quotients -/

namespace Ratio

def value (x : Ratio) : ℚ := x.num / x.den

variable {bits : Nat} {x : Ratio}

theorem value_natCast (k : Nat) : value ⟨k, 1⟩ = k := by
  simp [value]

theorem log_value (h : 1 ≤ x.value) : Int.log 2 x.value = Nat.log2 (x.num / x.den) := by
  rw [Int.log_of_one_le_right 2 h, Nat.log2_eq_log_two, value, Nat.floor_div_eq_div]

theorem toBinary_of_le (h : Nat.log2 (x.num / x.den) + 1 ≤ bits) :
    x.toBinary bits =
      ⟨roundDiv (x.num * 2 ^ (bits - (Nat.log2 (x.num / x.den) + 1))) x.den,
        2 ^ (bits - (Nat.log2 (x.num / x.den) + 1))⟩ := by
  rw [← Nat.shiftLeft_eq, ← Nat.one_mul (2 ^ _), ← Nat.shiftLeft_eq]
  exact if_pos h

theorem toBinary_of_lt (h : bits < Nat.log2 (x.num / x.den) + 1) :
    x.toBinary bits =
      ⟨roundDiv x.num (x.den * 2 ^ (Nat.log2 (x.num / x.den) + 1 - bits)) *
        2 ^ (Nat.log2 (x.num / x.den) + 1 - bits), 1⟩ := by
  rw [← Nat.shiftLeft_eq, ← Nat.shiftLeft_eq]
  exact if_neg (Nat.not_le.2 h)

theorem den_pos_toBinary (bits : Nat) (x : Ratio) : 0 < (x.toBinary bits).den := by
  rcases Nat.lt_or_ge bits (Nat.log2 (x.num / x.den) + 1) with h | h
  · rw [toBinary_of_lt h]
    exact Nat.one_pos
  · rw [toBinary_of_le h]
    exact Nat.two_pow_pos _

theorem roundsTo_toBinary (hden : 0 < x.den) (h : 1 ≤ x.value) (bits : Nat) :
    RoundsTo bits x.value (x.toBinary bits).value := by
  have hden' : (x.den : ℚ) ≠ 0 := by exact_mod_cast hden.ne'
  have hlog := log_value h
  rcases Nat.lt_or_ge bits (Nat.log2 (x.num / x.den) + 1) with hdigits | hdigits
  · rw [toBinary_of_lt hdigits]
    generalize hzeros : Nat.log2 (x.num / x.den) + 1 - bits = zeros
    have hquantum : quantum bits x.value = 2 ^ zeros := by
      rw [quantum, hlog, ← zpow_natCast]
      congr 1
      omega
    refine ⟨roundDiv x.num (x.den * 2 ^ zeros), ?_, ?_⟩
    · have hnearest := nearestEven_roundDiv x.num (Nat.mul_pos hden (Nat.two_pow_pos zeros))
      push_cast at hnearest
      rwa [hquantum, value, div_div]
    · rw [hquantum, value]
      push_cast
      ring
  · rw [toBinary_of_le hdigits]
    generalize hplaces : bits - (Nat.log2 (x.num / x.den) + 1) = places
    have hquantum : quantum bits x.value = 1 / 2 ^ places := by
      rw [quantum, hlog, one_div, ← zpow_natCast, ← zpow_neg]
      congr 1
      omega
    refine ⟨roundDiv (x.num * 2 ^ places) x.den, ?_, ?_⟩
    · have hnearest := nearestEven_roundDiv (x.num * 2 ^ places) hden
      have hquotient : x.value / quantum bits x.value = ((x.num * 2 ^ places : ℕ) : ℚ) / x.den := by
        rw [hquantum, value]
        push_cast
        field_simp
      rwa [hquotient]
    · rw [hquantum, value]
      push_cast
      ring

theorem nearestEven_hundredths (h : 0 < x.den) : NearestEven (100 * x.value) x.hundredths := by
  have hnearest := nearestEven_roundDiv (100 * x.num) h
  push_cast at hnearest
  rwa [mul_div_assoc] at hnearest

end Ratio

end StirlingTriangle
