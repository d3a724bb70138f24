/-!
# Rounding

Division of natural numbers rounded to the nearest integer or to a bounded
number of binary digits; a tie goes to the even neighbour.

* `roundDiv num den` is the integer nearest to `num / den`, and
  `roundDiv_error` says that it is off by at most a half;
* `Ratio.toBinary bits` keeps the leading `bits` binary digits of a
  quotient that is at least 1.
-/

namespace StirlingTriangle

/-- The integer nearest to `num / den`, of two the even one. -/
def roundDiv (num den : Nat) : Nat :=
  let q := num / den
  let r := num % den
  if 2 * r < den then q else if den < 2 * r then q + 1 else q + q % 2

/-- The rounded quotient is off by at most half a unit. -/
theorem roundDiv_error {num den : Nat} (h : 0 < den) :
    2 * (den * roundDiv num den) ≤ 2 * num + den ∧
      2 * num ≤ 2 * (den * roundDiv num den) + den := by
  have hq := Nat.div_add_mod num den
  have hr := Nat.mod_lt num h
  unfold roundDiv
  simp only
  split
  · omega
  split
  · rw [Nat.mul_add]
    omega
  · rcases Nat.mod_two_eq_zero_or_one (num / den) with h2 | h2 <;> rw [h2, Nat.mul_add] <;> omega

/-- An exact quotient. -/
structure Ratio where
  num : Nat
  den : Nat
deriving DecidableEq, Repr

namespace Ratio

/-- The quotient, at least 1, rounded to `bits` binary digits. -/
def toBinary (bits : Nat) (x : Ratio) : Ratio :=
  let digits := Nat.log2 (x.num / x.den) + 1
  if digits ≤ bits then
    let places := bits - digits
    ⟨roundDiv (x.num <<< places) x.den, 1 <<< places⟩
  else
    let zeros := digits - bits
    ⟨roundDiv x.num (x.den <<< zeros) <<< zeros, 1⟩

/-- The quotient in hundredths, rounded. -/
def hundredths (x : Ratio) : Nat := roundDiv (100 * x.num) x.den

end Ratio

end StirlingTriangle
