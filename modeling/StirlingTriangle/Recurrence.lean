/-!
# Recurrence

The triangle itself, over the unbounded natural numbers. Column 1 and the
diagonal hold 1; every other entry is the one up and to the left plus `m`
times the one above. These are the Stirling numbers of the second kind.

* `stirling n m` is the entry in row `n` and column `m`; it is 1 wherever
  `m ≤ 1` or `n ≤ m`, so the borders need no side condition;
* `stirling_column_one`, `stirling_diagonal` and `stirling_inner` are the
  three equations that determine it.
-/

namespace StirlingTriangle

/-- The entry of the triangle in row `n` and column `m`. -/
def stirling : Nat → Nat → Nat
  | 0, _ => 1
  | n + 1, m => if m ≤ 1 ∨ n + 1 ≤ m then 1 else stirling n (m - 1) + m * stirling n m

theorem stirling_border {n m : Nat} (h : m ≤ 1 ∨ n ≤ m) : stirling n m = 1 := by
  cases n with
  | zero => rfl
  | succ n => rw [stirling, if_pos h]

theorem stirling_column_one (n : Nat) : stirling n 1 = 1 :=
  stirling_border (.inl (Nat.le_refl 1))

theorem stirling_diagonal (n : Nat) : stirling n n = 1 :=
  stirling_border (.inr (Nat.le_refl n))

/-- Inside the borders an entry is determined by the two entries of the row above. -/
theorem stirling_inner {n m : Nat} (hm : 1 < m) (hn : m < n) :
    stirling n m = stirling (n - 1) (m - 1) + m * stirling (n - 1) m := by
  cases n with
  | zero => omega
  | succ n => rw [stirling, if_neg (by omega)]; rfl

theorem stirling_pos (n m : Nat) : 0 < stirling n m := by
  induction n generalizing m with
  | zero => exact Nat.one_pos
  | succ n ih =>
    rw [stirling]
    split
    · exact Nat.one_pos
    · have := ih (m - 1)
      omega

end StirlingTriangle
