import StirlingTriangle.Outcome
import StirlingTriangle.Recurrence

/-!
# Growth

How the entries of the triangle grow, and what that says about words of `b`
bits.

* `stirling_le_of_cone`: an entry is at least as large as every entry that it
  depends on, so a step on the way overflows only if the result does;
* `le_stirling`: off the borders an entry is at least its column, so the
  factor of a step fits whenever the result does;
* `limit_width_le`: an entry of width `w` off the borders is at least
  `2 ^ w - 1`, which is why a request that is too wide needs no computation;
* `Word.step_stirling` combines them: the checked step of two true entries is
  the true entry, if that fits; `Word.bind_step_stirling` allows for operands
  that do not fit.
-/

namespace StirlingTriangle

/-! ## Monotone along the dependencies -/

theorem stirling_le_column (n m : Nat) : stirling n m ≤ stirling (n + 1) m := by
  rw [stirling.eq_2]
  split
  · rename_i h
    exact Nat.le_of_eq (stirling_border (by omega))
  · have : 1 * stirling n m ≤ m * stirling n m := Nat.mul_le_mul_right _ (by omega)
    omega

theorem stirling_le_diagonal (n m : Nat) : stirling n m ≤ stirling (n + 1) (m + 1) := by
  rw [stirling.eq_2]
  split
  · rename_i h
    exact Nat.le_of_eq (stirling_border (by omega))
  · rw [Nat.add_sub_cancel]
    exact Nat.le_add_right _ _

/-- The entries that `(n, m)` depends on lie in the columns up to `m` and on the diagonals up
to its own, and none of them is larger. -/
theorem stirling_le_of_cone {i j n m : Nat} (hcolumn : j ≤ m) (hdiagonal : i + m ≤ n + j) :
    stirling i j ≤ stirling n m := by
  -- first along the diagonal into column `m`, then down the column
  have along : ∀ k, stirling i j ≤ stirling (i + k) (j + k) := by
    intro k
    induction k with
    | zero => exact Nat.le_refl _
    | succ k ih => exact Nat.le_trans ih (stirling_le_diagonal (i + k) (j + k))
  have down : ∀ k, stirling (i + (m - j)) m ≤ stirling (i + (m - j) + k) m := by
    intro k
    induction k with
    | zero => exact Nat.le_refl _
    | succ k ih => exact Nat.le_trans ih (stirling_le_column (i + (m - j) + k) m)
  calc stirling i j
      ≤ stirling (i + (m - j)) (j + (m - j)) := along (m - j)
    _ = stirling (i + (m - j)) m := by rw [show j + (m - j) = m from by omega]
    _ ≤ stirling (i + (m - j) + (n - (i + (m - j)))) m := down _
    _ = stirling n m := by rw [show i + (m - j) + (n - (i + (m - j))) = n from by omega]

theorem stirling_shifted_le {p : Pair} (h : p.isBase = false) :
    stirling p.shifted.n p.shifted.m ≤ stirling p.n p.m := by
  obtain ⟨hm, hn⟩ := Pair.isBase_eq_false_iff.1 h
  refine stirling_le_of_cone (Nat.sub_le p.m 1) ?_
  simp only [Pair.shifted]
  omega

theorem stirling_column_le (p : Pair) : stirling p.column.n p.column.m ≤ stirling p.n p.m := by
  refine stirling_le_of_cone (Nat.le_refl p.m) ?_
  simp only [Pair.column]
  omega

theorem le_stirling {n m : Nat} (hm : 1 < m) (hn : m < n) : m ≤ stirling n m := by
  have hpos : m * 1 ≤ m * stirling (n - 1) m := Nat.mul_le_mul_left m (stirling_pos (n - 1) m)
  rw [stirling_inner hm hn]
  omega

/-! ## Exponential in the width -/

theorem Word.limit_succ (b : Nat) : limit (b + 1) = 2 * limit b := by
  show Nat.pow 2 b * 2 = 2 * Nat.pow 2 b
  rw [Nat.mul_comm]

theorem Word.limit_pos (b : Nat) : 0 < limit b := Nat.pow_pos (by decide)

theorem Word.one_lt_limit {b : Nat} (hb : 0 < b) : 1 < limit b := by
  obtain ⟨k, rfl⟩ : ∃ k, b = k + 1 := ⟨b - 1, by omega⟩
  have := limit_pos k
  rw [limit_succ]
  omega

theorem Word.limit_mono {b c : Nat} (h : b ≤ c) : limit b ≤ limit c :=
  Nat.pow_le_pow_right (by decide) h

/-- Column 2 holds the numbers one below a power of two. -/
theorem stirling_column_two (k : Nat) : stirling (k + 2) 2 + 1 = Word.limit (k + 1) := by
  induction k with
  | zero => rfl
  | succ k ih =>
      rw [stirling_inner (by decide) (by omega), Word.limit_succ, ← ih]
      show stirling (k + 2) 1 + 2 * stirling (k + 2) 2 + 1 = 2 * (stirling (k + 2) 2 + 1)
      rw [stirling_column_one]
      omega

/-- Off column 1, an entry on a diagonal is at least the one where the diagonal meets
column 2. -/
theorem limit_width_le {p : Pair} (hm : 1 < p.m) (hn : p.m ≤ p.n) :
    Word.limit p.width ≤ stirling p.n p.m + 1 := by
  have hcone : stirling (p.n - p.m + 2) 2 ≤ stirling p.n p.m :=
    stirling_le_of_cone (by omega) (by omega)
  have htwo := stirling_column_two (p.n - p.m)
  unfold Pair.width
  omega

/-- A pair off the borders that is wider than a word has an entry that does not fit. -/
theorem limit_le_of_lt_width {b : Nat} {p : Pair} (hbase : p.isBase = false) (hb : b < p.width) :
    Word.limit b ≤ stirling p.n p.m := by
  obtain ⟨hm, hn⟩ := Pair.isBase_eq_false_iff.1 hbase
  have hwide : Word.limit (b + 1) ≤ Word.limit p.width := Word.limit_mono hb
  have hwidth := limit_width_le hm (Nat.le_of_lt hn)
  have hpos := Word.limit_pos b
  rw [Word.limit_succ] at hwide
  omega

/-! ## Entries as words -/

variable {b : Nat}

theorem stirling_base {p : Pair} (h : p.isBase = true) : stirling p.n p.m = 1 :=
  stirling_border (by simpa [Pair.isBase] using h)

theorem Word.toNat_one (hb : 0 < b) : (1 : Word b).toNat = 1 :=
  toNat_ofNat (one_lt_limit hb)

/-- The checked step of two true entries is the true entry, unless that does not fit: neither
the factor nor the product is too large before the sum is. -/
theorem Word.step_stirling {a x : Word b} {n m : Nat} (hm : 1 < m) (hn : m < n)
    (ha : a.toNat = stirling (n - 1) (m - 1)) (hx : x.toNat = stirling (n - 1) m) :
    a.step m x = ofNat? b (stirling n m) := by
  have hsum : stirling n m = a.toNat + m * x.toNat := by rw [stirling_inner hm hn, ha, hx]
  have hfactor : m ≤ stirling n m := le_stirling hm hn
  cases hv : ofNat? b (stirling n m) with
  | none =>
      rw [ofNat?_eq_none_iff] at hv
      exact step_eq_none_iff.2 (.inr (by omega))
  | some v =>
      rw [ofNat?_eq_some_iff] at hv
      have hfits := toNat_lt_limit v
      exact step_eq_some_iff.2 ⟨by omega, by omega⟩

/-- An entry is computed from the two that it depends on, and if one of these does not fit it
does not either. -/
theorem Word.bind_step_stirling {n m : Nat} (hm : 1 < m) (hn : m < n) :
    ((ofNat? b (stirling (n - 1) (m - 1))).bind fun left =>
      (ofNat? b (stirling (n - 1) m)).bind fun above => left.step m above) =
      ofNat? b (stirling n m) := by
  cases hleft : ofNat? b (stirling (n - 1) (m - 1)) with
  | none =>
      have hcone : stirling (n - 1) (m - 1) ≤ stirling n m :=
        stirling_le_of_cone (by omega) (by omega)
      rw [ofNat?_eq_none_iff] at hleft
      exact (ofNat?_eq_none_iff.2 (Nat.le_trans hleft hcone)).symm
  | some left =>
      cases habove : ofNat? b (stirling (n - 1) m) with
      | none =>
          have hcone : stirling (n - 1) m ≤ stirling n m :=
            stirling_le_of_cone (by omega) (by omega)
          rw [ofNat?_eq_none_iff] at habove
          exact (ofNat?_eq_none_iff.2 (Nat.le_trans habove hcone)).symm
      | some above =>
          exact step_stirling hm hn (ofNat?_eq_some_iff.1 hleft) (ofNat?_eq_some_iff.1 habove)

end StirlingTriangle
