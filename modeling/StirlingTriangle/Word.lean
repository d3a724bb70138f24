/-!
# Word

Unsigned integers of `b` bits, with arithmetic that refuses instead of wrapping.

* `Word.limit b` is the first number that does not fit;
* `Word.ofNat? b k` is `k` if it fits `b` bits;
* `Word.step a factor x` is `a + factor * x`, formed in three checked parts:
  the factor, the product, the sum;
* `step_eq_some_iff` and `step_eq_none_iff` say what it computes over the
  natural numbers.
-/

namespace StirlingTriangle

/-- An unsigned integer of `b` bits. -/
abbrev Word (b : Nat) := BitVec b

namespace Word

variable {b : Nat}

/-- The number of words of `b` bits: two to the power `b`. -/
def limit (b : Nat) : Nat := Nat.pow 2 b

/-- The word with the value `k`, if `k` fits. -/
def ofNat? (b k : Nat) : Option (Word b) :=
  if k < limit b then some (BitVec.ofNat b k) else none

/-- The sum `a + factor * x`, if the factor, the product and the sum all fit. -/
def step (a : Word b) (factor : Nat) (x : Word b) : Option (Word b) := do
  let f ← ofNat? b factor
  let product ← ofNat? b (f.toNat * x.toNat)
  ofNat? b (a.toNat + product.toNat)

def text (x : Word b) : String := toString x.toNat

theorem toNat_lt_limit (x : Word b) : x.toNat < limit b := x.isLt

theorem toNat_ofNat {k : Nat} (h : k < limit b) : (BitVec.ofNat b k : Word b).toNat = k := by
  rw [BitVec.toNat_ofNat]
  exact Nat.mod_eq_of_lt h

theorem ofNat?_eq_some_iff {k : Nat} {x : Word b} : ofNat? b k = some x ↔ x.toNat = k := by
  unfold ofNat?
  split
  · rename_i h
    constructor
    · intro hx
      cases hx
      exact toNat_ofNat h
    · intro hx
      subst hx
      simp
  · rename_i h
    constructor
    · intro hx; cases hx
    · intro hx
      exact absurd (hx ▸ toNat_lt_limit x) h

theorem ofNat?_eq_none_iff {k : Nat} : ofNat? b k = none ↔ limit b ≤ k := by
  unfold ofNat?
  split
  · simp; omega
  · simp; omega

/-- A step succeeds exactly with the word whose value is the sum, provided the factor fits. -/
theorem step_eq_some_iff {a x v : Word b} {factor : Nat} :
    step a factor x = some v ↔ factor < limit b ∧ v.toNat = a.toNat + factor * x.toNat := by
  unfold step
  cases hf : ofNat? b factor with
  | none =>
    rw [ofNat?_eq_none_iff] at hf
    simp only [Option.bind_eq_bind, Option.bind_none, reduceCtorEq, false_iff]
    omega
  | some f =>
    obtain rfl := ofNat?_eq_some_iff.1 hf
    simp only [Option.bind_eq_bind, Option.bind_some]
    cases hp : ofNat? b (f.toNat * x.toNat) with
    | none =>
      rw [ofNat?_eq_none_iff] at hp
      have := toNat_lt_limit v
      simp only [Option.bind_none, reduceCtorEq, false_iff]
      omega
    | some product =>
      rw [ofNat?_eq_some_iff] at hp
      have := toNat_lt_limit f
      simp only [Option.bind_some, ofNat?_eq_some_iff, hp]
      omega

/-- A step is refused exactly when the factor or the sum does not fit: the product alone
never decides, since the sum is at least as large. -/
theorem step_eq_none_iff {a x : Word b} {factor : Nat} :
    step a factor x = none ↔ limit b ≤ factor ∨ limit b ≤ a.toNat + factor * x.toNat := by
  rw [← Option.not_isSome_iff_eq_none, Option.isSome_iff_exists]
  constructor
  · intro h
    by_cases hf : factor < limit b
    · by_cases hs : a.toNat + factor * x.toNat < limit b
      · exact absurd ⟨_, step_eq_some_iff.2 ⟨hf, toNat_ofNat hs⟩⟩ h
      · exact .inr (by omega)
    · exact .inl (by omega)
  · rintro h ⟨v, hv⟩
    have := step_eq_some_iff.1 hv
    have := toNat_lt_limit v
    omega

end Word

end StirlingTriangle
