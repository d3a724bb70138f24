import StirlingTriangle.Outcome
import StirlingTriangle.Proofs.Growth

/-!
# Admission

What a request ought to be answered, and how far admission settles it.

`Outcome.ofTriangle` reads the answer off the triangle over the natural
numbers; no word, memo or window occurs in it. `settled_eq_ofTriangle` says
that whatever is settled beforehand is settled rightly, and
`ofTriangle_of_compute` what is left to be found for the other requests: the
entry of the pair as a word, or that it does not fit.
-/

namespace StirlingTriangle

variable {b : Nat}

/-- The first condition that `(n, m)` fails; otherwise the entry of the triangle if it fits
`b` bits, and an overflow of the pair if it does not. -/
def Outcome.ofTriangle (b : Nat) (n m : Int) : Outcome b :=
  if n < 1 then .error (.invalidArgument n m .rowBelowOne)
  else if m < 1 then .error (.invalidArgument n m .columnBelowOne)
  else if n < m then .error (.invalidArgument n m .rowBelowColumn)
  else if stirling n.toNat m.toNat < Word.limit b then
    .ok (BitVec.ofNat b (stirling n.toNat m.toNat))
  else .error (.overflow ⟨n.toNat, m.toNat⟩ b)

/-- The outcome of a request for `p` from the value of its entry, if it has one. -/
def Outcome.ofValue? (p : Pair) : Option (Word b) → Outcome b
  | some value => .ok value
  | none => .error (.overflow p b)

theorem Outcome.ofValue?_eq_ok_iff {p : Pair} {value? : Option (Word b)} {v : Word b} :
    ofValue? p value? = .ok v ↔ value? = some v := by
  cases value? <;> simp [ofValue?]

theorem Outcome.ofValue?_eq_overflow_iff {p q : Pair} {value? : Option (Word b)} {bits : Nat} :
    ofValue? p value? = .error (.overflow q bits) ↔ q = p ∧ bits = b ∧ value? = none := by
  cases value? with
  | some v => simp [ofValue?]
  | none => simp [ofValue?, eq_comm]

/-! ## The pair that a request names -/

theorem Pair.ofInts?_eq_ok {n m : Int} {p : Pair} (h : ofInts? n m = .ok p) :
    1 ≤ m ∧ m ≤ n ∧ p = ⟨n.toNat, m.toNat⟩ := by
  unfold ofInts? at h
  split at h
  · cases h
  · rename_i hv
    obtain ⟨hm, hn⟩ := Constraint.violated?_eq_none_iff.1 hv
    exact ⟨hm, hn, (Except.ok.inj h).symm⟩

theorem Pair.ofInts?_of_le {n m : Int} (hm : 1 ≤ m) (hn : m ≤ n) :
    ofInts? n m = .ok ⟨n.toNat, m.toNat⟩ := by
  rw [ofInts?, Constraint.violated?_eq_none_iff.2 ⟨hm, hn⟩]

theorem Pair.Valid.ofInts?_eq {p : Pair} (h : p.Valid) : Pair.ofInts? p.n p.m = .ok p :=
  Pair.ofInts?_of_le (by have := h.1; omega) (by have := h.2; omega)

/-- Inside the triangle only the size of the entry decides. -/
theorem Outcome.ofTriangle_of_ok {n m : Int} {p : Pair} (h : Pair.ofInts? n m = .ok p) :
    ofTriangle b n m = ofValue? p (Word.ofNat? b (stirling p.n p.m)) := by
  obtain ⟨hm, hn, rfl⟩ := Pair.ofInts?_eq_ok h
  rw [ofTriangle, if_neg (by omega), if_neg (by omega), if_neg (by omega), Word.ofNat?]
  split <;> rfl

theorem Outcome.ofTriangle_of_error {n m : Int} {constraint : Constraint}
    (h : Pair.ofInts? n m = .error constraint) :
    ofTriangle b n m = .error (.invalidArgument n m constraint) := by
  have hv : Constraint.violated? n m = some constraint := by
    unfold Pair.ofInts? at h
    split at h
    · rename_i c hc
      rw [hc, Except.error.inj h]
    · cases h
  unfold Constraint.violated? at hv
  unfold ofTriangle
  split at hv
  · rename_i hrow
    cases hv
    rw [if_pos hrow]
  split at hv
  · rename_i hrow hcolumn
    cases hv
    rw [if_neg hrow, if_pos hcolumn]
  split at hv
  · rename_i hrow hcolumn horder
    cases hv
    rw [if_neg hrow, if_neg hcolumn, if_pos horder]
  · cases hv

theorem Outcome.ofTriangle_eq_ok_iff {n m : Int} {v : Word b} :
    ofTriangle b n m = .ok v ↔ 1 ≤ m ∧ m ≤ n ∧ v.toNat = stirling n.toNat m.toNat := by
  cases h : Pair.ofInts? n m with
  | error constraint =>
      rw [ofTriangle_of_error h]
      constructor
      · intro hok
        cases hok
      · rintro ⟨hm, hn, -⟩
        rw [Pair.ofInts?_of_le hm hn] at h
        cases h
  | ok p =>
      obtain ⟨hm, hn, rfl⟩ := Pair.ofInts?_eq_ok h
      rw [ofTriangle_of_ok h, ofValue?_eq_ok_iff, Word.ofNat?_eq_some_iff]
      exact ⟨fun h => ⟨hm, hn, h⟩, fun h => h.2.2⟩

/-- Only a pair of the triangle whose entry fits has a value. -/
theorem Outcome.exists_ofTriangle_eq_ok_iff {n m : Int} :
    (∃ v, ofTriangle b n m = .ok v) ↔
      1 ≤ m ∧ m ≤ n ∧ stirling n.toNat m.toNat < Word.limit b := by
  simp only [ofTriangle_eq_ok_iff]
  constructor
  · rintro ⟨v, hm, hn, hvalue⟩
    exact ⟨hm, hn, hvalue ▸ Word.toNat_lt_limit v⟩
  · rintro ⟨hm, hn, hfits⟩
    exact ⟨BitVec.ofNat b (stirling n.toNat m.toNat), hm, hn, Word.toNat_ofNat hfits⟩

theorem Outcome.ofTriangle_eq_overflow_iff {n m : Int} {p : Pair} {bits : Nat} :
    ofTriangle b n m = .error (.overflow p bits) ↔
      1 ≤ m ∧ m ≤ n ∧ p = ⟨n.toNat, m.toNat⟩ ∧ bits = b ∧
        Word.limit b ≤ stirling n.toNat m.toNat := by
  cases h : Pair.ofInts? n m with
  | error constraint =>
      rw [ofTriangle_of_error h]
      constructor
      · intro hok
        cases hok
      · rintro ⟨hm, hn, -⟩
        rw [Pair.ofInts?_of_le hm hn] at h
        cases h
  | ok q =>
      obtain ⟨hm, hn, rfl⟩ := Pair.ofInts?_eq_ok h
      rw [ofTriangle_of_ok h, ofValue?_eq_overflow_iff, Word.ofNat?_eq_none_iff]
      exact ⟨fun ⟨hp, hbits, hlimit⟩ => ⟨hm, hn, hp, hbits, hlimit⟩, fun h => h.2.2⟩

/-! ## What admission settles -/

namespace Admission

variable {n m : Int} {pair : Pair}

/-- What is left to compute is a pair off the borders that is no wider than a word. -/
theorem of_compute (h : ofRequest b n m = .compute pair) :
    Pair.ofInts? n m = .ok pair ∧ pair.isBase = false ∧ pair.width ≤ b := by
  unfold ofRequest at h
  split at h
  · cases h
  · rename_i p hp
    split at h
    · cases h
    split at h
    · cases h
    · rename_i hbase hwidth
      cases h
      exact ⟨hp, Bool.eq_false_iff.2 hbase, Nat.not_lt.1 hwidth⟩

/-- The requests that have to be computed. -/
theorem ofRequest_eq_compute_iff :
    ofRequest b n m = .compute pair ↔
      (1 < m ∧ m < n ∧ n - m + 1 ≤ b) ∧ pair = ⟨n.toNat, m.toNat⟩ := by
  constructor
  · intro h
    obtain ⟨hp, hbase, hwidth⟩ := of_compute h
    obtain ⟨hm, hn, rfl⟩ := Pair.ofInts?_eq_ok hp
    rw [Pair.isBase_eq_false_iff] at hbase
    unfold Pair.width at hwidth
    simp only at hbase hwidth
    exact ⟨by omega, rfl⟩
  · rintro ⟨⟨hm, hn, hwidth⟩, rfl⟩
    have hbase : (Pair.mk n.toNat m.toNat).isBase = false :=
      Pair.isBase_eq_false_iff.2 (by simp only; omega)
    have hwidth : ¬ b < (Pair.mk n.toNat m.toNat).width := by
      unfold Pair.width
      simp only
      omega
    rw [ofRequest, Pair.ofInts?_of_le (by omega) (by omega)]
    simp only [hbase, hwidth, Bool.false_eq_true, if_false]

/-- All other requests are settled beforehand. -/
theorem exists_settled (h : ¬ (1 < m ∧ m < n ∧ n - m + 1 ≤ b)) :
    ∃ outcome, ofRequest b n m = .settled outcome := by
  cases hadmission : ofRequest b n m with
  | settled outcome => exact ⟨outcome, rfl⟩
  | compute pair => exact absurd (ofRequest_eq_compute_iff.1 hadmission).1 h

/-- A pair off the borders whose entry fits is no wider than a word, so it has to be computed. -/
theorem compute_of_fits (hp : Pair.ofInts? n m = .ok pair) (hbase : pair.isBase = false)
    (hfits : stirling pair.n pair.m < Word.limit b) : ofRequest b n m = .compute pair := by
  have hwidth : ¬ b < pair.width := fun hwidth =>
    Nat.lt_irrefl _ (Nat.lt_of_lt_of_le hfits (limit_le_of_lt_width hbase hwidth))
  simp only [ofRequest, hp, hbase, hwidth, Bool.false_eq_true, if_false]

/-- The only values that are settled beforehand are the ones on the borders. -/
theorem of_settled_ok {v : Word b} (h : ofRequest b n m = .settled (.ok v))
    (hp : Pair.ofInts? n m = .ok pair) : pair.isBase = true ∧ v = 1 := by
  simp only [ofRequest, hp] at h
  split at h
  · rename_i hbase
    cases h
    exact ⟨hbase, rfl⟩
  split at h
  · cases h
  · cases h

/-- Words that have something to compute in them hold at least the number 1. -/
theorem pos_of_compute (h : ofRequest b n m = .compute pair) : 0 < b := by
  have hwidth := (of_compute h).2.2
  unfold Pair.width at hwidth
  omega

theorem ofTriangle_of_compute (h : ofRequest b n m = .compute pair) :
    Outcome.ofTriangle b n m =
      Outcome.ofValue? pair (Word.ofNat? b (stirling pair.n pair.m)) :=
  Outcome.ofTriangle_of_ok (of_compute h).1

/-- What is settled beforehand is settled as the triangle has it: a border holds 1, and an
entry that is too wide does not fit. -/
theorem settled_eq_ofTriangle (hb : 0 < b) {outcome : Outcome b}
    (h : ofRequest b n m = .settled outcome) : outcome = .ofTriangle b n m := by
  unfold ofRequest at h
  split at h
  · rename_i constraint hp
    cases h
    exact (Outcome.ofTriangle_of_error hp).symm
  · rename_i p hp
    rw [Outcome.ofTriangle_of_ok hp]
    split at h
    · rename_i hbase
      have hone : Word.ofNat? b (stirling p.n p.m) = some 1 := by
        rw [Word.ofNat?_eq_some_iff, stirling_base hbase, Word.toNat_one hb]
      cases h
      rw [hone]
      rfl
    split at h
    · rename_i hbase hwidth
      have hnone : Word.ofNat? b (stirling p.n p.m) = none :=
        Word.ofNat?_eq_none_iff.2 (limit_le_of_lt_width (Bool.eq_false_iff.2 hbase) hwidth)
      cases h
      rw [hnone]
      rfl
    · cases h

end Admission

end StirlingTriangle
