import Mathlib.Data.List.TakeWhile
import StirlingTriangle.Proofs.Memo.Cone

/-!
# ColumnOrder

The cone of a pair as a list, column by column, and how far such a list goes
until an entry does not fit.

* `Pair.below j k` has the first `k` pairs of column `j` below the diagonal, and
  `p.coneList` the cone of `p` from column 2 on. It grows by one column with the
  pair's diagonal (`Pair.coneList_succ`);
* of a list of pairs, `Pair.fittingPart b` is the longest part at the front whose
  entries fit `b` bits, and `Pair.firstUnfit? b` the pair after it. A list that
  does not fit hides whatever comes after it (`fittingPart_append_of_some`).
-/

namespace StirlingTriangle

variable {b : Nat}

namespace Pair

/-! ## The cone, column by column -/

/-- The first `k` pairs of column `j` below the diagonal. -/
def below (j k : Nat) : List Pair := (List.range' (j + 1) k).map fun i => ⟨i, j⟩

/-- The cone of `p` from column 2 on, each column from the diagonal downwards. -/
def coneList (p : Pair) : List Pair :=
  (List.range' 2 (p.m - 1)).flatMap fun j => below j (p.n - p.m)

theorem below_zero (j : Nat) : below j 0 = [] := rfl

theorem below_succ (j k : Nat) : below j (k + 1) = below j k ++ [⟨j + k + 1, j⟩] := by
  rw [below, List.range'_concat, List.map_append]
  show _ ++ [Pair.mk (j + 1 + 1 * k) j] = _
  rw [show j + 1 + 1 * k = j + k + 1 from by omega]
  rfl

theorem mem_below {j k : Nat} {q : Pair} :
    q ∈ below j k ↔ q.m = j ∧ j < q.n ∧ q.n ≤ j + k := by
  simp only [below, List.mem_map, List.mem_range'_1]
  constructor
  · rintro ⟨i, ⟨hlo, hhi⟩, rfl⟩
    refine ⟨rfl, hlo, ?_⟩
    show i ≤ j + k
    omega
  · rintro ⟨rfl, hlt, hle⟩
    exact ⟨q.n, by omega, rfl⟩

theorem coneList_of_diagonal {p : Pair} (h : p.n ≤ p.m) : p.coneList = [] := by
  rw [coneList, show p.n - p.m = 0 from by omega]
  simp [below_zero]

theorem coneList_succ {m : Nat} (hm : 1 ≤ m) (d : Nat) :
    coneList ⟨m + 1 + d, m + 1⟩ = coneList ⟨m + d, m⟩ ++ below (m + 1) d := by
  obtain ⟨k, rfl⟩ : ∃ k, m = k + 1 := ⟨m - 1, by omega⟩
  simp only [coneList, Nat.add_sub_cancel, Nat.add_sub_cancel_left]
  rw [List.range'_concat, List.flatMap_append, List.flatMap_singleton,
    show 2 + 1 * k = k + 1 + 1 from by omega]

theorem mem_coneList {p q : Pair} : q ∈ p.coneList ↔ q ∈ p.cone := by
  simp only [coneList, List.mem_flatMap, List.mem_range'_1, mem_below, mem_cone]
  constructor
  · rintro ⟨j, hj, rfl, hq⟩
    omega
  · intro hq
    exact ⟨q.m, by omega, rfl, by omega⟩

/-- The next pair of a column is neither in the columns before it nor in the part above. -/
theorem notMem_coneList_append_below (m d k : Nat) :
    (⟨m + 1 + (k + 1), m + 1⟩ : Pair) ∉ coneList ⟨m + d, m⟩ ++ below (m + 1) k := by
  rw [List.mem_append, mem_coneList, mem_cone, mem_below]
  simp only
  omega

theorem nodup_below (j k : Nat) : (below j k).Nodup :=
  (List.nodup_range' 1).map fun _ _ h => (Pair.mk.inj h).1

theorem nodup_coneList (p : Pair) : p.coneList.Nodup := by
  refine List.nodup_flatMap.2 ⟨fun j _ => nodup_below j _, ?_⟩
  -- pairs of different columns are different
  refine (List.nodup_range' 1).imp fun {j j'} hne => ?_
  intro q hq hq'
  exact hne ((mem_below.1 hq).1.symm.trans (mem_below.1 hq').1)

theorem length_coneList (p : Pair) : p.coneList.length = (p.m - 1) * (p.n - p.m) := by
  rw [← card_cone, ← List.toFinset_card_of_nodup p.nodup_coneList]
  congr 1
  ext q
  rw [List.mem_toFinset, mem_coneList]

/-- The pair itself comes last. -/
theorem getLast?_coneList {p : Pair} (h : p.isBase = false) : p.coneList.getLast? = some p := by
  obtain ⟨n, m⟩ := p
  obtain ⟨hm, hn⟩ := isBase_eq_false_iff.1 h
  simp only at hm hn
  obtain ⟨k, rfl⟩ : ∃ k, m = k + 1 := ⟨m - 1, by omega⟩
  obtain ⟨d, rfl⟩ : ∃ d, n = k + 1 + (d + 1) := ⟨n - (k + 1) - 1, by omega⟩
  rw [coneList_succ (by omega), below_succ, ← List.append_assoc, List.getLast?_concat]
  rfl

example : coneList ⟨5, 3⟩ = [⟨3, 2⟩, ⟨4, 2⟩, ⟨4, 3⟩, ⟨5, 3⟩] := rfl

/-! ## Up to the first that does not fit -/

/-- The entry of the pair fits `b` bits. -/
def Fits (b : Nat) (p : Pair) : Prop := stirling p.n p.m < Word.limit b

instance (b : Nat) (p : Pair) : Decidable (p.Fits b) := inferInstanceAs (Decidable (_ < _))

/-- The pairs before the first whose entry does not fit. -/
def fittingPart (b : Nat) (pairs : List Pair) : List Pair := pairs.takeWhile fun q => q.Fits b

/-- The first pair whose entry does not fit. -/
def firstUnfit? (b : Nat) (pairs : List Pair) : Option Pair := pairs.find? fun q => ¬ q.Fits b

variable {s t : List Pair} {p q : Pair}

theorem firstUnfit?_eq_none_iff : firstUnfit? b s = none ↔ ∀ q ∈ s, q.Fits b := by
  simp [firstUnfit?]

theorem fittingPart_of_none (h : firstUnfit? b s = none) : fittingPart b s = s := by
  rw [firstUnfit?_eq_none_iff] at h
  exact List.takeWhile_eq_self_iff.2 fun q hq => decide_eq_true (h q hq)

theorem fits_of_mem_fittingPart (h : q ∈ fittingPart b s) : q.Fits b := by
  simpa using List.mem_takeWhile_imp h

theorem fittingPart_eq_self_iff : fittingPart b s = s ↔ firstUnfit? b s = none := by
  constructor
  · intro h
    rw [firstUnfit?_eq_none_iff]
    intro q hq
    exact fits_of_mem_fittingPart (by rwa [h])
  · exact fittingPart_of_none

theorem firstUnfit?_append_of_none (h : firstUnfit? b s = none) (t : List Pair) :
    firstUnfit? b (s ++ t) = firstUnfit? b t := by
  rw [firstUnfit?, List.find?_append, ← firstUnfit?, h, Option.none_or]
  rfl

theorem firstUnfit?_append_of_some (h : firstUnfit? b s = some q) (t : List Pair) :
    firstUnfit? b (s ++ t) = some q := by
  rw [firstUnfit?, List.find?_append, ← firstUnfit?, h, Option.some_or]

theorem fittingPart_append_of_none (h : firstUnfit? b s = none) (t : List Pair) :
    fittingPart b (s ++ t) = s ++ fittingPart b t := by
  rw [firstUnfit?_eq_none_iff] at h
  exact List.takeWhile_append_of_pos fun q hq => decide_eq_true (h q hq)

/-- What comes after a pair that does not fit is not looked at. -/
theorem fittingPart_append_of_some (h : firstUnfit? b s = some q) (t : List Pair) :
    fittingPart b (s ++ t) = fittingPart b s := by
  induction s with
  | nil => cases h
  | cons p s ih =>
      by_cases hp : p.Fits b
      · have hrest : firstUnfit? b s = some q := by
          rw [← h]
          simp [firstUnfit?, hp]
        have hcons := ih hrest
        simp only [fittingPart] at hcons
        simp [fittingPart, hp, hcons]
      · simp [fittingPart, hp]

theorem firstUnfit?_singleton_of_fits (h : p.Fits b) : firstUnfit? b [p] = none := by
  simp [firstUnfit?, h]

theorem firstUnfit?_singleton_of_not (h : ¬ p.Fits b) : firstUnfit? b [p] = some p := by
  simp [firstUnfit?, h]

theorem fittingPart_singleton_of_not (h : ¬ p.Fits b) : fittingPart b [p] = [] := by
  simp [fittingPart, h]

end Pair

end StirlingTriangle
