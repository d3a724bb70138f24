import StirlingTriangle.Proofs.Memo.Cone
import StirlingTriangle.Proofs.Triangle

/-!
# Triangle.Count

How many pairs a triangle has of each kind, and how many of them its memoized
evaluation stores.

* `p.fitting b` has the pairs of the triangle off the borders whose entries fit
  `b` bits;
* `Triangle.card_fitting_add`: together with the overflows and with the
  `n + m - 1` pairs on the borders these are all of its cells;
* `Memo.biUnion_stored_triangle`: evaluating the triangle from an empty memo stores
  exactly the fitting pairs. No descent stores a pair outside the triangle, and
  each fitting pair is stored at the latest when its own turn comes.
-/

namespace StirlingTriangle

variable {b : Nat}

namespace Pair

/-- The pairs `(i, j)` of the triangle with `1 < j < i` whose entries fit. -/
def fitting (b : Nat) (p : Pair) : Finset Pair :=
  ((Finset.Icc 1 p.n ×ˢ Finset.Icc 1 p.m).image fun (i, j) => Pair.mk i j).filter fun q =>
    1 < q.m ∧ q.m < q.n ∧ stirling q.n q.m < Word.limit b

theorem mem_fitting {p q : Pair} :
    q ∈ p.fitting b ↔
      (q.n ≤ p.n ∧ q.m ≤ p.m) ∧ q.isBase = false ∧ stirling q.n q.m < Word.limit b := by
  simp only [fitting, Finset.mem_filter, Finset.mem_image, Finset.mem_product, Finset.mem_Icc,
    Prod.exists, isBase_eq_false_iff]
  constructor
  · rintro ⟨⟨i, j, hij, rfl⟩, hm, hn, hfits⟩
    exact ⟨⟨hij.1.2, hij.2.2⟩, ⟨hm, hn⟩, hfits⟩
  · rintro ⟨⟨hn, hm⟩, hbase, hfits⟩
    exact ⟨⟨q.n, q.m, by omega, rfl⟩, hbase.1, hbase.2, hfits⟩

/-- The pairs of a triangle as a set. -/
def inside (p : Pair) : Finset Pair := p.triangle.flatten.toFinset

theorem mem_inside {p q : Pair} : q ∈ p.inside ↔ q.Valid ∧ q.n ≤ p.n ∧ q.m ≤ p.m := by
  rw [inside, List.mem_toFinset, mem_triangle]

/-- The borders are column 1, and the diagonal below its first pair. -/
theorem filter_inside_isBase {p : Pair} (hp : p.Valid) :
    (p.inside.filter fun q => q.isBase = true) =
      ((Finset.Icc 1 p.n).image fun i => Pair.mk i 1) ∪
        ((Finset.Icc 2 p.m).image fun j => Pair.mk j j) := by
  ext q
  simp only [Finset.mem_filter, mem_inside, Finset.mem_union, Finset.mem_image, Finset.mem_Icc]
  constructor
  · rintro ⟨⟨hq, hn, hm⟩, hbase⟩
    rw [isBase_iff_of_valid hq] at hbase
    obtain ⟨i, j⟩ := q
    unfold Valid at hq
    simp only at hq hn hm hbase
    by_cases hj : j = 1
    · subst hj
      exact .inl ⟨i, by omega, rfl⟩
    · obtain rfl : i = j := by omega
      exact .inr ⟨i, by omega, rfl⟩
  · unfold Valid at hp ⊢
    rintro (⟨i, hi, rfl⟩ | ⟨j, hj, rfl⟩)
    · exact ⟨by simp only; omega, rfl⟩
    · exact ⟨by simp only; omega, by simp [isBase]⟩

theorem card_borders {p : Pair} (hp : p.Valid) :
    (p.inside.filter fun q => q.isBase = true).card = p.n + p.m - 1 := by
  have hdisjoint : Disjoint ((Finset.Icc 1 p.n).image fun i => Pair.mk i 1)
      ((Finset.Icc 2 p.m).image fun j => Pair.mk j j) := by
    rw [Finset.disjoint_left]
    simp only [Finset.mem_image, Finset.mem_Icc, not_exists, not_and]
    rintro _ ⟨i, -, rfl⟩ j hj heq
    simp only [mk.injEq] at heq
    omega
  have hcolumn : Function.Injective fun i => Pair.mk i 1 := fun i i' h => (mk.inj h).1
  have hdiagonal : Function.Injective fun j => Pair.mk j j := fun j j' h => (mk.inj h).1
  rw [filter_inside_isBase hp, Finset.card_union_of_disjoint hdisjoint,
    Finset.card_image_of_injective _ hcolumn, Finset.card_image_of_injective _ hdiagonal,
    Nat.card_Icc, Nat.card_Icc]
  unfold Valid at hp
  omega

/-- Off the borders, the pairs that fit. -/
theorem fitting_eq_filter (b : Nat) (p : Pair) :
    p.fitting b = (p.inside.filter fun q => ¬ q.isBase = true).filter fun q =>
      stirling q.n q.m < Word.limit b := by
  ext q
  simp only [mem_fitting, Finset.mem_filter, mem_inside, isBase_eq_false_iff, Bool.not_eq_true,
    Valid]
  omega

theorem card_inside (p : Pair) : p.inside.card = p.triangle.flatten.length := by
  rw [inside, List.toFinset_card_of_nodup p.nodup_triangle]

end Pair

/-! ## The cells of the exact triangle -/

namespace Triangle

variable {p q : Pair}

/-- In the triangle an entry that does not fit is an overflow, and only such an entry. -/
theorem isNone_ofTriangle_iff (hq : q.Valid) :
    (Outcome.ofTriangle b q.n q.m).toOption.isNone ↔ Word.limit b ≤ stirling q.n q.m := by
  rw [Outcome.ofTriangle_of_ok hq.ofInts?_eq, ← Word.ofNat?_eq_none_iff]
  cases Word.ofNat? b (stirling q.n q.m) <;> simp [Outcome.ofValue?, Except.toOption]

theorem mem_overflows_exact :
    q ∈ (exact b p).overflows ↔ q ∈ p.inside ∧ Word.limit b ≤ stirling q.n q.m := by
  rw [exact, overflows_tabulate, List.mem_filter, Pair.inside, List.mem_toFinset]
  exact and_congr_right fun hq => isNone_ofTriangle_iff (Pair.mem_triangle.1 hq).1

theorem nodup_overflows_exact (b : Nat) (p : Pair) : (exact b p).overflows.Nodup := by
  rw [exact, overflows_tabulate]
  exact p.nodup_triangle.filter _

/-- Off the borders, the pairs that do not fit: the borders hold 1. -/
theorem toFinset_overflows_exact (hb : 0 < b) (p : Pair) :
    (exact b p).overflows.toFinset =
      (p.inside.filter fun q => ¬ q.isBase = true).filter fun q =>
        ¬ stirling q.n q.m < Word.limit b := by
  ext q
  simp only [List.mem_toFinset, mem_overflows_exact, Finset.mem_filter, Nat.not_lt]
  constructor
  · rintro ⟨hq, hlimit⟩
    refine ⟨⟨hq, fun hbase => ?_⟩, hlimit⟩
    rw [stirling_base hbase] at hlimit
    exact Nat.lt_irrefl _ (Nat.lt_of_lt_of_le (Word.one_lt_limit hb) hlimit)
  · rintro ⟨⟨hq, -⟩, hlimit⟩
    exact ⟨hq, hlimit⟩

/-- Each cell is a pair that is stored, an overflow, or on a border. -/
theorem card_fitting_add (hb : 0 < b) (hp : p.Valid) :
    (p.fitting b).card + (exact b p).overflows.length + (p.n + p.m - 1) =
      (exact b p).cellCount := by
  rw [← List.toFinset_card_of_nodup (nodup_overflows_exact b p), toFinset_overflows_exact hb,
    Pair.fitting_eq_filter, Finset.card_filter_add_card_filter_not, ← Pair.card_borders hp,
    Nat.add_comm, Finset.card_filter_add_card_filter_not, exact, cellCount_tabulate,
    Pair.card_inside]

end Triangle

/-! ## What a memoized triangle stores -/

namespace Memo

variable {p q : Pair}

theorem mem_requests {r : Int × Int} :
    r ∈ Triangle.requests p ↔ ∃ q ∈ p.triangle.flatten, ((q.n : Int), (q.m : Int)) = r := by
  rw [Triangle.requests, List.mem_map]

/-- What a request inside the triangle stores lies inside the triangle. -/
theorem mem_fitting_of_mem_stored (hb : 0 < b) {n m : Int} {r : Pair}
    (hr : Pair.ofInts? n m = .ok r) (hn : r.n ≤ p.n) (hm : r.m ≤ p.m) (hq : q ∈ stored b n m) :
    q ∈ p.fitting b := by
  obtain ⟨hbase, hfits⟩ := fits_of_mem_stored hb hq
  obtain ⟨pair, hadmission, hadds⟩ := mem_stored.1 hq
  have hpair := (Admission.of_compute hadmission).1
  rw [hr] at hpair
  cases hpair
  have hcone := Pair.mem_cone.1 hadds.mem_cone
  have hvalid := Pair.valid_ofInts? hr
  unfold Pair.Valid at hvalid
  exact Pair.mem_fitting.2 ⟨by omega, hbase, hfits⟩

/-- A pair off the borders that fits is stored when it is evaluated itself. -/
theorem self_mem_stored (hb : 0 < b) (hbase : q.isBase = false)
    (hfits : stirling q.n q.m < Word.limit b) : q ∈ stored b q.n q.m := by
  have hq := Pair.isBase_eq_false_iff.1 hbase
  have hvalid := Pair.valid_of_isBase_eq_false hbase
  rw [stored_eq_cone hb hvalid.ofInts?_eq hfits, Pair.mem_cone]
  omega

/-- The evaluations of a request with its triangle store the fitting pairs. -/
theorem biUnion_stored_triangle (hb : 0 < b) {n m : Int} (hp : Pair.ofInts? n m = .ok p) :
    (((n, m) :: Triangle.requests p).toFinset.biUnion fun r => stored b r.1 r.2) =
      p.fitting b := by
  ext q
  simp only [Finset.mem_biUnion, List.mem_toFinset, List.mem_cons, mem_requests,
    Pair.mem_triangle]
  constructor
  · rintro ⟨_, rfl | ⟨r, ⟨hvalid, hn, hm⟩, rfl⟩, hq⟩
    · exact mem_fitting_of_mem_stored hb hp (Nat.le_refl _) (Nat.le_refl _) hq
    · exact mem_fitting_of_mem_stored hb hvalid.ofInts?_eq hn hm hq
  · intro hq
    obtain ⟨hinside, hbase, hfits⟩ := Pair.mem_fitting.1 hq
    have hvalid := Pair.valid_of_isBase_eq_false hbase
    exact ⟨(q.n, q.m), .inr ⟨q, ⟨hvalid, hinside⟩, rfl⟩, self_mem_stored hb hbase hfits⟩

end Memo

end StirlingTriangle
