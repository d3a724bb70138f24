import Mathlib.Order.Interval.Finset.Nat
import Mathlib.Data.Finset.Prod
import Mathlib.Data.Finset.Union
import StirlingTriangle.Proofs.Memo.Transparency
import StirlingTriangle.Proofs.Agreement

/-!
# Memo.Cone

The pairs that an evaluation can store, and those that it does store on an
empty memo.

* `p.cone` has the pairs off the borders that the entry of `p` depends on: the
  columns up to its own, on the diagonals up to its own. There are
  `(m - 1) * (n - m)` of them (`Pair.card_cone`), and resolving `p` stores no
  others, whatever the memo holds (`Memo.Adds.mem_cone`);
* `memo.keys` has the pairs with an entry, and `Memo.stored b n m` those that a
  request stores on an empty memo: all of the cone if the entry fits
  (`Memo.stored_eq_cone`). If it does not, the descent ends on the way, and an
  entry that does not fit is never stored (`Memo.fits_of_mem_stored`);
* a memo that requests have built up from an empty one has what each of them
  stores there on its own, no more and no less (`Memo.Completed.keys_eq`).
-/

namespace StirlingTriangle

variable {b : Nat}

/-! ## The cone of a pair -/

namespace Pair

/-- The pairs off the borders that the entry of `p` depends on, its own among them. -/
def cone (p : Pair) : Finset Pair :=
  (Finset.Icc 2 p.m ×ˢ Finset.Icc 1 (p.n - p.m)).image fun (j, k) => ⟨j + k, j⟩

theorem mem_cone {p q : Pair} :
    q ∈ p.cone ↔ 1 < q.m ∧ q.m ≤ p.m ∧ q.m < q.n ∧ q.n - q.m ≤ p.n - p.m := by
  simp only [cone, Finset.mem_image, Finset.mem_product, Finset.mem_Icc, Prod.exists]
  constructor
  · rintro ⟨j, k, hjk, rfl⟩
    simp only
    omega
  · intro h
    refine ⟨q.m, q.n - q.m, by omega, ?_⟩
    rw [Nat.add_sub_cancel' (by omega)]

/-- As many columns as there are from the second one on, each with as many entries as there are
diagonals below the main one. -/
theorem card_cone (p : Pair) : p.cone.card = (p.m - 1) * (p.n - p.m) := by
  have hinj : Function.Injective fun x : Nat × Nat => Pair.mk (x.1 + x.2) x.1 := by
    intro x y h
    simp only [mk.injEq] at h
    exact Prod.ext (by omega) (by omega)
  rw [cone, Finset.card_image_of_injective _ hinj, Finset.card_product, Nat.card_Icc,
    Nat.card_Icc]
  congr 1

theorem self_mem_cone {p : Pair} (h : p.isBase = false) : p ∈ p.cone := by
  have := isBase_eq_false_iff.1 h
  rw [mem_cone]
  omega

theorem cone_shifted_subset {p : Pair} (h : p.isBase = false) : p.shifted.cone ⊆ p.cone := by
  intro q hq
  have := isBase_eq_false_iff.1 h
  simp only [mem_cone, shifted] at hq ⊢
  omega

theorem cone_column_subset {p : Pair} (h : p.isBase = false) : p.column.cone ⊆ p.cone := by
  intro q hq
  have := isBase_eq_false_iff.1 h
  simp only [mem_cone, column] at hq ⊢
  omega

/-- No pair is among those that its predecessors depend on. -/
theorem self_notMem_cone_shifted {p : Pair} (h : p.isBase = false) : p ∉ p.shifted.cone := by
  have := isBase_eq_false_iff.1 h
  simp only [mem_cone, shifted]
  omega

theorem self_notMem_cone_column {p : Pair} (h : p.isBase = false) : p ∉ p.column.cone := by
  have := isBase_eq_false_iff.1 h
  simp only [mem_cone, column]
  omega

end Pair

namespace Memo

/-- Resolving a pair stores nothing outside its cone. -/
theorem Adds.mem_cone {memo : Memo b} {p q : Pair} (h : memo.Adds p q) : q ∈ p.cone := by
  induction h with
  | self hbase _ _ => exact Pair.self_mem_cone hbase
  | shifted hbase _ _ ih => exact Pair.cone_shifted_subset hbase ih
  | column hbase _ _ _ ih => exact Pair.cone_column_subset hbase ih

/-! ## On an empty memo -/

theorem value?_empty (hb : 0 < b) (p : Pair) :
    (empty : Memo b).value? p = Word.ofNat? b (stirling p.n p.m) :=
  truthful_empty.value? hb p

theorem value?_empty_of_fits (hb : 0 < b) {p : Pair} (h : stirling p.n p.m < Word.limit b) :
    ∃ v, (empty : Memo b).value? p = some v := by
  rw [value?_empty hb, ← Option.isSome_iff_exists, Option.isSome_iff_ne_none, ne_eq,
    Word.ofNat?_eq_none_iff]
  omega

theorem fits_of_value?_empty (hb : 0 < b) {p : Pair} {v : Word b}
    (h : (empty : Memo b).value? p = some v) : stirling p.n p.m < Word.limit b := by
  rw [value?_empty hb, Word.ofNat?_eq_some_iff] at h
  rw [← h]
  exact v.toNat_lt_limit

/-- If the entry of `p` fits, nothing is refused on the way, and the whole cone is stored. -/
theorem adds_empty (hb : 0 < b) {p q : Pair} (hfits : stirling p.n p.m < Word.limit b)
    (hq : q ∈ p.cone) : (empty : Memo b).Adds p q := by
  -- each pair of the cone other than `p` is in the cone of one of the two predecessors
  induction hn : p.n using Nat.strongRecOn generalizing p with
  | _ n ih =>
    subst hn
    rw [Pair.mem_cone] at hq
    have hbase : p.isBase = false := Pair.isBase_eq_false_iff.2 (by omega)
    have hshifted : stirling p.shifted.n p.shifted.m < Word.limit b :=
      Nat.lt_of_le_of_lt (stirling_shifted_le hbase) hfits
    have hcolumn : stirling p.column.n p.column.m < Word.limit b :=
      Nat.lt_of_le_of_lt (stirling_column_le p) hfits
    by_cases hm : q.m < p.m
    · refine .shifted hbase (find?_empty p) (ih _ ?_ hshifted ?_ rfl)
      · simp only [Pair.shifted]
        omega
      · rw [Pair.mem_cone]
        simp only [Pair.shifted]
        omega
    · by_cases hn : q.n < p.n
      · obtain ⟨left, hleft⟩ := value?_empty_of_fits hb hshifted
        refine .column hbase (find?_empty p) hleft (ih _ ?_ hcolumn ?_ rfl)
        · simp only [Pair.column]
          omega
        · rw [Pair.mem_cone]
          simp only [Pair.column]
          omega
      · obtain ⟨v, hv⟩ := value?_empty_of_fits hb hfits
        have heq : q = p := by
          obtain ⟨i, j⟩ := q
          obtain ⟨i', j'⟩ := p
          simp only [Pair.mk.injEq] at hq hm hn ⊢
          omega
        rw [heq]
        exact .self hbase (find?_empty p) hv

/-! ## The pairs with an entry -/

/-- The pairs that have an entry. -/
def keys (memo : Memo b) : Finset Pair := memo.entries.keys.toFinset

theorem mem_keys {memo : Memo b} {q : Pair} : q ∈ memo.keys ↔ (memo.find? q).isSome := by
  rw [keys, List.mem_toFinset, Std.HashMap.mem_keys, find?, Std.HashMap.isSome_getElem?_iff_mem]

theorem card_keys (memo : Memo b) : memo.keys.card = memo.size := by
  rw [keys, List.toFinset_card_of_nodup Std.HashMap.nodup_keys, Std.HashMap.length_keys, size]

theorem Completed.find?_isSome_iff {start memo : Memo b} {roots : Pair → Prop}
    (h : Completed start roots memo) {q : Pair} :
    (memo.find? q).isSome ↔
      (start.find? q).isSome ∨ ∃ root, roots root ∧ start.Adds root q := by
  simp only [Option.isSome_iff_exists, h.find?_eq_some_iff, exists_or]
  refine or_congr_right ⟨fun ⟨_, hroot, _⟩ => hroot, ?_⟩
  rintro ⟨root, hroot, hadds⟩
  obtain ⟨v, hv⟩ := hadds.fresh.2.2
  exact ⟨v, ⟨root, hroot, hadds⟩, hv⟩

/-- The pairs that a request stores on an empty memo. -/
def stored (b : Nat) (n m : Int) : Finset Pair := ((empty : Memo b).evaluate n m).memo.keys

theorem mem_stored {n m : Int} {q : Pair} :
    q ∈ stored b n m ↔
      ∃ pair, Admission.ofRequest b n m = .compute pair ∧ (empty : Memo b).Adds pair q := by
  rw [stored, mem_keys, ((empty : Memo b).completed_evaluate n m).find?_isSome_iff, find?_empty]
  simp [Computes]

/-- A request that is settled beforehand stores nothing. -/
theorem stored_settled {n m : Int} {outcome : Outcome b}
    (h : Admission.ofRequest b n m = .settled outcome) : stored b n m = ∅ := by
  refine Finset.eq_empty_of_forall_notMem fun q hq => ?_
  obtain ⟨pair, hadmission, -⟩ := mem_stored.1 hq
  rw [h] at hadmission
  cases hadmission

/-- What is stored on an empty memo lies off the borders and fits. -/
theorem fits_of_mem_stored (hb : 0 < b) {n m : Int} {q : Pair} (hq : q ∈ stored b n m) :
    q.isBase = false ∧ stirling q.n q.m < Word.limit b := by
  obtain ⟨pair, -, hadds⟩ := mem_stored.1 hq
  obtain ⟨hbase, -, v, hv⟩ := hadds.fresh
  exact ⟨hbase, fits_of_value?_empty hb hv⟩

/-- A request for an entry that fits stores its whole cone, which on the borders is empty. -/
theorem stored_eq_cone (hb : 0 < b) {n m : Int} {p : Pair} (hp : Pair.ofInts? n m = .ok p)
    (hfits : stirling p.n p.m < Word.limit b) : stored b n m = p.cone := by
  ext q
  rw [mem_stored]
  constructor
  · rintro ⟨pair, hadmission, hadds⟩
    have hpair := (Admission.of_compute hadmission).1
    rw [hp] at hpair
    cases hpair
    exact hadds.mem_cone
  · intro hq
    have hmem := Pair.mem_cone.1 hq
    have hbase : p.isBase = false := Pair.isBase_eq_false_iff.2 (by omega)
    exact ⟨p, Admission.compute_of_fits hp hbase hfits, adds_empty hb hfits hq⟩

/-- What requests have left behind, from an empty memo on, is what each of them stores there. -/
theorem Completed.keys_eq {memo : Memo b} {requests : List (Int × Int)}
    (h : Completed .empty (Computes b requests) memo) :
    memo.keys = requests.toFinset.biUnion fun r => stored b r.1 r.2 := by
  ext q
  rw [mem_keys, h.find?_isSome_iff, find?_empty, Finset.mem_biUnion]
  simp only [Option.isSome_none, Bool.false_eq_true, false_or, List.mem_toFinset, mem_stored]
  constructor
  · rintro ⟨root, ⟨r, hr, hadmission⟩, hadds⟩
    exact ⟨r, hr, root, hadmission, hadds⟩
  · rintro ⟨r, hr, root, hadmission, hadds⟩
    exact ⟨root, ⟨r, hr, hadmission⟩, hadds⟩

end Memo

end StirlingTriangle
