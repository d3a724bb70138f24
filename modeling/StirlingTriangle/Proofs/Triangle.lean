import Mathlib.Tactic.Ring
import StirlingTriangle.Triangle
import StirlingTriangle.Proofs.Agreement
import StirlingTriangle.Proofs.Lists

/-!
# Triangle

What a triangle holds, by pairs instead of by rows.

* `Pair.Before` is the row-major order; the triangle of a pair lists the valid
  pairs up to its row and its column (`Pair.mem_triangle`), each once and in
  this order (`Pair.pairwise_triangle`), and so many of them
  (`Pair.length_triangle`);
* `Triangle.tabulate p f` has the entry `f q` for each pair `q`. All that is
  read off a triangle becomes a statement on the list of pairs:
  `cells_tabulate`, `overflows_tabulate`, `firstDifference?_tabulate`;
* `Triangle.exact b p` has the entries of the triangle over the natural
  numbers. Windowed evaluation gives it (`iterative_eq_exact`); memoized
  evaluation gives what the memo determines, however the work is divided and
  whatever the turns are (`fst_recursive`).
-/

namespace StirlingTriangle

variable {b : Nat}

/-! ## The pairs of a triangle -/

namespace Pair

/-- In an earlier row, or further left in the same row. -/
def Before (p q : Pair) : Prop := p.n < q.n ∨ p.n = q.n ∧ p.m < q.m

theorem Before.irrefl (p : Pair) : ¬ p.Before p := by
  unfold Before
  omega

theorem Before.asymm {p q : Pair} (h : p.Before q) : ¬ q.Before p := by
  unfold Before at h ⊢
  omega

theorem mem_triangle {p q : Pair} :
    q ∈ p.triangle.flatten ↔ q.Valid ∧ q.n ≤ p.n ∧ q.m ≤ p.m := by
  simp only [triangle, List.mem_flatten, List.mem_map, List.mem_range'_1, Valid]
  constructor
  · rintro ⟨row, ⟨i, hi, rfl⟩, hq⟩
    simp only [List.mem_map, List.mem_range'_1] at hq
    obtain ⟨j, hj, rfl⟩ := hq
    simp only
    omega
  · intro h
    refine ⟨_, ⟨q.n, by omega, rfl⟩, ?_⟩
    simp only [List.mem_map, List.mem_range'_1]
    exact ⟨q.m, by omega, rfl⟩

theorem pairwise_triangle (p : Pair) : p.triangle.flatten.Pairwise Before := by
  rw [triangle, List.pairwise_flatten]
  constructor
  · -- within a row the columns ascend
    intro row hrow
    obtain ⟨i, -, rfl⟩ := List.mem_map.1 hrow
    rw [List.pairwise_map]
    exact (List.pairwise_lt_range' 1).imp fun h => .inr ⟨rfl, h⟩
  · rw [List.pairwise_map]
    refine (List.pairwise_lt_range' 1).imp ?_
    intro i i' hlt x hx y hy
    obtain ⟨j, -, rfl⟩ := List.mem_map.1 hx
    obtain ⟨j', -, rfl⟩ := List.mem_map.1 hy
    exact .inl hlt

theorem nodup_triangle (p : Pair) : p.triangle.flatten.Nodup := by
  refine p.pairwise_triangle.imp ?_
  rintro q _ hbefore rfl
  exact Before.irrefl q hbefore

/-- A search finds the first pair in row-major order. -/
theorem find?_triangle_eq_some_iff {p q : Pair} {test : Pair → Bool} :
    p.triangle.flatten.find? test = some q ↔
      q ∈ p.triangle.flatten ∧ test q ∧
        ∀ r ∈ p.triangle.flatten, r.Before q → test r = false := by
  have hordered := p.pairwise_triangle
  generalize p.triangle.flatten = pairs at hordered
  constructor
  · intro h
    obtain ⟨hq, earlier, later, rfl, hearlier⟩ := List.find?_eq_some_iff_append.1 h
    refine ⟨by simp, hq, ?_⟩
    intro r hr hbefore
    obtain ⟨-, hlater, -⟩ := List.pairwise_append.1 hordered
    rcases List.mem_append.1 hr with hr | hr
    · simpa using hearlier r hr
    · rcases List.mem_cons.1 hr with rfl | hr
      · exact absurd hbefore (Before.irrefl r)
      · exact absurd hbefore (List.rel_of_pairwise_cons hlater hr).asymm
  · rintro ⟨hmem, hq, hfirst⟩
    obtain ⟨earlier, later, rfl⟩ := List.append_of_mem hmem
    refine List.find?_eq_some_iff_append.2 ⟨hq, earlier, later, rfl, ?_⟩
    intro r hr
    have hbefore := (List.pairwise_append.1 hordered).2.2 r hr q List.mem_cons_self
    rw [hfirst r (List.mem_append_left _ hr) hbefore]
    rfl

theorem length_triangle_succ (n m : Nat) :
    (triangle ⟨n + 1, m⟩).flatten.length = (triangle ⟨n, m⟩).flatten.length + min (n + 1) m := by
  simp [triangle, List.range'_concat, Nat.add_comm]

/-- Up to row `m` a row has as many entries as its number says. -/
theorem two_mul_length_triangle_of_le {n m : Nat} (h : n ≤ m) :
    2 * (triangle ⟨n, m⟩).flatten.length = n * (n + 1) := by
  induction n with
  | zero => rfl
  | succ n ih =>
      have hmin : min (n + 1) m = n + 1 := Nat.min_eq_left h
      rw [length_triangle_succ, hmin, Nat.mul_add, ih (by omega)]
      ring

/-- A rectangle of `m` columns, less the corner above the diagonal. -/
theorem length_triangle {n m : Nat} (h : m ≤ n) :
    (triangle ⟨n, m⟩).flatten.length = n * m - m * (m - 1) / 2 := by
  have htwice : 2 * (triangle ⟨n, m⟩).flatten.length + m * (m - 1) = 2 * (n * m) := by
    induction n, h using Nat.le_induction with
    | base =>
        rw [two_mul_length_triangle_of_le (Nat.le_refl m)]
        cases m with
        | zero => rfl
        | succ m =>
            rw [Nat.add_sub_cancel]
            ring
    | succ n hmn ih =>
        have hmin : min (n + 1) m = m := Nat.min_eq_right (by omega)
        rw [length_triangle_succ, hmin, Nat.add_mul, Nat.one_mul, Nat.mul_add, Nat.mul_add]
        omega
  omega

end Pair

/-! ## Entries by pair -/

namespace Triangle

/-- The triangle up to `p` with the entry `f q` for each pair `q`. -/
def tabulate (p : Pair) (f : Pair → Outcome b) : Triangle b := ⟨p.triangle.map (·.map f)⟩

variable {p : Pair} {f g : Pair → Outcome b}

theorem cells_tabulate : (tabulate p f).cells = p.triangle.flatten.map fun q => (q, f q) := by
  simp only [cells, tabulate, Pair.triangle, List.map_map, List.flatMap_def, List.map_flatten,
    Function.comp_def, List.zipIdx_map_range']

theorem pairwise_cells_tabulate : (tabulate p f).cells.Pairwise fun x y => x.1.Before y.1 := by
  rw [cells_tabulate, List.pairwise_map]
  exact p.pairwise_triangle

theorem mem_cells_tabulate {q : Pair} {outcome : Outcome b} :
    (q, outcome) ∈ (tabulate p f).cells ↔
      (1 ≤ q.n ∧ q.n ≤ p.n ∧ 1 ≤ q.m ∧ q.m ≤ min q.n p.m) ∧ outcome = f q := by
  rw [cells_tabulate]
  simp only [List.mem_map, Pair.mem_triangle, Pair.Valid, Prod.mk.injEq]
  constructor
  · rintro ⟨r, hr, rfl, rfl⟩
    exact ⟨by omega, rfl⟩
  · rintro ⟨hq, rfl⟩
    exact ⟨q, by omega, rfl, rfl⟩

theorem cellCount_tabulate : (tabulate p f).cellCount = p.triangle.flatten.length := by
  rw [cellCount, tabulate, ← List.map_flatten, List.length_map]

theorem overflows_tabulate :
    (tabulate p f).overflows = p.triangle.flatten.filter fun q => (f q).toOption.isNone := by
  rw [overflows, cells_tabulate, List.filterMap_map, ← List.filterMap_eq_filter]
  congr 1
  funext q
  cases h : f q <;> simp [h, Option.guard, Except.toOption]

/-- Triangles of the same pairs first differ at the first pair with two different entries. -/
theorem firstDifference?_tabulate :
    (tabulate p f).firstDifference? (tabulate p g) =
      (p.triangle.flatten.find? fun q => f q ≠ g q).map fun q => (q, f q, g q) := by
  rw [firstDifference?, cells_tabulate, cells_tabulate, List.zip_map', List.findSome?_map]
  generalize p.triangle.flatten = pairs
  induction pairs with
  | nil => rfl
  | cons q pairs ih =>
      rw [List.findSome?_cons, List.find?_cons]
      by_cases h : f q = g q
      · simp [h, ih]
      · simp [h]

/-- The triangle over the natural numbers, as far as the entries fit `b` bits. -/
def exact (b : Nat) (p : Pair) : Triangle b := tabulate p fun q => .ofTriangle b q.n q.m

theorem iterative_eq_exact (hb : 0 < b) (p : Pair) : iterative b p = exact b p := by
  simp only [iterative, exact, tabulate, Window.evaluate_eq_ofTriangle hb]

/-! ## Memoized triangles -/

/-- The evaluations that a triangle needs. -/
def requests (p : Pair) : List (Int × Int) := p.triangle.flatten.map fun q => (q.n, q.m)

/-- However the work is divided, the jobs evaluate the pairs of the triangle in order. -/
theorem recursive_eq_run (memo : Memo b) (level : ParallelizeBy) (turns : Nat → List Nat)
    (p : Pair) :
    ∃ jobs : List (List (Int × Int)), jobs.flatten = requests p ∧
      recursive memo level turns p =
        (⟨regroup (p.triangle.map List.length)
            (Pool.run memo (Pool.evaluations b jobs) (turns jobs.length)).1.flatten⟩,
          (Pool.run memo (Pool.evaluations b jobs) (turns jobs.length)).2) := by
  refine ⟨(level.jobs p.triangle).map fun job => job.map fun q => (q.n, q.m), ?_, ?_⟩
  · rw [← List.map_flatten, level.flatten_jobs, requests]
  · simp [recursive, Pool.evaluations, Function.comp_def]

/-- A memoized triangle has the entries that the memo determines, under any turns. -/
theorem fst_recursive (memo : Memo b) (level : ParallelizeBy) (turns : Nat → List Nat)
    (p : Pair) :
    (recursive memo level turns p).1 = tabulate p fun q => memo.answer q.n q.m := by
  obtain ⟨jobs, hjobs, hrun⟩ := recursive_eq_run memo level turns p
  rw [hrun, (Pool.run_evaluations memo jobs _).1, ← List.map_flatten, hjobs, requests,
    List.map_map, tabulate]
  -- the answers are put back into the rows that they came from
  have hrows := regroup_flatten (p.triangle.map (·.map fun q => memo.answer q.n q.m))
  rw [← List.map_flatten, List.map_map] at hrows
  simpa [Function.comp_def] using hrows

/-- It leaves behind what its evaluations add. -/
theorem completed_recursive (memo : Memo b) (level : ParallelizeBy) (turns : Nat → List Nat)
    (p : Pair) :
    Memo.Completed memo (Computes b (requests p)) (recursive memo level turns p).2 := by
  obtain ⟨jobs, hjobs, hrun⟩ := recursive_eq_run memo level turns p
  rw [hrun, ← hjobs]
  exact (Pool.run_evaluations memo jobs _).2

end Triangle

end StirlingTriangle
