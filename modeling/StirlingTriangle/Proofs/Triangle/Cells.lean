import StirlingTriangle.Proofs.CrossCheck.History

/-!
# Triangle.Cells

What a triangle lists as its cells, and how many of them the comparison of two
triangles looks at.

* `t.Tabulates p f`: the cells of `t` are the pairs up to `p`, each once, in
  row-major order and with the entry `f` of the pair; it says how many these
  are;
* `Triangle.divided` is the triangle of an engine that keeps no state, with its
  pairs divided into jobs and the answers put back into rows. Neither this
  division nor that of a memoized triangle moves an answer to another pair;
* `countedSearch` is the search for the first difference with a count of the
  pairs of cells that it looks at. After a report that is all of them
  (`Checker.comparisons_of_report`);
* `cells_enumerate` puts this together for both ways of evaluating.
-/

namespace StirlingTriangle

variable {b : Nat}

namespace Triangle

/-! ## Cells by pair -/

/-- The cells are the pairs `(i, j)` with `1 ≤ i ≤ p.n` and `1 ≤ j ≤ min i p.m`, each once, row by
row, and each with its entry `f`. -/
structure Tabulates (t : Triangle b) (p : Pair) (f : Pair → Outcome b) : Prop where
  ordered : t.cells.Pairwise fun x y => x.1.Before y.1
  mem_cells : ∀ q outcome, (q, outcome) ∈ t.cells ↔
    (1 ≤ q.n ∧ q.n ≤ p.n ∧ 1 ≤ q.m ∧ q.m ≤ min q.n p.m) ∧ outcome = f q
  length_cells : t.cells.length = t.cellCount
  cellCount : t.cellCount = p.n * p.m - p.m * (p.m - 1) / 2

/-- No cell refuses its pair. -/
def AllValid (t : Triangle b) : Prop :=
  ∀ q n m constraint, (q, .error (.invalidArgument n m constraint)) ∉ t.cells

/-- A cell for each entry of the rows, whatever their lengths are. -/
theorem length_cells (t : Triangle b) : t.cells.length = t.cellCount := by
  have hrows : ∀ (rows : List (List (Outcome b))) (i : Nat),
      ((rows.zipIdx i).flatMap fun row => (row.1.zipIdx 1).map fun entry =>
        (Pair.mk row.2 entry.2, entry.1)).length = rows.flatten.length := by
    intro rows
    induction rows with
    | nil => intro i; rfl
    | cons row rows ih =>
        intro i
        rw [List.zipIdx_cons, List.flatMap_cons, List.length_append, ih, List.flatten_cons,
          List.length_append, List.length_map, List.length_zipIdx]
  exact hrows t.rows 1

variable {p : Pair} {f : Pair → Outcome b}

theorem tabulates_tabulate (hp : p.Valid) (f : Pair → Outcome b) :
    (tabulate p f).Tabulates p f where
  ordered := pairwise_cells_tabulate
  mem_cells := fun _ _ => mem_cells_tabulate
  length_cells := length_cells _
  cellCount := by
    rw [cellCount_tabulate]
    exact Pair.length_triangle hp.2

/-- The pairs of the cells lie in the triangle, and there nothing is refused. -/
theorem allValid_tabulate (h : ∀ q, q.Valid → (∃ v, f q = .ok v) ∨ f q = .error (.overflow q b)) :
    (tabulate p f).AllValid := by
  intro q n m constraint hcell
  rw [cells_tabulate] at hcell
  obtain ⟨r, hr, heq⟩ := List.mem_map.1 hcell
  have hinvalid := congrArg Prod.snd heq
  simp only at hinvalid
  rcases h r (Pair.mem_triangle.1 hr).1 with ⟨v, hv⟩ | hover
  · rw [hv] at hinvalid
    cases hinvalid
  · rw [hover] at hinvalid
    cases hinvalid

/-! ## Engines without a state -/

/-- The triangle of `p` from an engine whose answers are `f`, in jobs of the given kind. -/
def divided (level : ParallelizeBy) (p : Pair) (f : Pair → Outcome b) : Triangle b :=
  ⟨regroup (p.triangle.map List.length) ((level.jobs p.triangle).flatMap fun job => job.map f)⟩

theorem divided_eq_tabulate (level : ParallelizeBy) (p : Pair) (f : Pair → Outcome b) :
    divided level p f = tabulate p f := by
  have hanswers : ((level.jobs p.triangle).flatMap fun job => job.map f) =
      (p.triangle.map fun row => row.map f).flatten := by
    rw [List.flatMap_def, ← List.map_flatten, level.flatten_jobs, List.map_flatten]
  have hlengths : p.triangle.map List.length =
      (p.triangle.map fun row => row.map f).map List.length := by
    rw [List.map_map]
    exact List.map_congr_left fun row _ => (List.length_map f).symm
  rw [divided, hanswers, hlengths, regroup_flatten, tabulate]

/-- Windowed evaluation keeps no state, so its triangle does not depend on the jobs. -/
theorem iterative_eq_divided (level : ParallelizeBy) (p : Pair) :
    iterative b p = divided level p fun q => (Window.evaluate b q.n q.m).outcome := by
  rw [divided_eq_tabulate]
  rfl

/-! ## Comparisons -/

/-- The search for the first difference, with the number of pairs of cells that it looks at. -/
def countedSearch :
    List ((Pair × Outcome b) × Pair × Outcome b) → Option (Pair × Outcome b × Outcome b) × Nat
  | [] => (none, 0)
  | ((pair, x), (_, y)) :: rest =>
    if x = y then ((countedSearch rest).1, (countedSearch rest).2 + 1) else (some (pair, x, y), 1)

/-- How many pairs of cells a comparison of two triangles looks at. -/
def comparisons (left right : Triangle b) : Nat := (countedSearch (left.cells.zip right.cells)).2

/-- Without the number it is the search of the comparison. -/
theorem fst_countedSearch (left right : Triangle b) :
    (countedSearch (left.cells.zip right.cells)).1 = left.firstDifference? right := by
  rw [firstDifference?]
  generalize left.cells.zip right.cells = cells
  induction cells with
  | nil => rfl
  | cons cell cells ih =>
      obtain ⟨⟨pair, x⟩, other, y⟩ := cell
      rw [countedSearch, List.findSome?_cons]
      by_cases h : x = y
      · simp only [h, if_true]
        exact ih
      · simp only [h, if_false]

/-- A search that finds nothing has looked at everything. -/
theorem comparisons_of_none {left right : Triangle b} (h : left.firstDifference? right = none) :
    left.comparisons right = min left.cellCount right.cellCount := by
  rw [← fst_countedSearch] at h
  rw [comparisons, ← length_cells left, ← length_cells right, ← List.length_zip]
  generalize left.cells.zip right.cells = cells at h
  induction cells with
  | nil => rfl
  | cons cell cells ih =>
      obtain ⟨⟨pair, x⟩, other, y⟩ := cell
      rw [countedSearch] at h ⊢
      by_cases hxy : x = y
      · simp only [hxy, if_true] at h ⊢
        rw [ih h, List.length_cons]
      · simp only [hxy, if_false] at h
        cases h

theorem firstDifference?_exact_self (p : Pair) :
    (exact b p).firstDifference? (exact b p) = none := by
  rw [exact, firstDifference?_tabulate, Option.map_eq_none_iff, List.find?_eq_none]
  intro q _
  simp

end Triangle

/-- The number of compared values stands in the summary. -/
theorem Report.exists_summary_eq (r : Report b) (elapsed : String) :
    ∃ before after, r.summary elapsed =
      before ++ s!"Engines agree on {r.comparedValues} values\n" ++ after :=
  ⟨"\n--- Summary ---\n" ++ s!"recursive engine: {r.recursive.time}\n"
      ++ s!"iterative engine: {r.iterative.time}\n" ++ s!"Cached pairs: {r.cachedPairs}\n",
    s!"Elapsed wall-clock time: {elapsed}\n", rfl⟩

namespace Checker

/-- The triangles of a report have as many cells, and all of them have been compared. -/
theorem comparisons_of_report (hb : 0 < b) {checker : Checker b} {n m : Int} {report : Report b}
    (h : (checker.execute n m true).1 = .ok report) :
    ∃ left right, report.recursive.triangle = some left ∧ report.iterative.triangle = some right ∧
      left.comparisons right = left.cellCount ∧ right.cellCount = left.cellCount ∧
      report.comparedValues = left.comparisons right + 1 := by
  rw [fst_execute hb] at h
  obtain ⟨rfl, -⟩ := checker.exact_of_result_eq_ok h
  have hcompared : (Triangle.exact b ⟨n.toNat, m.toNat⟩).comparisons (.exact b ⟨n.toNat, m.toNat⟩) =
      (Triangle.exact b ⟨n.toNat, m.toNat⟩).cellCount := by
    rw [Triangle.comparisons_of_none (Triangle.firstDifference?_exact_self _), Nat.min_self]
  refine ⟨_, _, rfl, rfl, hcompared, rfl, ?_⟩
  rw [hcompared]
  rfl

end Checker

/-! ## Both ways of evaluating -/

namespace Triangle

/-- The answers of a memo for the pairs of a triangle, on the memo as it is at first. -/
theorem tabulates_recursive {p : Pair} (hp : p.Valid) (memo : Memo b) (level : ParallelizeBy)
    (turns : Nat → List Nat) :
    (recursive memo level turns p).1.Tabulates p fun q => (memo.evaluate q.n q.m).outcome := by
  rw [fst_recursive]
  simp only [← Memo.outcome_evaluate]
  exact tabulates_tabulate hp _

theorem allValid_recursive (memo : Memo b) (level : ParallelizeBy) (turns : Nat → List Nat)
    (p : Pair) : (recursive memo level turns p).1.AllValid := by
  rw [fst_recursive]
  simp only [← Memo.outcome_evaluate]
  refine allValid_tabulate fun q hq => ?_
  exact (memo.outcome_evaluate_of_valid hq.ofInts?_eq).symm

theorem allValid_iterative (hb : 0 < b) (p : Pair) : (iterative b p).AllValid := by
  rw [iterative_eq_exact hb]
  refine allValid_tabulate fun q hq => ?_
  rw [Outcome.ofTriangle_of_ok hq.ofInts?_eq]
  cases Word.ofNat? b (stirling q.n q.m) with
  | none => exact .inr rfl
  | some v => exact .inl ⟨v, rfl⟩

/-- The triangle of a valid pair lists the pairs up to it, in row-major order and each with the
answer of the engine for it: on any memo, for any division of the work and under any turns, where
the memo left behind gives the same answers as the one at the start; with a window; and for any
other engine without a state. No answer refuses its pair. In the summary of a report with
triangles stands the number of pairs of cells that have been compared, and one more. -/
theorem cells_enumerate (hb : 0 < b) {p : Pair} (hp : p.Valid) :
    (∀ (memo : Memo b) level turns,
      (recursive memo level turns p).1.Tabulates p
        (fun q => (memo.evaluate q.n q.m).outcome) ∧
      (∀ n m, ((recursive memo level turns p).2.evaluate n m).outcome =
        (memo.evaluate n m).outcome) ∧
      (recursive memo level turns p).1.AllValid) ∧
    ((iterative b p).Tabulates p (fun q => (Window.evaluate b q.n q.m).outcome) ∧
      (iterative b p).AllValid) ∧
    (∀ level (f : Pair → Outcome b), (divided level p f).Tabulates p f) ∧
    (∀ level, iterative b p = divided level p fun q => (Window.evaluate b q.n q.m).outcome) ∧
    (∀ (checker : Checker b) n m report, (checker.execute n m true).1 = .ok report →
      ∃ left right, report.recursive.triangle = some left ∧
        report.iterative.triangle = some right ∧
        left.comparisons right = left.cellCount ∧ right.cellCount = left.cellCount ∧
        ∀ elapsed, ∃ before after, report.summary elapsed =
          before ++ s!"Engines agree on {left.comparisons right + 1} values\n" ++ after) := by
  refine ⟨?_, ⟨?_, allValid_iterative hb p⟩, ?_, fun level => iterative_eq_divided level p, ?_⟩
  · intro memo level turns
    refine ⟨tabulates_recursive hp memo level turns, ?_, allValid_recursive memo level turns p⟩
    intro n m
    rw [Memo.outcome_evaluate, Memo.outcome_evaluate]
    exact (completed_recursive memo level turns p).toDerived.answer_eq n m
  · exact tabulates_tabulate hp fun q => (Window.evaluate b q.n q.m).outcome
  · intro level f
    rw [divided_eq_tabulate]
    exact tabulates_tabulate hp f
  · intro checker n m report hreport
    obtain ⟨left, right, hleft, hright, hall, hcount, hcompared⟩ :=
      Checker.comparisons_of_report hb hreport
    refine ⟨left, right, hleft, hright, hall, hcount, fun elapsed => ?_⟩
    rw [← hcompared]
    exact report.exists_summary_eq elapsed

/-- In bytes, with every cell as its own job: `(7, 4)` is one of the 25 cells of `(7, 5)`, and it
overflows. The report on `(4, 2)` says that 8 values agree, after 7 comparisons of cells. -/
theorem cells_enumerate_byte :
    ((recursive (Memo.empty : Memo 8) .cell (fun _ => [20, 3, 20]) ⟨7, 5⟩).1.cellCount = 25 ∧
      (⟨7, 4⟩, .error (.overflow ⟨7, 4⟩ 8)) ∈
        (recursive (Memo.empty : Memo 8) .cell (fun _ => [20, 3, 20]) ⟨7, 5⟩).1.cells) ∧
    ∃ report, ((⟨.empty, .row, fun _ => [1, 0]⟩ : Checker 8).execute 4 2 true).1 = .ok report ∧
      ∃ left right, report.recursive.triangle = some left ∧
        report.iterative.triangle = some right ∧ left.comparisons right = left.cellCount ∧
        ∀ elapsed, ∃ before after, report.summary elapsed =
          before ++ s!"Engines agree on {left.comparisons right + 1} values\n" ++ after := by
  have hcells := ((cells_enumerate (b := 8) (by decide) (p := ⟨7, 5⟩) (by decide)).1
    .empty .cell fun _ => [20, 3, 20]).1
  have hover : (Memo.empty.evaluate 7 4 : Memo.Evaluation 8).outcome =
      .error (.overflow ⟨7, 4⟩ 8) := by
    rw [Memo.truthful_empty.outcome_evaluate]
    decide
  obtain ⟨report, hreport⟩ : ∃ report,
      ((⟨.empty, .row, fun _ => [1, 0]⟩ : Checker 8).execute 4 2 true).1 = .ok report := by
    rw [Checker.fst_execute (by decide),
      Checker.result_eq_of_truthful _ Memo.truthful_empty (by decide)]
    exact ⟨_, rfl⟩
  obtain ⟨left, right, hleft, hright, hall, -, hsummary⟩ :=
    (cells_enumerate (b := 8) (by decide) (p := ⟨4, 2⟩) (by decide)).2.2.2.2 _ _ _ _ hreport
  refine ⟨⟨hcells.cellCount, ?_⟩, report, hreport, left, right, hleft, hright, hall, hsummary⟩
  exact (hcells.mem_cells _ _).2 ⟨by decide, hover.symm⟩

end Triangle

end StirlingTriangle
