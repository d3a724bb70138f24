import StirlingTriangle.Proofs.Triangle
import StirlingTriangle.Proofs.Memo.Transparency
import StirlingTriangle.CrossCheck

/-!
# CrossCheck

What the comparison finds, on a memo that may hold anything.

* `memo.failure? n m table` is the failure that a request ends with, if there
  is one, from what the memo determines and from the triangle alone. It has
  the order in which failures are seen;
* `Checker.executeTimed_stopped` says all that a request does: it ends with
  this failure or with the exact report, and the memo that it leaves comes from
  `memo.evaluations n m table` (`Checker.completed_recursiveRun`);
* `Checker.execute_exact` reads off it that a report is never wrong, and that
  each failure is seen exactly if its cause is there and no earlier one is:
  `Memo.Overflows`, `Memo.Differs`, `Memo.FirstCorrupt`.
-/

namespace StirlingTriangle

variable {b : Nat}

/-! ## The two runs -/

namespace Memo

/-- The evaluations of a request for a report: its own, and if that has a value and the
triangle is asked for, those of the triangle. -/
def evaluations (memo : Memo b) (n m : Int) (table : Bool) : List (Int × Int) :=
  match (memo.evaluate n m).outcome with
  | .error _ => [(n, m)]
  | .ok _ => (n, m) :: if table then Triangle.requests ⟨n.toNat, m.toNat⟩ else []

end Memo

namespace Checker

/-- A run keeps everything but the memo, and what it gives depends on the value first. -/
theorem recursiveRun_eq (checker : Checker b) (n m : Int) (table : Bool) :
    checker.recursiveRun n m table =
      let { outcome, memo, .. } := checker.memo.evaluate n m
      let triangle := Triangle.recursive memo checker.parallelizeBy checker.turns ⟨n.toNat, m.toNat⟩
      match outcome, table with
      | .error e, _ => (.error e, { checker with memo })
      | .ok value, false => (.ok (value, none), { checker with memo })
      | .ok value, true => (.ok (value, some triangle.1), { checker with memo := triangle.2 }) := by
  rw [recursiveRun]
  rcases checker.memo.evaluate n m with ⟨outcome, memo, journal⟩
  cases outcome <;> cases table <;> rfl

theorem fst_recursiveRun (checker : Checker b) (n m : Int) (table : Bool) :
    (checker.recursiveRun n m table).1 =
      (checker.memo.answer n m).map fun value =>
        (value, if table then
          some (.tabulate ⟨n.toNat, m.toNat⟩ fun q => checker.memo.answer q.n q.m) else none) := by
  -- the triangle is evaluated on the memo that the first evaluation leaves
  have hlater := (checker.memo.completed_evaluate n m).toDerived.answer_eq
  rw [← checker.memo.outcome_evaluate, recursiveRun_eq]
  generalize checker.memo.evaluate n m = evaluation at hlater
  obtain ⟨outcome, memo, journal⟩ := evaluation
  cases outcome with
  | error e => rfl
  | ok value =>
      cases table with
      | false => rfl
      | true =>
          simp only [Triangle.fst_recursive, hlater]
          rfl

/-- The memo after a run is the one that the evaluations of the request leave behind. -/
theorem completed_recursiveRun (checker : Checker b) (n m : Int) (table : Bool) :
    Memo.Completed checker.memo (Computes b (checker.memo.evaluations n m table))
      (checker.recursiveRun n m table).2.memo := by
  have hfirst := checker.memo.completed_evaluate n m
  rw [recursiveRun_eq, Memo.evaluations]
  generalize checker.memo.evaluate n m = evaluation at hfirst
  obtain ⟨outcome, memo, journal⟩ := evaluation
  cases outcome with
  | error e => exact hfirst
  | ok value =>
      cases table with
      | false => exact hfirst
      | true => exact hfirst.append (Triangle.completed_recursive memo _ _ _)

theorem iterativeRun_eq (hb : 0 < b) (n m : Int) (table : Bool) :
    iterativeRun b n m table =
      (Outcome.ofTriangle b n m).map fun value =>
        (value, if table then some (.exact b ⟨n.toNat, m.toNat⟩) else none) := by
  rw [iterativeRun, Window.evaluate_eq_ofTriangle hb, Triangle.iterative_eq_exact hb]
  cases Outcome.ofTriangle b n m <;> rfl

end Checker

/-! ## What the comparison finds -/

/-- The first pair of the triangle of `p` whose entry the memo does not determine rightly. -/
def Memo.corrupt? (memo : Memo b) (p : Pair) : Option Pair :=
  p.triangle.flatten.find? fun q => memo.answer q.n q.m ≠ .ofTriangle b q.n q.m

/-- The two answers for `q`, as a failure. -/
def Memo.disagreement (memo : Memo b) (q : Pair) : Failure :=
  .disagreement q.n q.m (memo.evaluate q.n q.m).outcome.text (Outcome.ofTriangle b q.n q.m).text

/-- The failure that a request ends with, if there is one. -/
def Memo.failure? (memo : Memo b) (n m : Int) (table : Bool) : Option Failure :=
  match memo.answer n m, Outcome.ofTriangle b n m with
  | .error e, _ => some (.evaluation e)
  | .ok _, .error e => some (.evaluation e)
  | .ok x, .ok y =>
    if x ≠ y then some (.disagreement n m x.text y.text)
    else (if table then memo.corrupt? ⟨n.toNat, m.toNat⟩ else none).map memo.disagreement

/-- A run without any fault: the entry of the triangle, and the triangle up to it. -/
def Run.exact (b : Nat) (n m : Int) (table : Bool) (time : String) : Run b where
  value := BitVec.ofNat b (stirling n.toNat m.toNat)
  triangle := if table then some (.exact b ⟨n.toNat, m.toNat⟩) else none
  time

/-- A report without any fault. -/
def Report.exact (b : Nat) (n m : Int) (table : Bool) (time : String) (cachedPairs : Nat) :
    Report b where
  n
  m
  recursive := .exact b n m table time
  iterative := .exact b n m table time
  cachedPairs

/-- What a request ends with, on a stopwatch that shows the same text for everything. -/
def Checker.result (checker : Checker b) (n m : Int) (table : Bool) (time : String) :
    Except Failure (Report b) :=
  match checker.memo.failure? n m table with
  | some failure => .error failure
  | none => .ok (.exact b n m table time (checker.recursiveRun n m table).2.memo.size)

/-- The memoized triangle first differs from the exact one at the first corrupt pair. -/
theorem Memo.firstDifference?_exact (memo : Memo b) (p : Pair) :
    (Triangle.tabulate p fun q => memo.answer q.n q.m).firstDifference? (.exact b p) =
      (memo.corrupt? p).map fun q => (q, memo.answer q.n q.m, .ofTriangle b q.n q.m) :=
  Triangle.firstDifference?_tabulate

/-- The values are compared first, and the triangles only if they are there. -/
theorem crossCheck_tabulate (n m : Int) (memo : Memo b) (p : Pair) (x y : Word b)
    (table : Bool) (time time' : String) :
    crossCheck n m
        ⟨x, if table then some (.tabulate p fun q => memo.answer q.n q.m) else none, time⟩
        ⟨y, if table then some (.exact b p) else none, time'⟩ =
      if x ≠ y then .error (.disagreement n m x.text y.text)
      else match if table then memo.corrupt? p else none with
        | some q => .error (memo.disagreement q)
        | none => .ok () := by
  by_cases hvalue : x = y
  · simp only [crossCheck, hvalue, ne_eq, not_true_eq_false, if_false]
    cases table with
    | false => rfl
    | true =>
        simp only [if_true, Memo.firstDifference?_exact]
        cases memo.corrupt? p with
        | none => rfl
        | some q => simp only [Option.map_some, Memo.disagreement, Memo.outcome_evaluate]
  · simp only [crossCheck, ne_eq, hvalue, not_false_eq_true, if_true]

/-- Where no pair is corrupt, the memo determines the exact triangle. -/
theorem Triangle.tabulate_eq_exact {memo : Memo b} {p : Pair} (h : memo.corrupt? p = none) :
    tabulate p (fun q => memo.answer q.n q.m) = exact b p := by
  simp only [Memo.corrupt?, List.find?_eq_none, decide_eq_true_eq, Decidable.not_not] at h
  simp only [exact, tabulate, mk.injEq]
  refine List.map_congr_left fun row hrow => List.map_congr_left fun q hq => ?_
  exact h q (List.mem_flatten_of_mem hrow hq)

theorem Outcome.eq_ofNat_of_ofTriangle {n m : Int} {v : Word b} (h : ofTriangle b n m = .ok v) :
    v = BitVec.ofNat b (stirling n.toNat m.toNat) := by
  rw [← (ofTriangle_eq_ok_iff.1 h).2.2]
  simp

/-- All that a request does: it ends with its result, and leaves the memo of its memoized run. -/
theorem Checker.executeTimed_stopped {μ : Type → Type} [Monad μ] [LawfulMonad μ] (hb : 0 < b)
    (checker : Checker b) (n m : Int) (table : Bool) (time : String) :
    checker.executeTimed (.stopped time : Stopwatch μ) n m table =
      pure (checker.result n m table time, (checker.recursiveRun n m table).2) := by
  have hfirst := checker.fst_recursiveRun n m table
  rw [executeTimed, result, Memo.failure?]
  simp only [Stopwatch.stopped, pure_bind, iterativeRun_eq hb]
  generalize checker.recursiveRun n m table = run at hfirst ⊢
  obtain ⟨first, later⟩ := run
  simp only at hfirst
  subst hfirst
  -- the cases are in the order in which the failures are seen
  cases checker.memo.answer n m with
  | error e => rfl
  | ok x =>
      cases htrue : Outcome.ofTriangle b n m with
      | error e => rfl
      | ok y =>
          simp only [Except.map, crossCheck_tabulate]
          by_cases hvalue : x = y
          · subst hvalue
            simp only [ne_eq, not_true_eq_false, if_false]
            cases hcorrupt : if table then checker.memo.corrupt? ⟨n.toNat, m.toNat⟩ else none with
            | some q => rfl
            | none =>
                cases table with
                | false => rw [Outcome.eq_ofNat_of_ofTriangle htrue]; rfl
                | true =>
                    rw [Outcome.eq_ofNat_of_ofTriangle htrue, Triangle.tabulate_eq_exact hcorrupt]
                    rfl
          · simp only [ne_eq, hvalue, not_false_eq_true, if_true]

/-! ## Each failure by its cause -/

theorem Pair.natCast_of_ofInts? {n m : Int} {p : Pair} (h : ofInts? n m = .ok p) :
    (p.n : Int) = n ∧ (p.m : Int) = m := by
  obtain ⟨hm, hn, rfl⟩ := ofInts?_eq_ok h
  exact ⟨Int.toNat_of_nonneg (by omega), Int.toNat_of_nonneg (by omega)⟩

/-- The cells are the pairs `(i, j)` with `1 ≤ i ≤ p.n` and `1 ≤ j ≤ min i p.m`, each once, row by
row, and each with its entry, or an overflow where that does not fit. -/
structure Triangle.Faithful (t : Triangle b) (p : Pair) : Prop where
  ordered : t.cells.Pairwise fun x y => x.1.Before y.1
  mem_cells : ∀ q outcome, (q, outcome) ∈ t.cells ↔
    (1 ≤ q.n ∧ q.n ≤ p.n ∧ 1 ≤ q.m ∧ q.m ≤ min q.n p.m) ∧ outcome = .ofTriangle b q.n q.m

theorem Triangle.faithful_exact (p : Pair) : (exact b p).Faithful p where
  ordered := pairwise_cells_tabulate
  mem_cells := fun _ _ => mem_cells_tabulate

namespace Memo

variable {memo : Memo b} {p q : Pair}

/-- The request for `p` overflows, on the memo as it is or by its true value. -/
def Overflows (memo : Memo b) (p : Pair) : Prop :=
  (memo.evaluate p.n p.m).outcome = .error (.overflow p b) ∨ Word.limit b ≤ stirling p.n p.m

/-- The memo gives `p` a wrong value. -/
def Differs (memo : Memo b) (p : Pair) : Prop :=
  ∃ v, (memo.evaluate p.n p.m).outcome = .ok v ∧ v.toNat ≠ stirling p.n p.m

/-- Of the pairs of the triangle of `p`, in row-major order, `q` is the first for which the memo
gives another answer than the triangle. -/
structure FirstCorrupt (memo : Memo b) (p q : Pair) : Prop where
  inside : q.Valid ∧ q.n ≤ p.n ∧ q.m ≤ p.m
  corrupt : (memo.evaluate q.n q.m).outcome ≠ .ofTriangle b q.n q.m
  first : ∀ r : Pair, r.Valid ∧ r.n ≤ p.n ∧ r.m ≤ p.m → r.Before q →
    (memo.evaluate r.n r.m).outcome = .ofTriangle b r.n r.m

theorem corrupt?_eq_some_iff : memo.corrupt? p = some q ↔ memo.FirstCorrupt p q := by
  rw [corrupt?, Pair.find?_triangle_eq_some_iff]
  simp only [Pair.mem_triangle, decide_eq_true_eq, decide_eq_false_iff_not, Decidable.not_not,
    ← outcome_evaluate]
  exact ⟨fun ⟨hq, hcorrupt, hfirst⟩ => ⟨hq, hcorrupt, hfirst⟩,
    fun h => ⟨h.inside, h.corrupt, h.first⟩⟩

theorem corrupt?_eq_none_iff : memo.corrupt? p = none ↔ ∀ q, ¬ memo.FirstCorrupt p q := by
  simp only [Option.eq_none_iff_forall_ne_some, ne_eq, corrupt?_eq_some_iff]

theorem disagreement_ne_evaluation {e : EvalError} : memo.disagreement p ≠ .evaluation e := nofun

theorem disagreement_inj (h : memo.disagreement p = memo.disagreement q) : p = q := by
  obtain ⟨n, m⟩ := p
  obtain ⟨n', m'⟩ := q
  simp only [disagreement, Failure.disagreement.injEq, Int.ofNat_inj] at h
  rw [h.1, h.2.1]

/-- Inside the triangle there is a value or an overflow. -/
theorem outcome_evaluate_of_valid (memo : Memo b) (hp : Pair.ofInts? p.n p.m = .ok p) :
    (memo.evaluate p.n p.m).outcome = .error (.overflow p b) ∨
      ∃ v, (memo.evaluate p.n p.m).outcome = .ok v := by
  rw [memo.outcome_evaluate]
  cases hadmission : Admission.ofRequest b p.n p.m with
  | settled outcome =>
      rw [memo.answer_settled hadmission]
      simp only [Admission.ofRequest, hp] at hadmission
      split at hadmission
      · cases hadmission
        exact .inr ⟨1, rfl⟩
      split at hadmission
      · cases hadmission
        exact .inl rfl
      · cases hadmission
  | compute pair =>
      have hpair := (Admission.of_compute hadmission).1
      rw [hp] at hpair
      cases hpair
      rw [memo.answer_compute hadmission]
      cases memo.value? p with
      | none => exact .inl rfl
      | some v => exact .inr ⟨v, rfl⟩

/-- A memo that neither overflows nor differs for `p` answers it as the triangle does. -/
theorem outcome_evaluate_of_not_differs (hp : Pair.ofInts? p.n p.m = .ok p)
    (hover : ¬ memo.Overflows p) (hdiffers : ¬ memo.Differs p) :
    (memo.evaluate p.n p.m).outcome = .ofTriangle b p.n p.m := by
  rcases memo.outcome_evaluate_of_valid hp with hmemo | ⟨v, hmemo⟩
  · exact absurd (.inl hmemo) hover
  · obtain ⟨hm, hn, -⟩ := Pair.ofInts?_eq_ok hp
    have hv : v.toNat = stirling p.n p.m := by
      by_contra hne
      exact hdiffers ⟨v, hmemo, hne⟩
    rw [hmemo]
    exact (Outcome.ofTriangle_eq_ok_iff.2 ⟨hm, hn, hv⟩).symm

theorem failure?_of_overflows (hp : Pair.ofInts? p.n p.m = .ok p) (h : memo.Overflows p)
    (table : Bool) : memo.failure? p.n p.m table = some (.evaluation (.overflow p b)) := by
  rw [failure?, ← memo.outcome_evaluate, Outcome.ofTriangle_of_ok hp]
  rcases memo.outcome_evaluate_of_valid hp with hmemo | ⟨x, hmemo⟩
  · rw [hmemo]
  · rw [hmemo]
    rcases h with h | hlimit
    · rw [hmemo] at h
      cases h
    · rw [Word.ofNat?_eq_none_iff.2 hlimit]
      rfl

theorem failure?_of_differs (hp : Pair.ofInts? p.n p.m = .ok p) (hover : ¬ memo.Overflows p)
    (h : memo.Differs p) (table : Bool) :
    memo.failure? p.n p.m table = some (memo.disagreement p) := by
  obtain ⟨hm, hn, -⟩ := Pair.ofInts?_eq_ok hp
  obtain ⟨x, hmemo, hne⟩ := h
  have hfits : stirling p.n p.m < Word.limit b := Nat.lt_of_not_le fun hlimit => hover (.inr hlimit)
  obtain ⟨y, htrue⟩ := Outcome.exists_ofTriangle_eq_ok_iff.2 ⟨hm, hn, hfits⟩
  have hxy : x ≠ y := by
    rintro rfl
    exact hne (Outcome.ofTriangle_eq_ok_iff.1 htrue).2.2
  rw [failure?, ← memo.outcome_evaluate, disagreement, hmemo, htrue]
  simp only [ne_eq, hxy, not_false_eq_true, if_true]
  rfl

/-- Where the values agree, the triangles decide. -/
theorem failure?_of_not_differs (hp : Pair.ofInts? p.n p.m = .ok p) (hover : ¬ memo.Overflows p)
    (hdiffers : ¬ memo.Differs p) (table : Bool) :
    memo.failure? p.n p.m table =
      (if table then memo.corrupt? p else none).map memo.disagreement := by
  have hmemo := outcome_evaluate_of_not_differs hp hover hdiffers
  rcases memo.outcome_evaluate_of_valid hp with h | ⟨x, hx⟩
  · exact absurd (.inl h) hover
  · rw [failure?, ← memo.outcome_evaluate, ← hmemo, hx]
    simp only [ne_eq, not_true_eq_false, if_false, Int.toNat_natCast]

end Memo

namespace Checker

variable {n m : Int} {table : Bool} {p : Pair}

/-- The ways in which a request inside the triangle can end, each with its cause. -/
theorem result_cases (checker : Checker b) (hp : Pair.ofInts? n m = .ok p) (table : Bool)
    (time : String) :
    (checker.memo.Overflows p ∧
      checker.result n m table time = .error (.evaluation (.overflow p b))) ∨
    (¬ checker.memo.Overflows p ∧ checker.memo.Differs p ∧
      checker.result n m table time = .error (checker.memo.disagreement p)) ∨
    (¬ checker.memo.Overflows p ∧ ¬ checker.memo.Differs p ∧
      ∃ q, table = true ∧ checker.memo.FirstCorrupt p q ∧
        checker.result n m table time = .error (checker.memo.disagreement q)) ∨
    (¬ checker.memo.Overflows p ∧ ¬ checker.memo.Differs p ∧
      (table = true → ∀ q, ¬ checker.memo.FirstCorrupt p q) ∧
      checker.result n m table time =
        .ok (.exact b n m table time (checker.recursiveRun n m table).2.memo.size)) := by
  obtain ⟨rfl, rfl⟩ := Pair.natCast_of_ofInts? hp
  rw [result]
  by_cases hover : checker.memo.Overflows p
  · rw [Memo.failure?_of_overflows hp hover]
    exact .inl ⟨hover, rfl⟩
  by_cases hdiffers : checker.memo.Differs p
  · rw [Memo.failure?_of_differs hp hover hdiffers]
    exact .inr (.inl ⟨hover, hdiffers, rfl⟩)
  rw [Memo.failure?_of_not_differs hp hover hdiffers]
  cases table with
  | false =>
      exact .inr (.inr (.inr ⟨hover, hdiffers, fun h => absurd h Bool.false_ne_true, rfl⟩))
  | true =>
      simp only [if_true]
      cases hcorrupt : checker.memo.corrupt? p with
      | some q =>
          have hfirst := Memo.corrupt?_eq_some_iff.1 hcorrupt
          exact .inr (.inr (.inl ⟨hover, hdiffers, q, trivial, hfirst, rfl⟩))
      | none =>
          have hnone := Memo.corrupt?_eq_none_iff.1 hcorrupt
          exact .inr (.inr (.inr ⟨hover, hdiffers, fun _ => hnone, rfl⟩))

theorem fst_execute (hb : 0 < b) (checker : Checker b) (n m : Int) (table : Bool) :
    (checker.execute n m table).1 = checker.result n m table "" := by
  rw [execute, executeTimed_stopped hb]
  rfl

theorem snd_execute (hb : 0 < b) (checker : Checker b) (n m : Int) (table : Bool) :
    (checker.execute n m table).2 = (checker.recursiveRun n m table).2 := by
  rw [execute, executeTimed_stopped hb]
  rfl

theorem result_of_violated (checker : Checker b) {constraint : Constraint}
    (h : Constraint.violated? n m = some constraint) (table : Bool) (time : String) :
    checker.result n m table time = .error (.evaluation (.invalidArgument n m constraint)) := by
  rw [result, Memo.failure?, checker.memo.answer_eq_ofMemo, Outcome.ofMemo, h]

/-- A report is exact, and only a pair whose entry fits has one. -/
theorem exact_of_result_eq_ok (checker : Checker b) {time : String} {report : Report b}
    (h : checker.result n m table time = .ok report) :
    report = .exact b n m table time (checker.recursiveRun n m table).2.memo.size ∧
      1 ≤ m ∧ m ≤ n ∧ stirling n.toNat m.toNat < Word.limit b := by
  cases hviolated : Constraint.violated? n m with
  | some constraint =>
      rw [checker.result_of_violated hviolated] at h
      cases h
  | none =>
      obtain ⟨hm, hn⟩ := Constraint.violated?_eq_none_iff.1 hviolated
      rcases checker.result_cases (Pair.ofInts?_of_le hm hn) table time with ⟨_, hresult⟩ |
        ⟨_, _, hresult⟩ | ⟨_, _, _, _, _, hresult⟩ | ⟨hover, _, _, hresult⟩
      all_goals
        rw [hresult] at h
        cases h
      exact ⟨rfl, hm, hn, Nat.lt_of_not_le fun hlimit => hover (.inr hlimit)⟩

/-- A report has the entry of the triangle twice, and if the triangle was asked for, twice the
whole triangle; each failure is seen exactly if its cause is there and no earlier one is. This
holds whatever the memo holds, however the work is divided, and under any turns. -/
theorem execute_exact (hb : 0 < b) (checker : Checker b) (n m : Int) (table : Bool) :
    (∀ report, (checker.execute n m table).1 = .ok report →
      report.recursive.value.toNat = stirling n.toNat m.toNat ∧
      report.iterative.value.toNat = stirling n.toNat m.toNat ∧
      (table = true → ∃ triangle : Triangle b, triangle.Faithful ⟨n.toNat, m.toNat⟩ ∧
        report.recursive.triangle = some triangle ∧
        report.iterative.triangle = some triangle)) ∧
    (∀ constraint, Constraint.violated? n m = some constraint →
      (checker.execute n m table).1 = .error (.evaluation (.invalidArgument n m constraint))) ∧
    (∀ p, Pair.ofInts? n m = .ok p →
      ((checker.execute n m table).1 = .error (.evaluation (.overflow p b)) ↔
        checker.memo.Overflows p) ∧
      (¬ checker.memo.Overflows p →
        ((checker.execute n m table).1 = .error (checker.memo.disagreement p) ↔
          checker.memo.Differs p)) ∧
      (¬ checker.memo.Overflows p → ¬ checker.memo.Differs p →
        ∀ q, (checker.execute n m table).1 = .error (checker.memo.disagreement q) ↔
          table = true ∧ checker.memo.FirstCorrupt p q) ∧
      ((∃ report, (checker.execute n m table).1 = .ok report) ↔
        ¬ checker.memo.Overflows p ∧ ¬ checker.memo.Differs p ∧
          (table = true → ∀ q, ¬ checker.memo.FirstCorrupt p q))) := by
  rw [fst_execute hb]
  refine ⟨?_, fun _ h => checker.result_of_violated h table "", ?_⟩
  · intro report h
    obtain ⟨rfl, -, -, hfits⟩ := checker.exact_of_result_eq_ok h
    refine ⟨Word.toNat_ofNat hfits, Word.toNat_ofNat hfits, ?_⟩
    rintro rfl
    exact ⟨_, Triangle.faithful_exact _, rfl, rfl⟩
  · intro p hp
    rcases checker.result_cases hp table "" with ⟨hover, hresult⟩ | ⟨hover, hdiffers, hresult⟩ |
      ⟨hover, hdiffers, r, htable, hfirst, hresult⟩ | ⟨hover, hdiffers, hnone, hresult⟩
    · rw [hresult]
      simp [hover]
    · rw [hresult]
      simp [hover, hdiffers, Memo.disagreement_ne_evaluation]
    · -- the pair itself is not corrupt, so the failure is not mistaken for one of the values
      have hne : checker.memo.disagreement r ≠ checker.memo.disagreement p := by
        intro heq
        obtain rfl := Memo.disagreement_inj heq
        obtain ⟨rfl, rfl⟩ := Pair.natCast_of_ofInts? hp
        exact hfirst.corrupt (Memo.outcome_evaluate_of_not_differs hp hover hdiffers)
      have hiff : ∀ q, checker.memo.disagreement r = checker.memo.disagreement q ↔
          checker.memo.FirstCorrupt p q := by
        intro q
        rw [← Memo.corrupt?_eq_some_iff, Memo.corrupt?_eq_some_iff.2 hfirst, Option.some.injEq]
        exact ⟨Memo.disagreement_inj, fun h => by rw [h]⟩
      have hsome : ¬ ∀ q, ¬ checker.memo.FirstCorrupt p q := fun h => h r hfirst
      rw [hresult]
      simp [hover, hdiffers, htable, hne, hiff, hsome, Memo.disagreement_ne_evaluation]
    · have hfirst : ∀ q, ¬ (table = true ∧ checker.memo.FirstCorrupt p q) :=
        fun q h => hnone h.1 q h.2
      rw [hresult]
      simpa [hover, hdiffers, hfirst] using hnone

/-- With 7 for the pair `(4, 2)`, which is right, and 4 for the pair `(3, 2)`, which is not, the
values agree and the triangles do not. -/
theorem execute_exact_corrupt_cell :
    (execute
      { memo := ((Memo.empty.getOrInsert ⟨4, 2⟩ (7 : Word 8)).2.getOrInsert ⟨3, 2⟩ 4).2
        parallelizeBy := .row
        turns := fun _ => [3, 2, 2, 0] } 4 2 true).1 = .error (.disagreement 3 2 "4" "3") := by
  generalize hmemo : ((Memo.empty.getOrInsert ⟨4, 2⟩ (7 : Word 8)).2.getOrInsert ⟨3, 2⟩ 4).2 = memo
  have hfind : ∀ q, memo.find? q =
      if q = ⟨3, 2⟩ then some 4 else if q = ⟨4, 2⟩ then some 7 else none := by
    intro q
    simp [← hmemo, Memo.find?_getOrInsert]
  -- an entry is the answer, and on the borders the answer is 1
  have hit : ∀ q v, memo.find? q = some v → Admission.ofRequest 8 q.n q.m = .compute q →
      (memo.evaluate q.n q.m).outcome = .ok v := by
    intro q v hv hadmission
    rw [memo.outcome_evaluate, memo.answer_compute hadmission,
      Memo.value?_hit (Admission.of_compute hadmission).2.1 hv]
    rfl
  have border : ∀ r : Pair, r.Valid → r.Before ⟨3, 2⟩ →
      (memo.evaluate r.n r.m).outcome = .ofTriangle 8 r.n r.m := by
    rintro ⟨i, j⟩ hvalid hbefore
    simp only [Pair.Valid, Pair.Before] at hvalid hbefore
    obtain ⟨rfl, rfl⟩ | ⟨rfl, rfl⟩ | ⟨rfl, rfl⟩ | ⟨rfl, rfl⟩ :
        (i = 1 ∧ j = 1) ∨ (i = 2 ∧ j = 1) ∨ (i = 2 ∧ j = 2) ∨ (i = 3 ∧ j = 1) := by omega
    all_goals
      rw [memo.outcome_evaluate]
      exact Admission.settled_eq_ofTriangle (by decide) rfl
  have hright := hit ⟨4, 2⟩ 7 (by simp [hfind]) rfl
  have hwrong := hit ⟨3, 2⟩ 4 (by simp [hfind]) rfl
  have hover : ¬ memo.Overflows ⟨4, 2⟩ := by
    rintro (h | h)
    · rw [hright] at h
      cases h
    · revert h
      decide
  have hdiffers : ¬ memo.Differs ⟨4, 2⟩ := by
    rintro ⟨v, hv, hne⟩
    rw [hright] at hv
    cases hv
    exact hne rfl
  have hfirst : memo.FirstCorrupt ⟨4, 2⟩ ⟨3, 2⟩ := by
    refine ⟨by decide, ?_, fun r hr => border r hr.1⟩
    rw [hwrong]
    decide
  have hexecute := ((execute_exact (by decide) ⟨memo, .row, fun _ => [3, 2, 2, 0]⟩ 4 2 true).2.2
    ⟨4, 2⟩ rfl).2.2.1 hover hdiffers ⟨3, 2⟩
  rw [hexecute.2 ⟨rfl, hfirst⟩, Memo.disagreement, hwrong]
  rfl

end Checker

end StirlingTriangle
