import StirlingTriangle.Proofs.Memo.Enumeration
import StirlingTriangle.Proofs.Window.Steps

/-!
# CommonOrder

Both ways of evaluating work through the cone of a pair in the same order:
column by column, each column downwards, until an entry does not fit.

* `Memo.Evaluation.InOrder` says what a memoized evaluation on an empty memo
  stores, reports and answers in these terms, and which checked steps it takes;
* `Window.Evaluation.InOrder` says that a windowed evaluation takes the same
  steps, and is refused the same one;
* `evaluations_in_order` is the result, for every request that has to be
  computed.
-/

namespace StirlingTriangle

variable {b : Nat} {p q : Pair} {todo : List Pair}

/-! ## What is said of an evaluation -/

/-- The evaluation of `p` has stored the cone of `p` in order, up to the first pair whose entry
does not fit. -/
structure Memo.Evaluation.InOrder (evaluation : Memo.Evaluation b) (p : Pair) : Prop where
  /-- It reports these stores, one after the other. -/
  journal : evaluation.journal =
    .descentStarted p 0 :: (Pair.fittingPart b p.coneList).map fun q => .storing q (q.word b)
  /-- The memo then has them, with the entries of the triangle, and nothing else. -/
  entries : ∀ q v, evaluation.memo.find? q = some v ↔
    q ∈ Pair.fittingPart b p.coneList ∧ v.toNat = stirling q.n q.m
  size : evaluation.memo.size = (Pair.fittingPart b p.coneList).length
  /-- There is a value exactly if the cone has been stored as a whole. -/
  answers : (∃ v, evaluation.outcome = .ok v) ↔ Pair.fittingPart b p.coneList = p.coneList
  size_of_ok : (∃ v, evaluation.outcome = .ok v) →
    evaluation.memo.size = (p.m - 1) * (p.n - p.m)
  overflows : Pair.fittingPart b p.coneList ≠ p.coneList →
    evaluation.outcome = .error (.overflow p b)
  /-- The answer comes from a descent on the empty memo. -/
  descent : evaluation.outcome =
    Descent.outcome p ((Descent.resolve p []).run (empty : Memo b) []).value
  /-- Its steps are those of the pairs that are stored, and then the first that does not fit. -/
  steps : (Descent.resolve p []).steps (empty : Memo b) =
    Pair.fittingPart b p.coneList ++ (Pair.firstUnfit? b p.coneList).toList
  refused : ∀ q, ((Descent.resolve p []).run (empty : Memo b) []).value = .error q ↔
    Pair.firstUnfit? b p.coneList = some q

/-- The windowed evaluation of `p` has taken the steps of the cone of `p` in order, up to the
first pair whose entry does not fit. -/
structure Window.Evaluation.InOrder (evaluation : Window.Evaluation b) (p : Pair) : Prop where
  /-- The answer comes from a sweep, and the list of steps is that of this sweep. -/
  answer : evaluation.outcome = Window.outcome p (sweep b p).1
  logged : (loggedSweep b p).result = (sweep b p).1
  steps : (loggedSweep b p).steps =
    Pair.fittingPart b p.coneList ++ (Pair.firstUnfit? b p.coneList).toList
  refused : ∀ q, (sweep b p).1 = .error (.overflow q) ↔
    Pair.firstUnfit? b p.coneList = some q

/-! ## The verdict on a list -/

theorem Pair.verdict_eq_error_iff : p.verdict b todo = .error q ↔ firstUnfit? b todo = some q := by
  rw [verdict]
  cases firstUnfit? b todo <;> simp

theorem Descent.refused_verdict :
    refused (p.verdict b todo) = (Pair.firstUnfit? b todo).toList := by
  rw [Pair.verdict]
  cases Pair.firstUnfit? b todo <;> rfl

theorem Descent.exists_outcome_verdict_iff :
    (∃ v, outcome p (p.verdict b todo) = .ok v) ↔ Pair.fittingPart b todo = todo := by
  rw [Pair.fittingPart_eq_self_iff, Pair.verdict]
  cases Pair.firstUnfit? b todo <;> simp [outcome]

theorem Descent.outcome_verdict_of_ne (h : Pair.fittingPart b todo ≠ todo) :
    outcome p (p.verdict b todo) = .error (.overflow p b) := by
  rw [ne_eq, Pair.fittingPart_eq_self_iff] at h
  obtain ⟨q, hq⟩ := Option.ne_none_iff_exists'.1 h
  rw [Pair.verdict_of_some hq]
  rfl

/-! ## The two evaluations -/

theorem Memo.evaluate_empty_inOrder {n m : Int}
    (hadmission : Admission.ofRequest b n m = .compute p) :
    ((empty : Memo b).evaluate n m).InOrder p := by
  obtain ⟨later, h⟩ :=
    exists_enumerates (Admission.pos_of_compute hadmission) (Admission.of_compute hadmission).2.1
  have hlists := h.lists
  rw [List.nil_append] at hlists
  have hsize := hlists.size ((List.takeWhile_sublist _).nodup p.nodup_coneList)
  have hanswers : (∃ v, Descent.outcome p (p.verdict b p.coneList) = .ok v) ↔ _ :=
    Descent.exists_outcome_verdict_iff
  rw [h.resolves.evaluate_eq hadmission]
  exact
    { journal := by
        rw [List.map_map]
        rfl
      entries := fun q v => hlists.find?_eq_some_iff
      size := hsize
      answers := hanswers
      size_of_ok := fun hok => by rw [hsize, hanswers.1 hok, Pair.length_coneList]
      overflows := Descent.outcome_verdict_of_ne
      descent := by rw [h.resolves.value_run]
      steps := by
        rw [Descent.steps_resolve h.resolves, Descent.stepsAfter_nil, Descent.refused_verdict,
          List.map_map]
        exact congrArg (· ++ _) (List.map_id _)
      refused := fun q => by rw [h.resolves.value_run, Pair.verdict_eq_error_iff] }

theorem Window.evaluate_inOrder {n m : Int}
    (hadmission : Admission.ofRequest b n m = .compute p) :
    (evaluate b n m).InOrder p := by
  have hperforms := performs_sweep (Admission.pos_of_compute hadmission)
    (Admission.of_compute hadmission).2.1
  exact
    { answer := by rw [evaluate, hadmission]
      logged := result_loggedSweep b p
      steps := hperforms.steps
      refused := fun q => by rw [← result_loggedSweep, hperforms.result_eq_overflow_iff] }

/-- Both ways of evaluating take the checked steps of one list in its order, which ends with the
pair itself, and the memo gets an entry for each step that is not refused. -/
theorem evaluations_in_order {n m : Int} (hm : 1 < m) (hn : m < n) (hwidth : n - m + 1 ≤ b) :
    ((Memo.empty : Memo b).evaluate n m).InOrder ⟨n.toNat, m.toNat⟩ ∧
      (Window.evaluate b n m).InOrder ⟨n.toNat, m.toNat⟩ ∧
      (Pair.coneList ⟨n.toNat, m.toNat⟩).getLast? = some ⟨n.toNat, m.toNat⟩ := by
  have hadmission := Admission.ofRequest_eq_compute_iff.2 ⟨⟨hm, hn, hwidth⟩, rfl⟩
  exact ⟨Memo.evaluate_empty_inOrder hadmission, Window.evaluate_inOrder hadmission,
    Pair.getLast?_coneList (Admission.of_compute hadmission).2.1⟩

/-- In bytes `(8, 5)` is given up at `(7, 4)`, when 8 of the 12 pairs of its cone are stored. -/
theorem evaluations_in_order_byte :
    ((Memo.empty : Memo 8).evaluate 8 5).memo.size = 8 ∧
    ((Memo.empty : Memo 8).evaluate 8 5).outcome = .error (.overflow ⟨8, 5⟩ 8) ∧
    (Window.sweep 8 ⟨8, 5⟩).1 = .error (.overflow ⟨7, 4⟩) := by
  obtain ⟨hmemo, hwindow, -⟩ :=
    evaluations_in_order (b := 8) (n := 8) (m := 5) (by decide) (by decide) (by decide)
  exact ⟨hmemo.size, hmemo.overflows (by decide), (hwindow.refused ⟨7, 4⟩).2 (by decide)⟩

end StirlingTriangle
