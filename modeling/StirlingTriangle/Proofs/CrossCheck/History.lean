import StirlingTriangle.Proofs.Triangle.Count
import StirlingTriangle.Proofs.CrossCheck

/-!
# CrossCheck.History

A checker that starts with an empty memo and gets one request after the other.
Requests fail on the way, divide their work and take their turns as they like.

* `checker.after history` is the checker after these requests, and
  `checker.evaluations history` lists what they evaluate with the memo. The one
  is a memo completed for the other (`Checker.completed_after`);
* on a truthful memo a request ends as the triangle over the natural numbers
  has it (`Checker.result_eq_of_truthful`). The two ways of evaluating never
  disagree, and whether there is a report depends on the request alone;
* `Checker.perform_after` adds the count of the entries of the memo: those that
  each of the evaluations stores on its own, and after a first request all the
  pairs off the borders that fit, or the cone of the pair.
-/

namespace StirlingTriangle

variable {b : Nat}

/-! ## A request on a truthful memo -/

namespace Memo.Truthful

variable {memo : Memo b}

theorem answer_eq (h : memo.Truthful) (hb : 0 < b) (n m : Int) :
    memo.answer n m = .ofTriangle b n m := by
  rw [← memo.outcome_evaluate, h.outcome_evaluate, Window.evaluate_eq_ofTriangle hb]

/-- Only an evaluation fails, never the comparison. -/
theorem failure?_eq (h : memo.Truthful) (hb : 0 < b) (n m : Int) (table : Bool) :
    memo.failure? n m table =
      match Outcome.ofTriangle b n m with
      | .error e => some (.evaluation e)
      | .ok _ => none := by
  have hcorrupt : ∀ p, memo.corrupt? p = none := by
    intro p
    simp [corrupt?, h.answer_eq hb]
  rw [failure?, h.answer_eq hb]
  cases Outcome.ofTriangle b n m with
  | error e => rfl
  | ok v => simp [hcorrupt]

end Memo.Truthful

/-- Without its triangle a request is a single evaluation. -/
theorem Memo.evaluations_false (memo : Memo b) (n m : Int) :
    memo.evaluations n m false = [(n, m)] := by
  rw [evaluations]
  cases (memo.evaluate n m).outcome <;> rfl

/-- The fitting pairs are those of the cells off the borders that have a value. -/
theorem Pair.mem_fitting_iff_cell {p q : Pair} :
    q ∈ p.fitting b ↔ q.isBase = false ∧ ∃ v, (q, .ok v) ∈ (Triangle.exact b p).cells := by
  have hcells := (Triangle.faithful_exact (b := b) p).mem_cells q
  rw [mem_fitting]
  constructor
  · rintro ⟨⟨hn, hm⟩, hbase, hfits⟩
    have hvalid := Pair.valid_of_isBase_eq_false hbase
    have hin : 1 ≤ q.m ∧ q.m ≤ q.n := hvalid
    refine ⟨hbase, BitVec.ofNat b (stirling q.n q.m), (hcells _).2 ⟨by omega, ?_⟩⟩
    rw [Outcome.ofTriangle_of_ok hvalid.ofInts?_eq, Word.ofNat?, if_pos hfits, Outcome.ofValue?]
  · rintro ⟨hbase, v, hcell⟩
    obtain ⟨hq, hv⟩ := (hcells _).1 hcell
    have hvalue := (Outcome.ofTriangle_eq_ok_iff.1 hv.symm).2.2
    refine ⟨by omega, hbase, ?_⟩
    rw [Int.toNat_natCast, Int.toNat_natCast] at hvalue
    rw [← hvalue]
    exact v.toNat_lt_limit

namespace Checker

variable {n m : Int} {p : Pair}

/-- On a truthful memo a request ends as the triangle has it. -/
theorem result_eq_of_truthful (checker : Checker b) (h : checker.memo.Truthful) (hb : 0 < b)
    (n m : Int) (table : Bool) (time : String) :
    checker.result n m table time =
      ((Outcome.ofTriangle b n m).mapError .evaluation).map fun _ =>
        .exact b n m table time (checker.recursiveRun n m table).2.memo.size := by
  rw [result, h.failure?_eq hb]
  cases Outcome.ofTriangle b n m <;> rfl

/-! ## A request on an empty memo -/

/-- A first request with a value stores what fits of its triangle, or its cone. -/
theorem keys_recursiveRun (checker : Checker b) (hb : 0 < b) (hempty : checker.memo = .empty)
    (hp : Pair.ofInts? n m = .ok p) (hfits : stirling p.n p.m < Word.limit b) (table : Bool) :
    (checker.recursiveRun n m table).2.memo.keys = if table then p.fitting b else p.cone := by
  have hcompleted := checker.completed_recursiveRun n m table
  obtain ⟨v, hv⟩ : ∃ v, (Memo.empty.evaluate n m).outcome = (.ok v : Outcome b) := by
    rw [Memo.outcome_evaluate, Memo.truthful_empty.answer_eq hb, Outcome.ofTriangle_of_ok hp,
      Word.ofNat?, if_pos hfits]
    exact ⟨_, rfl⟩
  rw [hempty, Memo.evaluations, hv] at hcompleted
  rw [hcompleted.keys_eq]
  obtain ⟨-, -, hpair⟩ := Pair.ofInts?_eq_ok hp
  cases table with
  | true =>
      simp only [if_true, ← hpair]
      exact Memo.biUnion_stored_triangle hb hp
  | false =>
      simp only [Bool.false_eq_true, if_false, List.toFinset_cons, List.toFinset_nil,
        Finset.insert_empty, Finset.singleton_biUnion]
      exact Memo.stored_eq_cone hb hp hfits

/-! ## One request after the other -/

/-- A request for a report, and the turns that its jobs get. -/
structure Task where
  n : Int
  m : Int
  table : Bool
  turns : Nat → List Nat

def perform (checker : Checker b) (task : Task) : Except Failure (Report b) × Checker b :=
  { checker with turns := task.turns }.execute task.n task.m task.table

/-- The checker after some requests. -/
def after (checker : Checker b) : List Task → Checker b
  | [] => checker
  | task :: tasks => (checker.perform task).2.after tasks

/-- The memoized evaluations of some requests, each on the memo that the ones before it leave. -/
def evaluations (checker : Checker b) : List Task → List (Int × Int)
  | [] => []
  | task :: tasks =>
    checker.memo.evaluations task.n task.m task.table ++ (checker.perform task).2.evaluations tasks

theorem after_append (checker : Checker b) (history : List Task) (task : Task) :
    checker.after (history ++ [task]) = ((checker.after history).perform task).2 := by
  induction history generalizing checker with
  | nil => rfl
  | cons first history ih => exact ih (checker.perform first).2

/-- One request leaves behind what its evaluations add. -/
theorem completed_perform (hb : 0 < b) (checker : Checker b) (task : Task) :
    Memo.Completed checker.memo
      (Computes b (checker.memo.evaluations task.n task.m task.table))
      (checker.perform task).2.memo := by
  rw [perform, snd_execute hb]
  exact completed_recursiveRun { checker with turns := task.turns } task.n task.m task.table

/-- Several requests leave behind what all their evaluations add. -/
theorem completed_after (hb : 0 < b) (checker : Checker b) (history : List Task) :
    Memo.Completed checker.memo (Computes b (checker.evaluations history))
      (checker.after history).memo := by
  induction history generalizing checker with
  | nil =>
      refine ⟨Memo.Derived.refl _ _, ?_⟩
      rintro root ⟨r, hr, -⟩
      exact absurd hr List.not_mem_nil
  | cons task history ih => exact (checker.completed_perform hb task).append (ih _)

theorem truthful_after (checker : Checker b) (hb : 0 < b) (hempty : checker.memo = .empty)
    (history : List Task) :
    (checker.after history).memo.Truthful := by
  refine (checker.completed_after hb history).truthful hb ?_
  rw [hempty]
  exact Memo.truthful_empty

/-- After some requests the memo has what each of their evaluations stores on its own. -/
theorem keys_after (checker : Checker b) (hb : 0 < b) (hempty : checker.memo = .empty)
    (history : List Task) :
    (checker.after history).memo.keys =
      (checker.evaluations history).toFinset.biUnion fun r => Memo.stored b r.1 r.2 := by
  have hcompleted := checker.completed_after hb history
  rw [hempty] at hcompleted
  exact hcompleted.keys_eq

theorem keys_perform (checker : Checker b) (hb : 0 < b) (hempty : checker.memo = .empty)
    {task : Task} (hp : Pair.ofInts? task.n task.m = .ok p)
    (hfits : stirling p.n p.m < Word.limit b) :
    (checker.perform task).2.memo.keys = if task.table then p.fitting b else p.cone := by
  rw [perform, snd_execute hb]
  exact keys_recursiveRun { checker with turns := task.turns } hb hempty hp hfits task.table

/-- How a request ends after others: as the triangle has it, with the entries that are there. -/
theorem fst_perform_after (checker : Checker b) (hb : 0 < b) (hempty : checker.memo = .empty)
    (history : List Task) (task : Task) :
    ((checker.after history).perform task).1 =
      ((Outcome.ofTriangle b task.n task.m).mapError .evaluation).map fun _ =>
        .exact b task.n task.m task.table "" (checker.after (history ++ [task])).memo.size := by
  rw [after_append, perform, fst_execute hb, snd_execute hb]
  exact result_eq_of_truthful { checker.after history with turns := task.turns }
    (checker.truthful_after hb hempty history) hb task.n task.m task.table ""

theorem perform_after_eq_ok_iff (checker : Checker b) (hb : 0 < b)
    (hempty : checker.memo = .empty) (history : List Task) {task : Task} {report : Report b} :
    ((checker.after history).perform task).1 = .ok report ↔
      (∃ v, Outcome.ofTriangle b task.n task.m = .ok v) ∧
        report = .exact b task.n task.m task.table ""
          (checker.after (history ++ [task])).memo.size := by
  rw [checker.fst_perform_after hb hempty]
  cases Outcome.ofTriangle b task.n task.m <;> simp [Except.mapError, Except.map, eq_comm]

/-- The two ways of evaluating never disagree, and there is a report exactly for a pair of the
triangle whose entry fits, whatever has been requested before. The report counts what the
evaluations so far store, each on its own; after a first request these are the cells off the
borders that have a value, or the cone of the pair. -/
theorem perform_after (checker : Checker b) (hb : 0 < b) (hempty : checker.memo = .empty)
    (history : List Task) (task : Task) :
    (∀ i j x y, ((checker.after history).perform task).1 ≠ .error (.disagreement i j x y)) ∧
    ((∃ report, ((checker.after history).perform task).1 = .ok report) ↔
      1 ≤ task.m ∧ task.m ≤ task.n ∧ stirling task.n.toNat task.m.toNat < Word.limit b) ∧
    (∀ report, ((checker.after history).perform task).1 = .ok report →
      report.cachedPairs = ((checker.evaluations (history ++ [task])).toFinset.biUnion
        fun r => Memo.stored b r.1 r.2).card) ∧
    (∀ report, (checker.perform task).1 = .ok report →
      (task.table = true → ∃ t, report.recursive.triangle = some t ∧
        (∀ q, ((checker.perform task).2.memo.find? q).isSome ↔
          q.isBase = false ∧ ∃ v, (q, .ok v) ∈ t.cells) ∧
        (report.cachedPairs : Int) =
          t.cellCount - t.overflows.length - (task.n + task.m - 1)) ∧
      (task.table = false →
        (report.cachedPairs : Int) = (task.m - 1) * (task.n - task.m))) := by
  refine ⟨?_, ?_, ?_, ?_⟩
  · intro i j x y
    rw [checker.fst_perform_after hb hempty]
    cases Outcome.ofTriangle b task.n task.m <;> simp [Except.mapError, Except.map]
  · simp only [checker.perform_after_eq_ok_iff hb hempty, exists_and_left, exists_eq, and_true]
    exact Outcome.exists_ofTriangle_eq_ok_iff
  · intro report hreport
    obtain ⟨-, rfl⟩ := (checker.perform_after_eq_ok_iff hb hempty history).1 hreport
    rw [Report.exact, ← checker.keys_after hb hempty, Memo.card_keys]
  · intro report hreport
    obtain ⟨hvalue, rfl⟩ := (checker.perform_after_eq_ok_iff hb hempty []).1 hreport
    obtain ⟨hm, hn, hfits⟩ := Outcome.exists_ofTriangle_eq_ok_iff.1 hvalue
    have hp := Pair.ofInts?_of_le hm hn
    have hkeys := checker.keys_perform hb hempty hp hfits
    constructor
    · intro htable
      rw [htable, if_pos rfl] at hkeys
      refine ⟨.exact b ⟨task.n.toNat, task.m.toNat⟩, ?_, ?_, ?_⟩
      · rw [Report.exact, Run.exact, htable, if_pos rfl]
      · intro q
        rw [← Memo.mem_keys, hkeys, Pair.mem_fitting_iff_cell]
      · have hcount := Triangle.card_fitting_add hb (Pair.valid_ofInts? hp)
        rw [← hkeys, Memo.card_keys] at hcount
        show ((checker.perform task).2.memo.size : Int) = _
        simp only at hcount
        omega
    · intro htable
      rw [htable, if_neg Bool.false_ne_true] at hkeys
      show ((checker.perform task).2.memo.size : Int) = _
      rw [← Memo.card_keys, hkeys, Pair.card_cone, Int.natCast_mul]
      congr 1 <;> simp only <;> omega

/-- A request outside the triangle and one that is too wide store nothing. The cones of `(5, 3)`
and of `(6, 5)` have four pairs each, and share two. -/
theorem perform_after_failures :
    ∃ report, (((⟨.empty, .cell, fun _ => []⟩ : Checker 5).after
      [⟨0, 3, true, fun _ => []⟩, ⟨9, 4, true, fun _ => [2]⟩, ⟨5, 3, false, fun _ => []⟩]).perform
        ⟨6, 5, false, fun _ => []⟩).1 = .ok report ∧ report.cachedPairs = 6 := by
  have hperform := perform_after (⟨.empty, .cell, fun _ => []⟩ : Checker 5) (by decide) rfl
    [⟨0, 3, true, fun _ => []⟩, ⟨9, 4, true, fun _ => [2]⟩, ⟨5, 3, false, fun _ => []⟩]
    ⟨6, 5, false, fun _ => []⟩
  obtain ⟨report, hreport⟩ := hperform.2.1.2 (by decide)
  refine ⟨report, hreport, ?_⟩
  rw [hperform.2.2.1 report hreport]
  have hevaluations : (⟨.empty, .cell, fun _ => []⟩ : Checker 5).evaluations
      [⟨0, 3, true, fun _ => []⟩, ⟨9, 4, true, fun _ => [2]⟩, ⟨5, 3, false, fun _ => []⟩,
        ⟨6, 5, false, fun _ => []⟩] = [(0, 3), (9, 4), (5, 3), (6, 5)] := by
    simp only [evaluations, Memo.evaluations_false]
    rfl
  have hinvalid : Memo.stored 5 0 3 = ∅ :=
    @Memo.stored_settled 5 0 3 (.error (.invalidArgument 0 3 .rowBelowOne)) rfl
  have hwide : Memo.stored 5 9 4 = ∅ :=
    @Memo.stored_settled 5 9 4 (.error (.overflow ⟨9, 4⟩ 5)) rfl
  have hfits : Memo.stored 5 5 3 = Pair.cone ⟨5, 3⟩ :=
    Memo.stored_eq_cone (by decide) rfl (by decide)
  have hlast : Memo.stored 5 6 5 = Pair.cone ⟨6, 5⟩ :=
    Memo.stored_eq_cone (by decide) rfl (by decide)
  simp only [List.cons_append, List.nil_append]
  rw [hevaluations]
  simp only [List.toFinset_cons, List.toFinset_nil, Finset.biUnion_insert, Finset.biUnion_empty,
    hinvalid, hwide, hfits, hlast]
  decide

end Checker

end StirlingTriangle
