import StirlingTriangle.Memo.Evaluate

/-!
# Memo.Resolve

What a descent computes, as a direct recursion on the row of the pair. The
recursion threads the memo through the two predecessors, the shifted one
first, and collects the values that are stored on the way.

* `run_resolve` says that the machine carries out this recursion and then goes
  on with its frames;
* `evaluate_compute` puts the recursion in the place of the machine in
  `Memo.evaluate`.
-/

namespace StirlingTriangle

variable {b : Nat}

namespace Memo

/-- The entry of `pair`, or the pair whose step was refused; the memo after it; and what was
stored, in order. -/
def resolve (memo : Memo b) (pair : Pair) : Descent.Result b :=
  if pair.isBase then { value := .ok 1, memo, journal := [] }
  else match memo.find? pair with
    | some value => { value := .ok value, memo, journal := [] }
    | none =>
      let left := memo.resolve pair.shifted
      match left.value with
      | .error refused => { value := .error refused, memo := left.memo, journal := left.journal }
      | .ok leftValue =>
        let above := left.memo.resolve pair.column
        let journal := left.journal ++ above.journal
        match above.value with
        | .error refused => { value := .error refused, memo := above.memo, journal }
        | .ok aboveValue =>
          match leftValue.step pair.m aboveValue with
          | none => { value := .error pair, memo := above.memo, journal }
          | some value =>
            let stored := above.memo.getOrInsert pair value
            { value := .ok stored.1, memo := stored.2, journal := journal ++ [.storing pair value] }
termination_by pair.n
decreasing_by
  all_goals
    have := Pair.isBase_eq_false_iff.1 (Bool.eq_false_iff.2 ‹¬_›)
    simp only [Pair.shifted, Pair.column]
    omega

end Memo

namespace Descent

/-- Goes on with the frames after a recursion, unless a step was refused in it. -/
def proceed (result : Result b) (frames : List (Frame b)) (journal : List (Event b)) : Result b :=
  match result.value with
  | .ok value => (resume value frames).run result.memo (result.journal.reverse ++ journal)
  | .error refused =>
    (finished (.error refused)).run result.memo (result.journal.reverse ++ journal)

/-- The machine carries out the recursion and then goes on with its frames. -/
theorem run_resolve (memo : Memo b) (pair : Pair) (frames : List (Frame b))
    (journal : List (Event b)) :
    (resolve pair frames).run memo journal = proceed (memo.resolve pair) frames journal := by
  rw [run, Memo.resolve]
  by_cases hbase : pair.isBase
  · simp [step, hbase, proceed]
  · have hlt := Pair.isBase_eq_false_iff.1 (Bool.eq_false_iff.2 hbase)
    cases hfind : memo.find? pair with
    | some value => simp [step, hbase, hfind, proceed]
    | none =>
      simp only [step, hbase, hfind, Bool.false_eq_true, if_false, Option.toList_none,
        List.nil_append]
      rw [run_resolve memo pair.shifted, proceed]
      cases hleft : (memo.resolve pair.shifted).value with
      | error refused => simp only [proceed]
      | ok leftValue =>
        simp only
        rw [run]
        simp only [step, Option.toList_none, List.nil_append]
        rw [run_resolve (memo.resolve pair.shifted).memo pair.column, proceed]
        cases habove : ((memo.resolve pair.shifted).memo.resolve pair.column).value with
        | error refused => simp [proceed, List.append_assoc]
        | ok aboveValue =>
          simp only
          rw [run]
          cases hstep : leftValue.step pair.m aboveValue with
          | none => simp [step, hstep, proceed, List.append_assoc]
          | some value => simp [step, hstep, proceed, List.append_assoc]
termination_by pair.n
decreasing_by
  · simp only [Pair.shifted]
    omega
  · simp only [Pair.column]
    omega

end Descent

namespace Memo

/-- A request that has to be computed is answered by the recursion, on the memo as it is. -/
theorem evaluate_compute {memo : Memo b} {n m : Int} {pair : Pair}
    (h : Admission.ofRequest b n m = .compute pair) :
    memo.evaluate n m =
      { outcome := Descent.outcome pair (memo.resolve pair).value
        memo := (memo.resolve pair).memo
        journal := .descentStarted pair memo.size :: (memo.resolve pair).journal } := by
  simp only [evaluate, h, Descent.run_resolve, Descent.proceed]
  cases (memo.resolve pair).value <;> simp [Descent.run, Descent.step]

/-- A request that is settled beforehand leaves the memo alone. -/
theorem evaluate_settled {memo : Memo b} {n m : Int} {outcome : Outcome b}
    (h : Admission.ofRequest b n m = .settled outcome) :
    memo.evaluate n m = { outcome, memo, journal := [] } := by
  simp only [evaluate, h]

end Memo

end StirlingTriangle
