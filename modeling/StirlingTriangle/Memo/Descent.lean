import StirlingTriangle.Outcome
import StirlingTriangle.Memo.Store

/-!
# Memo.Descent

One memoized computation, as a machine that is suspended between any two
operations on the memo. The entry of a base pair is 1, whatever the memo
holds for it. The entry of any other pair is the memo's if it has one;
otherwise its two predecessors are resolved, the shifted one first, and the
checked step of their values is stored. What the memo then holds for the pair
is its entry, which need not be the value just computed when somebody else
stored first. The first refused step ends the whole descent.

* `Descent.step` performs one transition, with at most one operation on the
  memo; `step_border` to `step_stored` give the transitions one by one;
* `Descent.run` repeats it until the descent has finished, and keeps the
  journal; it is a loop, so a descent may be as deep as memory allows;
* `cost_step_lt` bounds it: each transition lowers `Descent.cost`, whatever
  the memo holds.
-/

namespace StirlingTriangle

/-- What is still to be done for `pair` once the value that is awaited is known. -/
inductive Descent.Frame (b : Nat) where
  /-- The shifted predecessor is awaited. -/
  | shifted (pair : Pair)
  /-- The predecessor above is awaited; the shifted one has the value `left`. -/
  | column (pair : Pair) (left : Word b)
deriving DecidableEq, Repr

inductive Descent (b : Nat) where
  /-- The entry of `pair` is wanted. -/
  | resolve (pair : Pair) (frames : List (Descent.Frame b))
  /-- The awaited value has been found. -/
  | resume (value : Word b) (frames : List (Descent.Frame b))
  /-- The entry of the pair that was asked for, or the pair whose step was refused. -/
  | finished (result : Except Pair (Word b))

namespace Descent

variable {b : Nat}

/-! ## One transition -/

/-- The next state, the memo after it, and the value that is being stored, if any. -/
def step : Descent b → Memo b → Descent b × Memo b × Option (Event b)
  | resolve pair frames, memo =>
    if pair.isBase then (resume 1 frames, memo, none)
    else match memo.find? pair with
      | some value => (resume value frames, memo, none)
      | none => (resolve pair.shifted (.shifted pair :: frames), memo, none)
  | resume value [], memo => (finished (.ok value), memo, none)
  | resume left (.shifted pair :: frames), memo =>
    (resolve pair.column (.column pair left :: frames), memo, none)
  | resume above (.column pair left :: frames), memo =>
    match left.step pair.m above with
    | none => (finished (.error pair), memo, none)
    | some value =>
      let (stored, memo) := memo.getOrInsert pair value
      (resume stored frames, memo, some (.storing pair value))
  | finished result, memo => (finished result, memo, none)

/-! Each transition by itself. -/

section Transitions

variable {p : Pair} {x y v : Word b} {memo : Memo b}

theorem step_border (hbase : p.isBase = true) (memo : Memo b) (frames : List (Frame b)) :
    (resolve p frames).step memo = (resume 1 frames, memo, none) := by
  rw [step, if_pos hbase]

theorem step_hit (hbase : p.isBase = false) (hfind : memo.find? p = some v)
    (frames : List (Frame b)) :
    (resolve p frames).step memo = (resume v frames, memo, none) := by
  rw [step, if_neg (Bool.eq_false_iff.1 hbase), hfind]

theorem step_miss (hbase : p.isBase = false) (hmiss : memo.find? p = none)
    (frames : List (Frame b)) :
    (resolve p frames).step memo = (resolve p.shifted (.shifted p :: frames), memo, none) := by
  rw [step, if_neg (Bool.eq_false_iff.1 hbase), hmiss]

theorem step_refused (hstep : x.step p.m y = none) (memo : Memo b) (frames : List (Frame b)) :
    (resume y (.column p x :: frames)).step memo = (finished (.error p), memo, none) := by
  rw [step, hstep]

theorem step_stored (hstep : x.step p.m y = some v) (memo : Memo b) (frames : List (Frame b)) :
    (resume y (.column p x :: frames)).step memo =
      (resume (memo.getOrInsert p v).1 frames, (memo.getOrInsert p v).2,
        some (.storing p v)) := by
  rw [step, hstep]

end Transitions

/-! ## A bound on the transitions that are left -/

/-- Bounds the transitions that resolve a pair of row `n`: each of its predecessors, and two
of its own. -/
def rowCost : Nat → Nat
  | 0 => 2
  | n + 1 => 2 * rowCost n + 2

def Frame.cost : Frame b → Nat
  | .shifted pair => rowCost (pair.n - 1) + 1
  | .column .. => 1

def framesCost : List (Frame b) → Nat
  | [] => 0
  | frame :: frames => frame.cost + framesCost frames

def cost : Descent b → Nat
  | resolve pair frames => rowCost pair.n + framesCost frames
  | resume _ frames => 1 + framesCost frames
  | finished _ => 0

theorem two_le_rowCost (n : Nat) : 2 ≤ rowCost n := by
  cases n with
  | zero => exact Nat.le_refl 2
  | succ n => rw [rowCost]; omega

theorem rowCost_pred {n : Nat} (h : 0 < n) : rowCost n = 2 * rowCost (n - 1) + 2 := by
  cases n with
  | zero => omega
  | succ n => rfl

/-- Only a finished descent costs nothing. -/
theorem exists_finished_of_cost_eq_zero {d : Descent b} (h : d.cost = 0) :
    ∃ result, d = finished result := by
  cases d with
  | resolve q frames =>
      have := two_le_rowCost q.n
      rw [cost] at h
      omega
  | resume v frames =>
      rw [cost] at h
      omega
  | finished result => exact ⟨result, rfl⟩

/-- Each transition of an unfinished descent lowers its cost, whatever the memo holds. -/
theorem cost_step_lt {d : Descent b} (h : 0 < d.cost) (memo : Memo b) :
    (d.step memo).1.cost < d.cost := by
  match d with
  | resolve pair frames =>
    have hrow := two_le_rowCost pair.n
    rw [step]
    split
    · simp only [cost]
      omega
    · rename_i hbase
      split
      · simp only [cost]
        omega
      · obtain ⟨_, hn⟩ := Pair.isBase_eq_false_iff.1 (Bool.eq_false_iff.2 hbase)
        have hpred := rowCost_pred (n := pair.n) (by omega)
        simp only [cost, Pair.shifted, framesCost, Frame.cost]
        omega
  | resume value [] => simp [step, cost, framesCost]
  | resume left (.shifted pair :: frames) =>
    simp only [step, cost, Pair.column, framesCost, Frame.cost]
    omega
  | resume above (.column pair left :: frames) =>
    rw [step]
    split
    · simp only [cost]
      omega
    · simp only [cost, framesCost, Frame.cost]
      omega
  | finished result => exact absurd h (by simp [cost])

/-! ## Running to the end -/

/-- What a descent leaves behind. -/
structure Result (b : Nat) where
  value : Except Pair (Word b)
  memo : Memo b
  journal : List (Event b)

/-- Repeats `step` until the descent has finished; `journal` holds the events so far, the
latest first. -/
def run (d : Descent b) (memo : Memo b) (journal : List (Event b)) : Result b :=
  match d with
  | finished value => { value, memo, journal := journal.reverse }
  | resolve pair frames =>
    let next := (resolve pair frames).step memo
    run next.1 next.2.1 (next.2.2.toList ++ journal)
  | resume value frames =>
    let next := (resume value frames).step memo
    run next.1 next.2.1 (next.2.2.toList ++ journal)
termination_by d.cost
decreasing_by
  · have := two_le_rowCost pair.n
    exact cost_step_lt (by simp only [cost]; omega) memo
  · exact cost_step_lt (by simp only [cost]; omega) memo

end Descent

end StirlingTriangle
