import StirlingTriangle.Memo.Pool
import StirlingTriangle.Window.Sweep

/-!
# Triangle

The part of the triangle that lies above and to the left of a pair `(n, m)`:
row `i` from 1 to `n`, each with its columns `j` from 1 to `min i m`. An entry
is an outcome, so that entries which do not fit are kept as overflows.

* `Pair.triangle` lists the pairs, row by row;
* `Triangle.cells` gives every entry its pair back, in row-major order;
* `Triangle.iterative` evaluates each pair with a window;
* `Triangle.recursive` evaluates them as jobs that share a memo. How the
  pairs are divided into jobs is up to `ParallelizeBy`, and the answers are
  put back into rows of the lengths that they had.
-/

namespace StirlingTriangle

variable {b : Nat}

/-- The pairs `(i, j)` with `1 ≤ i ≤ n` and `1 ≤ j ≤ min i m`, row by row. -/
def Pair.triangle (p : Pair) : List (List Pair) :=
  (List.range' 1 p.n).map fun i => (List.range' 1 (min i p.m)).map fun j => ⟨i, j⟩

structure Triangle (b : Nat) where
  rows : List (List (Outcome b))
deriving DecidableEq

namespace Triangle

/-- The entries in row-major order, each with its pair. -/
def cells (t : Triangle b) : List (Pair × Outcome b) :=
  (t.rows.zipIdx 1).flatMap fun (row, i) =>
    (row.zipIdx 1).map fun (outcome, j) => (⟨i, j⟩, outcome)

def cellCount (t : Triangle b) : Nat := t.rows.flatten.length

/-- The pairs whose entries have no value, in row-major order. -/
def overflows (t : Triangle b) : List Pair :=
  t.cells.filterMap fun
    | (pair, .error _) => some pair
    | (_, .ok _) => none

/-- The first pair for which two triangles differ, with both entries. -/
def firstDifference? (left right : Triangle b) : Option (Pair × Outcome b × Outcome b) :=
  (left.cells.zip right.cells).findSome? fun ((pair, x), (_, y)) =>
    if x = y then none else some (pair, x, y)

def iterative (b : Nat) (p : Pair) : Triangle b :=
  ⟨p.triangle.map fun row => row.map fun q => (Window.evaluate b q.n q.m).outcome⟩

end Triangle

/-! ## Dividing the work -/

/-- What is evaluated as one job: everything, a row, or a single entry. -/
inductive ParallelizeBy where
  | sequential
  | row
  | cell
deriving DecidableEq, Repr

def ParallelizeBy.jobs {α : Type} (rows : List (List α)) : ParallelizeBy → List (List α)
  | sequential => [rows.flatten]
  | row => rows
  | cell => rows.flatten.map fun x => [x]

/-- Cuts a list into rows of the given lengths. -/
def regroup {α : Type} : (lengths : List Nat) → List α → List (List α)
  | [], _ => []
  | length :: lengths, xs =>
    let (row, rest) := xs.splitAt length
    row :: regroup lengths rest

theorem regroup_flatten {α : Type} (rows : List (List α)) :
    regroup (rows.map List.length) rows.flatten = rows := by
  induction rows with
  | nil => rfl
  | cons row rows ih => simp [regroup, List.splitAt_eq, ih]

/-- However the work is divided, the entries stay in row-major order. -/
theorem ParallelizeBy.flatten_jobs {α : Type} (level : ParallelizeBy) (rows : List (List α)) :
    (level.jobs rows).flatten = rows.flatten := by
  cases level with
  | sequential => simp [jobs]
  | row => rfl
  | cell =>
    show (rows.flatten.map fun x => [x]).flatten = rows.flatten
    generalize rows.flatten = xs
    induction xs with
    | nil => rfl
    | cons x xs ih => simp [ih]

namespace Triangle

/-- The triangle of `p` from jobs that share `memo`, and the memo that they leave. The
number of jobs determines their turns. -/
def recursive (memo : Memo b) (parallelizeBy : ParallelizeBy) (turns : Nat → List Nat) (p : Pair) :
    Triangle b × Memo b :=
  let pairs := p.triangle
  let jobs := parallelizeBy.jobs pairs
  let requests := jobs.map fun job => job.map fun q => .evaluate q.n q.m
  let (answers, memo) := Pool.run memo requests (turns jobs.length)
  (⟨regroup (pairs.map List.length) answers.flatten⟩, memo)

end Triangle

end StirlingTriangle
