import StirlingTriangle.Report

/-!
# CrossCheck

A request is evaluated both ways, with the triangles if they are asked for,
and the results are compared. A `Checker` keeps its memo from one request to
the next, also when a request fails.

The order decides which failure is seen: the recursive value, then the
iterative one, then the comparison of the values, then that of the triangles,
where the first pair in row-major order is named.

The time that a run takes comes from a `Stopwatch`; nothing else depends on
it, and `Checker.execute` is the check with a stopwatch that stands still.
-/

namespace StirlingTriangle

variable {b : Nat}

/-- A way to do something and get with its result the text of the time it took. -/
structure Stopwatch (μ : Type → Type) where
  time : {α : Type} → (Unit → α) → μ (α × String)

/-- A stopwatch that shows the same text for everything. -/
def Stopwatch.stopped {μ : Type → Type} [Pure μ] (text : String) : Stopwatch μ where
  time work := pure (work (), text)

/-! ## The comparison -/

/-- Refuses two results that differ: first by their values, then by their triangles. -/
def crossCheck (n m : Int) (recursive iterative : Run b) : Except Failure Unit :=
  if recursive.value ≠ iterative.value then
    .error (.disagreement n m recursive.value.text iterative.value.text)
  else match recursive.triangle, iterative.triangle with
    | some left, some right =>
      match left.firstDifference? right with
      | some (pair, x, y) => .error (.disagreement pair.n pair.m x.text y.text)
      | none => .ok ()
    | _, _ => .ok ()

/-! ## The two runs -/

structure Checker (b : Nat) where
  memo : Memo b := .empty
  parallelizeBy : ParallelizeBy
  /-- The turns of so many jobs. -/
  turns : Nat → List Nat

namespace Checker

/-- The memoized value of a request, and its triangle if `table` is set. -/
def recursiveRun (checker : Checker b) (n m : Int) (table : Bool) :
    Except EvalError (Word b × Option (Triangle b)) × Checker b :=
  let { memo, parallelizeBy, turns } := checker
  let { outcome, memo, .. } := memo.evaluate n m
  match outcome with
  | .error e => (.error e, { memo, parallelizeBy, turns })
  | .ok value =>
    if table then
      let (triangle, memo) := Triangle.recursive memo parallelizeBy turns ⟨n.toNat, m.toNat⟩
      (.ok (value, some triangle), { memo, parallelizeBy, turns })
    else (.ok (value, none), { memo, parallelizeBy, turns })

/-- The windowed value of a request, and its triangle if `table` is set. -/
def iterativeRun (b : Nat) (n m : Int) (table : Bool) :
    Except EvalError (Word b × Option (Triangle b)) :=
  match (Window.evaluate b n m).outcome with
  | .error e => .error e
  | .ok value =>
    .ok (value, if table then some (.iterative b ⟨n.toNat, m.toNat⟩) else none)

/-- Both runs and their comparison. -/
def executeTimed {μ : Type → Type} [Monad μ] (watch : Stopwatch μ) (checker : Checker b)
    (n m : Int) (table : Bool) : μ (Except Failure (Report b) × Checker b) := do
  let ((first, checker), time) ← watch.time fun _ => checker.recursiveRun n m table
  match first with
  | .error e => return (.error (.evaluation e), checker)
  | .ok (value, triangle) =>
    let recursive : Run b := { value, triangle, time }
    let (second, time) ← watch.time fun _ => iterativeRun b n m table
    match second with
    | .error e => return (.error (.evaluation e), checker)
    | .ok (value, triangle) =>
      let iterative : Run b := { value, triangle, time }
      match crossCheck n m recursive iterative with
      | .error failure => return (.error failure, checker)
      | .ok () =>
        return (.ok { n, m, recursive, iterative, cachedPairs := checker.memo.size }, checker)

def execute (checker : Checker b) (n m : Int) (table : Bool) :
    Except Failure (Report b) × Checker b :=
  Id.run (checker.executeTimed (.stopped "") n m table)

end Checker

end StirlingTriangle
