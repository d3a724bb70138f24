import StirlingTriangle.Outcome
import StirlingTriangle.Window.Buffer

/-!
# Window.Sweep

Evaluation with a sliding window of `pair.width` slots. The window is filled
row by row up to row `pair.m`, each row only as far as `pair` needs it; the
entry of `pair` itself is then one more step on what the window holds.

* `entry` computes one entry from the window: 1 on the borders, else the
  checked step of its predecessors, which the window has to hold;
* `fillRow` and `sweepRows` are the two loops, `sweep` the whole computation,
  and `evaluate` answers a request.

A computation ends early with a `Fault`. An overflow is an answer; the other
two would mean that the window lost an entry or is too narrow.
-/

namespace StirlingTriangle

namespace Window

/-- Why a sweep ends early. -/
inductive Fault where
  /-- The step of the entry is refused. -/
  | overflow (pair : Pair)
  /-- An entry is needed that the window does not hold. -/
  | missing (pair : Pair)
  /-- A slot past the end of the window is written. -/
  | outside (offset : Nat)
deriving DecidableEq, Repr

variable {b : Nat}

/-! ## Filling the window -/

/-- The entry `(i, j)` as the window holds it. -/
def lookup (window : Window b) (i j : Nat) : Except Fault (Word b) :=
  match window.get? i j with
  | some value => .ok value
  | none => .error (.missing ⟨i, j⟩)

/-- The entry `(i, j)`, from its predecessors in the window. -/
def entry (window : Window b) (i j : Nat) : Except Fault (Word b) :=
  if i = j ∨ j = 1 then .ok 1
  else do
    let left ← window.lookup (i - 1) (j - 1)
    let above ← window.lookup (i - 1) j
    match left.step j above with
    | some value => .ok value
    | none => .error (.overflow ⟨i, j⟩)

/-- Computes the entry `(j + offset, j)` and puts it into its slot. -/
def fill (window : Window b) (j offset : Nat) : Except Fault (Window b) := do
  let value ← window.entry (j + offset) j
  match window.put? offset j value with
  | some window => .ok window
  | none => .error (.outside offset)

/-- Fills the first `columns` slots with row `j`. -/
def fillRow (window : Window b) (j : Nat) : (columns : Nat) → Except Fault (Window b)
  | 0 => .ok window
  | columns + 1 => do
    let window ← window.fillRow j columns
    window.fill j columns

/-- Fills `rows` rows from row `j` on, as far as row `n` of the triangle needs them. The
events so far are in `journal`, the latest first. -/
def sweepRows (n width : Nat) (window : Window b) (j : Nat) (journal : List (Event b)) :
    (rows : Nat) → Except Fault (Window b) × List (Event b)
  | 0 => (.ok window, journal)
  | rows + 1 =>
    let columns := min (n - j) width
    match window.fillRow j columns with
    | .error fault => (.error fault, journal)
    | .ok window => sweepRows n width window (j + 1) (.rowFilled j columns :: journal) rows

/-! ## The whole computation -/

/-- The entry of `pair`, and the events in order. -/
def sweep (b : Nat) (pair : Pair) : Except Fault (Word b) × List (Event b) :=
  let (filled, journal) :=
    sweepRows pair.n pair.width (blank b pair.width) 1 [] pair.m
  (filled >>= fun window => window.entry pair.n pair.m, journal.reverse)

/-- The outcome of a request for `pair` whose sweep ended with `result`. -/
def outcome (pair : Pair) : Except Fault (Word b) → Outcome b
  | .ok value => .ok value
  | .error (.overflow _) => .error (.overflow pair b)
  | .error (.missing lost) => .error (.brokenWindow lost)
  | .error (.outside _) => .error (.brokenWindow pair)

/-- What a windowed evaluation answers and reports. -/
structure Evaluation (b : Nat) where
  outcome : Outcome b
  journal : List (Event b)

def evaluate (b : Nat) (n m : Int) : Evaluation b :=
  match Admission.ofRequest b n m with
  | .settled outcome => { outcome, journal := [] }
  | .compute pair =>
    let (result, rows) := sweep b pair
    { outcome := outcome pair result
      journal := .sweepStarted pair pair.width :: rows }

end Window

end StirlingTriangle
