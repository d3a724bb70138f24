import StirlingTriangle.Pair
import StirlingTriangle.Word

/-!
# Outcome

What comes of an evaluation: a value or the reason why it has none, and the
events on the way there.

* an invalid argument carries the integers as given and the first condition
  that they fail;
* an overflow names the pair that was asked for, not the entry on the way to
  it whose step was refused, and the number of bits;
* a broken window names the entry that a sliding window should have held.

`Admission` is what becomes of a request before anything is computed. Both
ways of evaluating share it. A request outside the triangle is refused, one on
a border is answered 1, and one whose width exceeds the number of bits is an
overflow, since an entry of width `w` off the borders is at least `2 ^ w - 1`.
What is left is a pair that has to be computed.

That an evaluation has no value is one of the reasons why a run of the program
ends without a result (`Failure`).
-/

namespace StirlingTriangle

/-- Why an evaluation has no value. -/
inductive EvalError where
  | invalidArgument (n m : Int) (constraint : Constraint)
  | overflow (pair : Pair) (bits : Nat)
  | brokenWindow (pair : Pair)
deriving DecidableEq, Repr

def EvalError.message : EvalError → String
  | invalidArgument n m constraint =>
    s!"Invalid argument for A({n}, {m}): " ++ constraint.text
  | overflow ⟨n, m⟩ bits => s!"A({n}, {m}) overflows a {bits}-bit integer"
  | brokenWindow ⟨n, m⟩ => s!"the window does not hold A({n}, {m})"

/-- The value of an entry in `b` bits, or why it has none. -/
abbrev Outcome (b : Nat) := Except EvalError (Word b)

instance decidableEqExcept {ε α : Type} [DecidableEq ε] [DecidableEq α] :
    DecidableEq (Except ε α)
  | .ok x, .ok y => decidable_of_iff (x = y) ⟨congrArg _, Except.ok.inj⟩
  | .error x, .error y => decidable_of_iff (x = y) ⟨congrArg _, Except.error.inj⟩
  | .ok _, .error _ => isFalse nofun
  | .error _, .ok _ => isFalse nofun

/-- The text of an outcome as an entry of a printed triangle. -/
def EvalError.cellText : EvalError → String
  | overflow .. => "overflow"
  | e => e.message

def Outcome.text {b : Nat} : Outcome b → String
  | .ok value => value.text
  | .error e => e.cellText

/-! ## Before anything is computed -/

inductive Admission (b : Nat) where
  | settled (outcome : Outcome b)
  | compute (pair : Pair)
deriving DecidableEq

def Admission.ofRequest (b : Nat) (n m : Int) : Admission b :=
  match Pair.ofInts? n m with
  | .error constraint => .settled (.error (.invalidArgument n m constraint))
  | .ok pair =>
    if pair.isBase then .settled (.ok 1)
    else if b < pair.width then .settled (.error (.overflow pair b))
    else .compute pair

/-! ## While it runs -/

/-- What an evaluation reports. A journal is the list of these in the order in which they
happened. -/
inductive Event (b : Nat) where
  /-- A memoized evaluation of `pair` begins on a store of `cached` entries. -/
  | descentStarted (pair : Pair) (cached : Nat)
  /-- The value of `pair` has been computed and is about to be stored. -/
  | storing (pair : Pair) (value : Word b)
  /-- A windowed evaluation of `pair` begins with a window of `width` slots. -/
  | sweepStarted (pair : Pair) (width : Nat)
  /-- The first `columns` slots of the window hold row `row`. -/
  | rowFilled (row columns : Nat)
deriving DecidableEq, Repr

/-! ## A run of the program -/

/-- Why a run of the program ends without a result. -/
inductive Failure where
  /-- The configuration is not usable. -/
  | configuration (reason : String)
  | evaluation (error : EvalError)
  | reading (reason : String)
  /-- No threads can be started. -/
  | threads (reason : String)
  /-- For the pair `(n, m)` the two texts differ. -/
  | disagreement (n m : Int) (recursive iterative : String)
deriving DecidableEq, Repr

def Failure.message : Failure → String
  | configuration reason => "Configuration error: " ++ reason
  | evaluation error => error.message
  | reading reason => "IO error: " ++ reason
  | threads reason => "Thread pool creation failed: " ++ reason
  | disagreement n m recursive iterative =>
    s!"Engines disagree on A({n}, {m}): recursive gave {recursive}, iterative gave {iterative}"

end StirlingTriangle
