import StirlingTriangle.Memo.Descent

/-!
# Memo.Evaluate

Memoized evaluation of a request: what `Admission` leaves open is resolved by
a descent on the memo. A refused step anywhere in the descent makes the whole
request an overflow; what the descent had stored before stays in the memo.
-/

namespace StirlingTriangle

variable {b : Nat}

/-- The outcome of a request for `pair` whose descent ended with `result`. -/
def Descent.outcome (pair : Pair) : Except Pair (Word b) → Outcome b
  | .ok value => .ok value
  | .error _ => .error (.overflow pair b)

namespace Memo

/-- What a memoized evaluation answers, leaves in the memo and reports. -/
structure Evaluation (b : Nat) where
  outcome : Outcome b
  memo : Memo b
  journal : List (Event b)

def evaluate (memo : Memo b) (n m : Int) : Evaluation b :=
  match Admission.ofRequest b n m with
  | .settled outcome => { outcome, memo, journal := [] }
  | .compute pair =>
    let started := .descentStarted pair memo.size
    let result := (Descent.resolve pair []).run memo [started]
    { outcome := Descent.outcome pair result.value
      memo := result.memo
      journal := result.journal }

/-- The memo's entry for a request, without computing anything. -/
def cached? (memo : Memo b) (n m : Int) : Option (Word b) :=
  match Pair.ofInts? n m with
  | .ok pair => memo.find? pair
  | .error _ => none

end Memo

end StirlingTriangle
