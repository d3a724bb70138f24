import StirlingTriangle.Memo.Evaluate
import StirlingTriangle.Window.Sweep

/-!
# Session

A sequence of calls on one memo, each answered with what the calls before it
have left there. Windowed evaluation has no state, so the memo is all that a
session carries.
-/

namespace StirlingTriangle

variable {b : Nat}

inductive Call (b : Nat) where
  | recursive (n m : Int)
  | iterative (n m : Int)
  /-- The memo's entry; an invalid pair has none. -/
  | cached (n m : Int)
  /-- The memo's entry; an invalid pair is refused. -/
  | get (n m : Int)
  | insert (n m : Int) (value : Word b)
  | isEmpty

inductive Reply (b : Nat) where
  | outcome (outcome : Outcome b)
  | found (value : Option (Word b))
  | flag (value : Bool)
deriving DecidableEq

namespace Session

/-- What one call answers, the number of entries after it, and what it reports. -/
structure Entry (b : Nat) where
  reply : Reply b
  size : Nat
  journal : List (Event b)

/-- Answers with what `act` does for the pair `(n, m)`, or refuses an invalid one. -/
def withPair (n m : Int) (memo : Memo b) (act : Pair → Reply b × Memo b) : Reply b × Memo b :=
  match Pair.ofInts? n m with
  | .ok pair => act pair
  | .error constraint => (.outcome (.error (.invalidArgument n m constraint)), memo)

def reply (memo : Memo b) : Call b → Reply b × Memo b × List (Event b)
  | .recursive n m =>
    let { outcome, memo, journal } := memo.evaluate n m
    (.outcome outcome, memo, journal)
  | .iterative n m =>
    let { outcome, journal } := Window.evaluate b n m
    (.outcome outcome, memo, journal)
  | .cached n m => (.found (memo.cached? n m), memo, [])
  | .get n m =>
    let (reply, memo) := withPair n m memo fun pair => (.found (memo.find? pair), memo)
    (reply, memo, [])
  | .insert n m value =>
    let (reply, memo) := withPair n m memo fun pair =>
      let (stored, memo) := memo.getOrInsert pair value
      (.outcome (.ok stored), memo)
    (reply, memo, [])
  | .isEmpty => (.flag memo.isEmpty, memo, [])

/-- The entries of the calls in order, and the memo that they leave. -/
def run (memo : Memo b) : List (Call b) → List (Entry b) × Memo b
  | [] => ([], memo)
  | call :: calls =>
    let (answer, memo, journal) := reply memo call
    let size := memo.size
    let (entries, memo) := run memo calls
    ({ reply := answer, size, journal } :: entries, memo)

/-- What a whole session reports. -/
def journal (entries : List (Entry b)) : List (Event b) := entries.flatMap Entry.journal

end Session

end StirlingTriangle
