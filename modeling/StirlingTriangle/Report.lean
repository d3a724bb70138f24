import StirlingTriangle.Triangle

/-!
# Report

The result of evaluating a pair both ways, and its two texts.

* `Report.text` has the value and the triangles, one line for each row, with a
  row number that is counted in 32 bits;
* `Report.summary` has the times, the size of the memo, and the number of
  values on which both ways agree: the entries of the triangle and the value
  itself;
* a quiet report is the bare value, without a summary.
-/

namespace StirlingTriangle

/-- One way of evaluating: the value, the triangle if it was asked for, and the time as text. -/
structure Run (b : Nat) where
  value : Word b
  triangle : Option (Triangle b)
  time : String
deriving DecidableEq

structure Report (b : Nat) where
  n : Int
  m : Int
  recursive : Run b
  iterative : Run b
  /-- The number of entries of the memo after both runs. -/
  cachedPairs : Nat
deriving DecidableEq

variable {b : Nat}

/-! ## The triangles -/

/-- The number that is printed for row `i`. It is counted in 32 bits with a sign, and wraps. -/
def Triangle.rowNumber (i : Nat) : Int := (BitVec.ofNat 32 i).toInt

/-- A row of the triangle: its number, then its entries. -/
def Triangle.rowLine (row : List (Outcome b)) (i : Nat) : String :=
  s!"n={rowNumber i}: " ++ "  ".intercalate (row.map Outcome.text) ++ "\n"

def Triangle.text (t : Triangle b) : String :=
  String.join ((t.rows.zipIdx 1).map fun (row, i) => rowLine row i)

namespace Report

def headline (r : Report b) : String := s!"A({r.n}, {r.m}) = {r.recursive.value.text}\n"

/-- A triangle under its heading, or nothing. -/
def block (heading : String) : Option (Triangle b) → String
  | some triangle => "\n" ++ heading ++ "\n" ++ triangle.text
  | none => ""

def text (r : Report b) : String :=
  r.headline ++ block "Calculating with recursion:" r.recursive.triangle
    ++ block "Calculating without recursion:" r.iterative.triangle

def quietText (r : Report b) : String := r.recursive.value.text ++ "\n"

/-! ## The summary -/

/-- The number of values that were compared. -/
def comparedValues (r : Report b) : Nat :=
  match r.recursive.triangle with
  | some triangle => triangle.cellCount + 1
  | none => 1

def summary (r : Report b) (elapsed : String) : String :=
  "\n--- Summary ---\n"
    ++ s!"recursive engine: {r.recursive.time}\n"
    ++ s!"iterative engine: {r.iterative.time}\n"
    ++ s!"Cached pairs: {r.cachedPairs}\n"
    ++ s!"Engines agree on {r.comparedValues} values\n"
    ++ s!"Elapsed wall-clock time: {elapsed}\n"

/-- Everything that is shown of a report. -/
def shown (quiet : Bool) (r : Report b) (elapsed : String) : String :=
  if quiet then r.quietText else r.text ++ r.summary elapsed

end Report

end StirlingTriangle
