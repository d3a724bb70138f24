/-!
# Pair

The indices of the triangle: a row `n` and a column `m` with `1 ≤ m ≤ n`.

* `Constraint.violated? n m` is the first condition that two integers fail;
* `Pair.ofInts?` reads a pair from two integers, or names that condition;
* a *base* pair lies on a border of the triangle (column 1 or the diagonal),
  any other pair has two predecessors in the row above, `shifted` and `column`;
* `width` counts the diagonals from the pair's own down to the main one;
* pairs are ordered by row, then by column.

A `Pair` by itself is any two numbers. `Pair.Valid` says that it lies in the
triangle; `valid_shifted` and `valid_column` that the predecessors of a pair
off the borders do so.
-/

namespace StirlingTriangle

/-! ## Conditions on the indices -/

/-- A condition whose failure puts two integers outside the triangle. -/
inductive Constraint where
  | rowBelowOne
  | columnBelowOne
  | rowBelowColumn
deriving DecidableEq, Repr

namespace Constraint

def text : Constraint → String
  | rowBelowOne => "n < 1"
  | columnBelowOne => "m < 1"
  | rowBelowColumn => "n < m"

/-- The first condition that `(n, m)` fails: the row, the column, then their order. -/
def violated? (n m : Int) : Option Constraint :=
  if n < 1 then some rowBelowOne
  else if m < 1 then some columnBelowOne
  else if n < m then some rowBelowColumn
  else none

theorem violated?_eq_none_iff {n m : Int} : violated? n m = none ↔ 1 ≤ m ∧ m ≤ n := by
  unfold violated?
  split
  · simp; omega
  split
  · simp; omega
  split
  · simp; omega
  · simp; omega

end Constraint

/-! ## Pairs -/

/-- A row `n` and a column `m`. -/
structure Pair where
  n : Nat
  m : Nat
deriving DecidableEq, Hashable, Repr

namespace Pair

/-- The pair lies in the triangle. -/
def Valid (p : Pair) : Prop := 1 ≤ p.m ∧ p.m ≤ p.n

instance (p : Pair) : Decidable p.Valid := inferInstanceAs (Decidable (_ ∧ _))

/-- The pair that two integers name, or the first condition that they fail. -/
def ofInts? (n m : Int) : Except Constraint Pair :=
  match Constraint.violated? n m with
  | some constraint => .error constraint
  | none => .ok ⟨n.toNat, m.toNat⟩

/-- The pair lies on a border of the triangle: in column 1 or on the diagonal. -/
def isBase (p : Pair) : Bool := p.m ≤ 1 || p.n ≤ p.m

/-- The number of diagonals from the pair's own down to the main one. -/
def width (p : Pair) : Nat := p.n - p.m + 1

/-- The predecessor up and to the left. -/
def shifted (p : Pair) : Pair := ⟨p.n - 1, p.m - 1⟩

/-- The predecessor above, in the same column. -/
def column (p : Pair) : Pair := ⟨p.n - 1, p.m⟩

theorem valid_ofInts? {n m : Int} {p : Pair} (h : ofInts? n m = .ok p) : p.Valid := by
  unfold ofInts? at h
  split at h
  · cases h
  · rename_i hv
    obtain ⟨hm, hn⟩ := Constraint.violated?_eq_none_iff.1 hv
    cases h
    exact ⟨by simp only; omega, by simp only; omega⟩

theorem isBase_eq_false_iff {p : Pair} : p.isBase = false ↔ 1 < p.m ∧ p.m < p.n := by
  simp [isBase]

theorem valid_of_isBase_eq_false {p : Pair} (h : p.isBase = false) : p.Valid := by
  obtain ⟨hm, hn⟩ := isBase_eq_false_iff.1 h
  exact ⟨Nat.le_of_lt hm, Nat.le_of_lt hn⟩

theorem isBase_iff_of_valid {p : Pair} (h : p.Valid) :
    p.isBase = true ↔ p.m = 1 ∨ p.n = p.m := by
  obtain ⟨hm, hn⟩ := h
  simp only [isBase, Bool.or_eq_true, decide_eq_true_eq]
  omega

theorem valid_shifted {p : Pair} (h : p.isBase = false) : p.shifted.Valid := by
  obtain ⟨hm, hn⟩ := isBase_eq_false_iff.1 h
  exact ⟨by simp only [shifted]; omega, by simp only [shifted]; omega⟩

theorem valid_column {p : Pair} (h : p.isBase = false) : p.column.Valid := by
  obtain ⟨hm, hn⟩ := isBase_eq_false_iff.1 h
  exact ⟨by simp only [column]; omega, by simp only [column]; omega⟩

/-! ## Order -/

/-- By row, then by column. -/
def le (p q : Pair) : Bool := p.n < q.n || (p.n == q.n && p.m ≤ q.m)

def sort (pairs : List Pair) : List Pair := pairs.mergeSort le

/-- The pairs of a list in order, each once. -/
def distinct (pairs : List Pair) : List Pair := (sort pairs).eraseReps

end Pair

end StirlingTriangle
