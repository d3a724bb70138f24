import Std.Data.HashMap
import StirlingTriangle.Pair
import StirlingTriangle.Word

/-!
# Memo.Store

The values that memoized evaluations have stored, by pair. It offers two
operations, each of which happens at one point in time when evaluations share
a memo: reading an entry, and storing one unless its pair has one already, so
that the first value of a pair stays for good.

The view is `find?`: `find?_getOrInsert` says what storing does to it, and
`fst_getOrInsert` which value the writer gets back.
-/

namespace StirlingTriangle

/-- The stored values, by pair. -/
structure Memo (b : Nat) where
  entries : Std.HashMap Pair (Word b) := ∅

namespace Memo

variable {b : Nat}

def empty : Memo b := {}

def find? (memo : Memo b) (p : Pair) : Option (Word b) := memo.entries[p]?

/-- The number of entries. -/
def size (memo : Memo b) : Nat := memo.entries.size

def isEmpty (memo : Memo b) : Bool := memo.entries.isEmpty

/-- Stores `value` for `p` unless `p` has an entry; the result is the entry that `p` then has. -/
def getOrInsert (memo : Memo b) (p : Pair) (value : Word b) : Word b × Memo b :=
  match memo.entries.getThenInsertIfNew? p value with
  | (old?, entries) => (old?.getD value, ⟨entries⟩)

/-- Stores a list of entries in order; the results are the values that their pairs then have. -/
def insertAll (memo : Memo b) : List (Pair × Word b) → List (Word b) × Memo b
  | [] => ([], memo)
  | (p, value) :: rest =>
    let (stored, memo) := memo.getOrInsert p value
    let (others, memo) := memo.insertAll rest
    (stored :: others, memo)

/-! ## What storing does to the view -/

@[simp] theorem find?_empty (p : Pair) : (empty : Memo b).find? p = none := by
  simp [find?, empty]

theorem fst_getOrInsert (memo : Memo b) (p : Pair) (value : Word b) :
    (memo.getOrInsert p value).1 = (memo.find? p).getD value := by
  simp [getOrInsert, find?]

theorem find?_getOrInsert (memo : Memo b) (p : Pair) (value : Word b) (q : Pair) :
    (memo.getOrInsert p value).2.find? q =
      if q = p then some ((memo.find? p).getD value) else memo.find? q := by
  simp only [getOrInsert, find?, Std.HashMap.getThenInsertIfNew?_fst,
    Std.HashMap.getThenInsertIfNew?_snd, Std.HashMap.getElem?_insertIfNew]
  by_cases hq : q = p
  · subst hq
    by_cases hm : q ∈ memo.entries
    · simp [hm]
    · simp [hm]
  · have : ¬ p = q := fun h => hq h.symm
    simp [hq, this]

/-- The writer gets the value that the memo then holds for the pair. -/
theorem find?_getOrInsert_self (memo : Memo b) (p : Pair) (value : Word b) :
    (memo.getOrInsert p value).2.find? p = some (memo.getOrInsert p value).1 := by
  rw [find?_getOrInsert, if_pos rfl, fst_getOrInsert]

theorem find?_getOrInsert_of_some {memo : Memo b} {q : Pair} {w : Word b}
    (h : memo.find? q = some w) (p : Pair) (value : Word b) :
    (memo.getOrInsert p value).2.find? q = some w := by
  rw [find?_getOrInsert]
  split
  · rename_i hq
    subst hq
    rw [h]
    rfl
  · exact h

end Memo

end StirlingTriangle
