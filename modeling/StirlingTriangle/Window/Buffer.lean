import StirlingTriangle.Word

/-!
# Window.Buffer

A sliding window over the triangle. Its row `j` consists of the entries
`(j, j), (j + 1, j), …`, one for each diagonal, and slot `k` is the place of
`(j + k, j)`. The rows share the slots: a new row overwrites the one before
from the front, and each slot is tagged with the row that wrote it last.

* `get? i j` reads the entry `(i, j)`, if its slot was last written by row `j`;
* `put?` writes a slot, if the window is that wide.
-/

namespace StirlingTriangle

/-- An entry of row `row`. -/
structure Slot (b : Nat) where
  row : Nat
  value : Word b
deriving DecidableEq, Repr

structure Window (b : Nat) where
  slots : Array (Option (Slot b))
deriving DecidableEq, Repr

namespace Window

variable {b : Nat}

def blank (b width : Nat) : Window b := ⟨Array.replicate width none⟩

def width (window : Window b) : Nat := window.slots.size

/-- The entry `(i, j)`, if the window holds it. -/
def get? (window : Window b) (i j : Nat) : Option (Word b) :=
  if i < j then none
  else match window.slots[i - j]? with
    | some (some slot) => if slot.row = j then some slot.value else none
    | _ => none

/-- Writes an entry of row `row` into the slot `offset`, if there is such a slot. -/
def put? (window : Window b) (offset row : Nat) (value : Word b) : Option (Window b) :=
  if h : offset < window.slots.size then
    some ⟨window.slots.set offset (some ⟨row, value⟩) h⟩
  else none

@[simp] theorem width_blank (w : Nat) : (blank b w).width = w := by
  simp [blank, width]

theorem put?_isSome {window : Window b} {offset : Nat} (h : offset < window.width)
    (row : Nat) (value : Word b) : (window.put? offset row value).isSome := by
  unfold width at h
  simp [put?, h]

theorem width_put? {window after : Window b} {offset row : Nat} {value : Word b}
    (h : window.put? offset row value = some after) : after.width = window.width := by
  unfold put? at h
  split at h
  · cases h
    simp [width]
  · cases h

/-- After a write, the slot's entry is the one written; any other row is lost there, and
all other slots are as before. -/
theorem get?_put? {window after : Window b} {offset row : Nat} {value : Word b}
    (h : window.put? offset row value = some after) (k j : Nat) :
    after.get? (j + k) j =
      if k = offset then (if j = row then some value else none)
      else window.get? (j + k) j := by
  unfold put? at h
  split at h
  · rename_i hlt
    cases h
    by_cases hk : k = offset
    · subst hk
      by_cases hj : j = row
      · subst hj
        simp [get?, hlt]
      · have : ¬ row = j := fun h => hj h.symm
        simp [get?, hlt, hj, this]
    · have : ¬ offset = k := fun h => hk h.symm
      simp [get?, hk, this]
  · cases h

end Window

end StirlingTriangle
