import StirlingTriangle.Proofs.Window.Filling

/-!
# Window.Safety

Why a sweep never looks for an entry that the window has lost, never writes
past its end, and never leaves the range of its counters.

* `Reaches p j o window`: the sweep for `p` has come to slot `o` of row `j`
  without a fault, and `window` is what it has then. `Completes p window`: it
  has filled its rows;
* a fault of the sweep is the fault of a slot that it reaches, or that of the
  last entry (`fst_sweep_eq_error_iff`), so what holds wherever it comes to
  holds for the whole sweep;
* `AtSlot` and `AtEnd` say what holds there: the tag and the value of every
  slot, that both predecessors are found, and the range of each number that is
  formed. Both follow from the invariant `Filled`;
* `sweep_safe` puts this together.
-/

namespace StirlingTriangle

namespace Window

variable {b : Nat}

/-! ## Where a sweep comes to -/

/-- The sweep for `p` is about to fill slot `o` of row `j`, and has `window`. -/
def Reaches (p : Pair) (j o : Nat) (window : Window b) : Prop :=
  (1 ≤ j ∧ j ≤ p.m ∧ o < min (p.n - j) p.width) ∧
    ∃ before, (sweepRows p.n p.width (blank b p.width) 1 [] (j - 1)).1 = .ok before ∧
      before.fillRow j o = .ok window

/-- The sweep for `p` has filled its rows, and has `window`. -/
def Completes (p : Pair) (window : Window b) : Prop :=
  (sweepRows p.n p.width (blank b p.width) 1 [] p.m).1 = .ok window

/-- The rows can be filled in two parts. -/
theorem sweepRows_add (n w : Nat) (window : Window b) (j : Nat) (journal : List (Event b))
    (rows more : Nat) :
    sweepRows n w window j journal (rows + more) =
      match sweepRows n w window j journal rows with
      | (.ok after, journal) => sweepRows n w after (j + rows) journal more
      | (.error fault, journal) => (.error fault, journal) := by
  induction rows generalizing window j journal with
  | zero => rw [Nat.zero_add, sweepRows, Nat.add_zero]
  | succ rows ih =>
      rw [Nat.add_right_comm, sweepRows, sweepRows]
      cases window.fillRow j (min (n - j) w) with
      | error fault => rfl
      | ok after =>
          simp only
          rw [ih after (j + 1), Nat.add_right_comm j 1 rows, Nat.add_assoc j rows 1]

/-- After rows without a fault comes the next one. -/
theorem fst_sweepRows_succ {n w j rows : Nat} {window before : Window b}
    {journal : List (Event b)} (h : (sweepRows n w window j journal rows).1 = .ok before) :
    (sweepRows n w window j journal (rows + 1)).1 =
      before.fillRow (j + rows) (min (n - (j + rows)) w) := by
  rw [sweepRows_add]
  generalize sweepRows n w window j journal rows = first at h
  obtain ⟨result, journal⟩ := first
  simp only at h
  subst h
  simp only [sweepRows]
  cases before.fillRow (j + rows) (min (n - (j + rows)) w) <;> rfl

/-- More rows do not undo a fault. -/
theorem fst_sweepRows_of_error {n w j rows more : Nat} {window : Window b}
    {journal : List (Event b)} {fault : Fault}
    (h : (sweepRows n w window j journal rows).1 = .error fault) (hle : rows ≤ more) :
    (sweepRows n w window j journal more).1 = .error fault := by
  obtain ⟨rest, rfl⟩ := Nat.exists_eq_add_of_le hle
  rw [sweepRows_add]
  generalize sweepRows n w window j journal rows = first at h
  obtain ⟨result, journal⟩ := first
  simp only at h
  subst h
  rfl

/-- A row has the fault of the slot at which it stops. -/
theorem fillRow_eq_error_iff {window : Window b} {j columns : Nat} {fault : Fault} :
    window.fillRow j columns = .error fault ↔
      ∃ o middle, o < columns ∧ window.fillRow j o = .ok middle ∧
        middle.fill j o = .error fault := by
  induction columns with
  | zero =>
      constructor
      · intro h
        cases h
      · rintro ⟨o, _, ho, -⟩
        exact absurd ho (Nat.not_lt_zero o)
  | succ columns ih =>
      rw [fillRow]
      cases hrow : window.fillRow j columns with
      | error fault' =>
          constructor
          · intro h
            cases h
            obtain ⟨o, middle, ho, hfill⟩ := ih.1 hrow
            exact ⟨o, middle, by omega, hfill⟩
          · rintro ⟨o, middle, ho, hmiddle, hfill⟩
            rcases Nat.eq_or_lt_of_le (Nat.le_of_lt_succ ho) with rfl | hlt
            · rw [hrow] at hmiddle
              cases hmiddle
            · exact hrow.symm.trans (ih.2 ⟨o, middle, hlt, hmiddle, hfill⟩)
      | ok last =>
          constructor
          · intro h
            exact ⟨columns, last, Nat.lt_succ_self columns, hrow, h⟩
          · rintro ⟨o, middle, ho, hmiddle, hfill⟩
            rcases Nat.eq_or_lt_of_le (Nat.le_of_lt_succ ho) with rfl | hlt
            · rw [hrow] at hmiddle
              cases hmiddle
              exact hfill
            · have herror := ih.2 ⟨o, middle, hlt, hmiddle, hfill⟩
              rw [hrow] at herror
              cases herror

/-- The rows have the fault of a slot that is reached. -/
theorem fst_sweepRows_eq_error_iff {p : Pair} {fault : Fault} :
    ∀ rows, rows ≤ p.m →
      ((sweepRows p.n p.width (blank b p.width) 1 [] rows).1 = .error fault ↔
        ∃ j o window, j ≤ rows ∧ Reaches (b := b) p j o window ∧
          window.fill j o = .error fault) := by
  intro rows
  induction rows with
  | zero =>
      intro _
      constructor
      · intro h
        cases h
      · rintro ⟨j, _, _, hj, ⟨⟨hpos, -⟩, -⟩, -⟩
        omega
  | succ rows ih =>
      intro hrows
      cases hbefore : (sweepRows p.n p.width (blank b p.width) 1 [] rows).1 with
      | error fault' =>
          rw [fst_sweepRows_of_error hbefore (Nat.le_succ rows)]
          constructor
          · intro h
            cases h
            obtain ⟨j, o, window, hj, hreached⟩ := (ih (by omega)).1 hbefore
            exact ⟨j, o, window, by omega, hreached⟩
          · rintro ⟨j, o, window, hj, hreaches, hfill⟩
            rcases Nat.eq_or_lt_of_le hj with rfl | hlt
            · -- the row before it would have to be without a fault
              obtain ⟨-, before, hrow, -⟩ := hreaches
              rw [Nat.add_sub_cancel, hbefore] at hrow
              cases hrow
            · exact hbefore.symm.trans
                ((ih (by omega)).2 ⟨j, o, window, by omega, hreaches, hfill⟩)
      | ok before =>
          rw [fst_sweepRows_succ hbefore, Nat.add_comm 1 rows, fillRow_eq_error_iff]
          constructor
          · rintro ⟨o, window, ho, hmiddle, hfill⟩
            exact ⟨rows + 1, o, window, Nat.le_refl _,
              ⟨⟨by omega, hrows, ho⟩, before, hbefore, hmiddle⟩, hfill⟩
          · rintro ⟨j, o, window, hj, hreaches, hfill⟩
            rcases Nat.eq_or_lt_of_le hj with rfl | hlt
            · obtain ⟨⟨-, -, ho⟩, before', hrow, hmiddle⟩ := hreaches
              rw [Nat.add_sub_cancel, hbefore] at hrow
              cases hrow
              exact ⟨o, window, ho, hmiddle, hfill⟩
            · have herror := (ih (by omega)).2 ⟨j, o, window, by omega, hreaches, hfill⟩
              rw [hbefore] at herror
              cases herror

/-- A sweep ends with the fault of a slot that it reaches, or with that of its last entry. -/
theorem fst_sweep_eq_error_iff {p : Pair} {fault : Fault} :
    (sweep b p).1 = .error fault ↔
      (∃ j o window, Reaches (b := b) p j o window ∧ window.fill j o = .error fault) ∨
      (∃ window, Completes (b := b) p window ∧ window.entry p.n p.m = .error fault) := by
  have hrows : (sweepRows p.n p.width (blank b p.width) 1 [] p.m).1 = .error fault ↔ _ :=
    fst_sweepRows_eq_error_iff p.m (Nat.le_refl p.m)
  have hslot : (∃ j o window, j ≤ p.m ∧ Reaches (b := b) p j o window ∧
      window.fill j o = .error fault) ↔
        ∃ j o window, Reaches (b := b) p j o window ∧ window.fill j o = .error fault :=
    ⟨fun ⟨j, o, window, _, h⟩ => ⟨j, o, window, h⟩,
      fun ⟨j, o, window, h⟩ => ⟨j, o, window, h.1.1.2.1, h⟩⟩
  rw [← hslot, ← hrows, fst_sweep]
  unfold Completes
  cases (sweepRows p.n p.width (blank b p.width) 1 [] p.m).1 with
  | error fault' => simp [Except.bind]
  | ok window => simp [Except.bind]

/-! ## What holds there -/

/-- The integer is one that 64 bits without a sign have. -/
def IsUnsigned64 (z : Int) : Prop := 0 ≤ z ∧ z < 18446744073709551616

/-- Slot `k` was last written by row `j`, and has the true entry of that row. -/
def SlotHolds (window : Window b) (k j : Nat) : Prop :=
  ∃ v, window.slots[k]? = some (some ⟨j, v⟩) ∧ v.toNat = stirling (j + k) j

/-- The entry `(i, j)` is looked for in a slot that is there and has the tag of row `j`. -/
structure Finds (window : Window b) (i j : Nat) : Prop where
  offset : IsUnsigned64 (i - j)
  found : ∃ v, window.slots[i - j]? = some (some ⟨j, v⟩) ∧ window.lookup i j = .ok v

/-- The step of `(i, j)` can be taken: both predecessors are found. -/
structure Supplied (window : Window b) (i j : Nat) : Prop where
  rowAbove : IsUnsigned64 (i - 1)
  columnBefore : IsUnsigned64 (j - 1)
  shifted : window.Finds (i - 1) (j - 1)
  column : window.Finds (i - 1) j

/-- What holds when slot `o` of row `j` is about to be filled. -/
structure AtSlot (window : Window b) (p : Pair) (j o : Nat) : Prop where
  /-- The slots before it hold row `j`. -/
  current : ∀ k, k < o → window.SlotHolds k j
  /-- The slots from it on hold the row before. -/
  previous : 1 < j → ∀ k, o ≤ k → k < p.width → window.SlotHolds k (j - 1)
  supplied : ¬(j + o = j ∨ j = 1) → window.Supplied (j + o) j
  /-- The window has the slot that is written. -/
  inside : window.width = p.width ∧ o < p.width
  columns : IsUnsigned64 (p.n - j)
  row : IsUnsigned64 (j + o)

/-- What holds when the rows are filled and the entry of `p` is left. -/
structure AtEnd (window : Window b) (p : Pair) : Prop where
  current : ∀ k, k < p.width - 1 → window.SlotHolds k p.m
  /-- The last slot still holds the row before the last. -/
  previous : window.SlotHolds (p.width - 1) (p.m - 1)
  supplied : window.Supplied p.n p.m

theorem slotHolds_iff_holds {window : Window b} {k j : Nat} :
    window.SlotHolds k j ↔ window.Holds (j + k) j := by
  unfold SlotHolds Holds get?
  rw [if_neg (Nat.not_lt.2 (Nat.le_add_right j k)), Nat.add_sub_cancel_left]
  constructor
  · rintro ⟨v, hslot, hv⟩
    refine ⟨v, ?_, hv⟩
    rw [hslot]
    simp only [if_true]
  · rintro ⟨v, hget, hv⟩
    refine ⟨v, ?_, hv⟩
    split at hget
    · rename_i slot hslot
      split at hget
      · rename_i hrow
        cases hget
        rw [hslot, ← hrow]
      · cases hget
    · cases hget

/-- An entry is found in the slot that holds it. -/
theorem SlotHolds.finds {window : Window b} {k j : Nat} (h : window.SlotHolds k j)
    (hk : IsUnsigned64 k) : window.Finds (j + k) j := by
  have hlookup := (slotHolds_iff_holds.1 h).lookup
  obtain ⟨v, hslot, hv⟩ := h
  obtain ⟨u, hfound, hu⟩ := hlookup
  have huv : u = v := BitVec.eq_of_toNat_eq (hu.trans hv.symm)
  refine ⟨?_, v, ?_, ?_⟩
  · unfold IsUnsigned64 at hk ⊢
    omega
  · rw [Nat.add_sub_cancel_left, hslot]
  · rw [hfound, huv]

/-- The two slots at the boundary between the rows supply the step there. -/
theorem supplied_of_slots {window : Window b} {j o : Nat} (hj : 1 < j) (ho : 0 < o)
    (hrange : IsUnsigned64 (j + o)) (hprevious : window.SlotHolds o (j - 1))
    (hcurrent : window.SlotHolds (o - 1) j) : window.Supplied (j + o) j := by
  unfold IsUnsigned64 at hrange
  have hshifted := hprevious.finds (by unfold IsUnsigned64; omega)
  have hcolumn := hcurrent.finds (by unfold IsUnsigned64; omega)
  refine ⟨by unfold IsUnsigned64; omega, by unfold IsUnsigned64; omega, ?_, ?_⟩
  · rwa [show j + o - 1 = j - 1 + o from by omega]
  · rwa [show j + o - 1 = j + (o - 1) from by omega]

/-! ## That it holds -/

theorem Filled.of_fillRow {window after : Window b} {w j columns : Nat}
    (h : window.Filled w j 0) (hb : 0 < b) (hj : 1 ≤ j) (hcolumns : columns ≤ w)
    (hrow : window.fillRow j columns = .ok after) : after.Filled w j columns := by
  rcases h.fillRow hb hj columns hcolumns with ⟨-, after', hrow', hafter⟩ | ⟨o, -, -, -, hrow'⟩
  · rw [hrow] at hrow'
    cases hrow'
    exact hafter
  · rw [hrow] at hrow'
    cases hrow'

/-- The rows before the last leave a full window. -/
theorem filled_of_sweepRows (hb : 0 < b) {p : Pair} (hn : p.m < p.n) :
    ∀ rows, rows < p.m → ∀ before : Window b,
      (sweepRows p.n p.width (blank b p.width) 1 [] rows).1 = .ok before →
        before.Filled p.width (rows + 1) 0 := by
  intro rows
  induction rows with
  | zero =>
      intro _ before hbefore
      cases hbefore
      exact filled_blank p.width
  | succ rows ih =>
      intro hrows after hafter
      cases hbefore : (sweepRows p.n p.width (blank b p.width) 1 [] rows).1 with
      | error fault =>
          rw [fst_sweepRows_of_error hbefore (Nat.le_succ rows)] at hafter
          cases hafter
      | ok before =>
          have hcolumns : min (p.n - (1 + rows)) p.width = p.width := by
            unfold Pair.width
            omega
          rw [fst_sweepRows_succ hbefore, hcolumns, Nat.add_comm 1 rows] at hafter
          exact ((ih (by omega) before hbefore).of_fillRow hb (Nat.le_add_left 1 rows)
            (Nat.le_refl _) hafter).next

theorem Reaches.filled (hb : 0 < b) {p : Pair} {j o : Nat} {window : Window b} (hn : p.m < p.n)
    (h : Reaches p j o window) : window.Filled p.width j o := by
  obtain ⟨⟨hj, hm, ho⟩, before, hrows, hfill⟩ := h
  have hbefore := filled_of_sweepRows hb hn (j - 1) (by omega) before hrows
  rw [Nat.sub_add_cancel hj] at hbefore
  exact hbefore.of_fillRow hb hj (by omega) hfill

/-- The last row is one slot shorter than the window. -/
theorem Completes.filled (hb : 0 < b) {p : Pair} {window : Window b} (hbase : p.isBase = false)
    (h : Completes p window) : window.Filled p.width p.m (p.width - 1) := by
  obtain ⟨hm, hn⟩ := Pair.isBase_eq_false_iff.1 hbase
  obtain ⟨rows, hrows⟩ : ∃ rows, p.m = rows + 1 := ⟨p.m - 1, by omega⟩
  unfold Completes at h
  rw [hrows] at h
  cases hbefore : (sweepRows p.n p.width (blank b p.width) 1 [] rows).1 with
  | error fault =>
      rw [fst_sweepRows_of_error hbefore (Nat.le_succ rows)] at h
      cases h
  | ok before =>
      have hcolumns : min (p.n - (1 + rows)) p.width = p.width - 1 := by
        unfold Pair.width
        omega
      rw [fst_sweepRows_succ hbefore, hcolumns, Nat.add_comm 1 rows, ← hrows] at h
      have hfilled := filled_of_sweepRows hb hn rows (by omega) before hbefore
      rw [← hrows] at hfilled
      exact hfilled.of_fillRow hb (by omega) (Nat.sub_le _ _) h

theorem Reaches.atSlot (hb : 0 < b) {p : Pair} {j o : Nat} {window : Window b} (hn : p.m < p.n)
    (hrow : p.n ≤ 9223372036854775807) (h : Reaches p j o window) : window.AtSlot p j o := by
  have hfilled := h.filled hb hn
  obtain ⟨⟨hj, hm, ho⟩, -⟩ := h
  have hcurrent : ∀ k, k < o → window.SlotHolds k j := fun k hk =>
    slotHolds_iff_holds.2 (hfilled.current k hk)
  have hprevious : 1 < j → ∀ k, o ≤ k → k < p.width → window.SlotHolds k (j - 1) :=
    fun hj k hk hkw => slotHolds_iff_holds.2 (hfilled.previous hj k hk hkw)
  have hrange : IsUnsigned64 (j + o) := by
    unfold IsUnsigned64
    omega
  refine ⟨hcurrent, hprevious, ?_, ⟨hfilled.width, by omega⟩, ?_, hrange⟩
  · intro hborder
    exact supplied_of_slots (by omega) (by omega) hrange
      (hprevious (by omega) o (Nat.le_refl o) (by omega)) (hcurrent (o - 1) (by omega))
  · unfold IsUnsigned64
    omega

theorem Completes.atEnd (hb : 0 < b) {p : Pair} {window : Window b} (hbase : p.isBase = false)
    (hrow : p.n ≤ 9223372036854775807) (h : Completes p window) : window.AtEnd p := by
  have hfilled := h.filled hb hbase
  obtain ⟨hm, hn⟩ := Pair.isBase_eq_false_iff.1 hbase
  have hwidth : p.m + (p.width - 1) = p.n ∧ 0 < p.width - 1 := by
    unfold Pair.width
    omega
  have hcurrent : ∀ k, k < p.width - 1 → window.SlotHolds k p.m := fun k hk =>
    slotHolds_iff_holds.2 (hfilled.current k hk)
  have hprevious : window.SlotHolds (p.width - 1) (p.m - 1) :=
    slotHolds_iff_holds.2 (hfilled.previous hm _ (Nat.le_refl _) (by omega))
  have hsupplied : window.Supplied (p.m + (p.width - 1)) p.m := by
    refine supplied_of_slots hm hwidth.2 ?_ hprevious (hcurrent _ (by omega))
    unfold IsUnsigned64
    omega
  rw [hwidth.1] at hsupplied
  exact ⟨hcurrent, hprevious, hsupplied⟩

/-- The only fault of a sweep is that an entry does not fit. -/
theorem exists_overflow_of_fst_sweep (hb : 0 < b) {p : Pair} (hbase : p.isBase = false)
    {fault : Fault} (h : (sweep b p).1 = .error fault) : ∃ q, fault = .overflow q := by
  obtain ⟨hm, hn⟩ := Pair.isBase_eq_false_iff.1 hbase
  rcases fst_sweep_eq_error_iff.1 h with
    ⟨j, o, window, hreaches, hfill⟩ | ⟨window, hcompletes, hentry⟩
  · obtain ⟨hj, -, ho⟩ := hreaches.1
    rcases (hreaches.filled hb hn).fill hb hj (by omega) with ⟨-, _, hfill', -⟩ | ⟨-, hfill'⟩
    · rw [hfill] at hfill'
      cases hfill'
    · rw [hfill] at hfill'
      cases hfill'
      exact ⟨_, rfl⟩
  · have hfilled := (hcompletes.filled hb hbase).entry hb (by omega) (by unfold Pair.width; omega)
    rw [show p.m + (p.width - 1) = p.n from by unfold Pair.width; omega, hentry] at hfilled
    cases hvalue : Word.ofNat? b (stirling p.n p.m) with
    | some v =>
        rw [hvalue] at hfilled
        cases hfilled
    | none =>
        rw [hvalue] at hfilled
        cases hfilled
        exact ⟨_, rfl⟩

/-- Wherever the sweep for a pair off the borders comes to, each slot has the tag and the value
that it should have, the predecessors are found, the slot to be written is there, and no counter
leaves the range of 64 bits; so also when only the entry of the pair is left. The sweep ends early
exactly at a slot that it reaches or at that entry, and only because an entry does not fit. -/
theorem sweep_safe {p : Pair} (hbase : p.isBase = false) (hwidth : p.width ≤ b)
    (hrow : p.n ≤ 9223372036854775807) :
    (∀ j o (window : Window b), Reaches p j o window → window.AtSlot p j o) ∧
    (∀ window : Window b, Completes p window → window.AtEnd p) ∧
    (∀ fault, (sweep b p).1 = .error fault ↔
      (∃ j o window, Reaches (b := b) p j o window ∧ window.fill j o = .error fault) ∨
      (∃ window, Completes (b := b) p window ∧ window.entry p.n p.m = .error fault)) ∧
    (∀ fault, (sweep b p).1 = .error fault → ∃ q, fault = .overflow q) := by
  have hb : 0 < b := by
    unfold Pair.width at hwidth
    omega
  obtain ⟨-, hn⟩ := Pair.isBase_eq_false_iff.1 hbase
  refine ⟨?_, ?_, ?_, ?_⟩
  · intro j o window hreaches
    exact hreaches.atSlot hb hn hrow
  · intro window hcompletes
    exact hcompletes.atEnd hb hbase hrow
  · intro fault
    exact fst_sweep_eq_error_iff
  · intro fault hfault
    exact exists_overflow_of_fst_sweep hb hbase hfault

/-- In bytes: `(5, 3)` in the middle of row 2 and with only its own entry left. The sweep for
`(8, 5)` has filled three slots of row 4 when it comes to one that does not fit. -/
theorem sweep_safe_byte :
    (Reaches ⟨5, 3⟩ 2 1 (⟨#[some ⟨2, 1⟩, some ⟨1, 1⟩, some ⟨1, 1⟩]⟩ : Window 8) ∧
      (⟨#[some ⟨2, 1⟩, some ⟨1, 1⟩, some ⟨1, 1⟩]⟩ : Window 8).AtSlot ⟨5, 3⟩ 2 1) ∧
    (Completes ⟨5, 3⟩ (⟨#[some ⟨3, 1⟩, some ⟨3, 6⟩, some ⟨2, 7⟩]⟩ : Window 8) ∧
      (⟨#[some ⟨3, 1⟩, some ⟨3, 6⟩, some ⟨2, 7⟩]⟩ : Window 8).AtEnd ⟨5, 3⟩) ∧
    (Reaches ⟨8, 5⟩ 4 3 (⟨#[some ⟨4, 1⟩, some ⟨4, 10⟩, some ⟨4, 65⟩, some ⟨3, 90⟩]⟩ : Window 8) ∧
      (sweep 8 ⟨8, 5⟩).1 = .error (.overflow ⟨7, 4⟩)) := by
  have hslot : Reaches ⟨5, 3⟩ 2 1 (⟨#[some ⟨2, 1⟩, some ⟨1, 1⟩, some ⟨1, 1⟩]⟩ : Window 8) :=
    ⟨by decide, ⟨#[some ⟨1, 1⟩, some ⟨1, 1⟩, some ⟨1, 1⟩]⟩, by decide, by decide⟩
  have hend : Completes ⟨5, 3⟩ (⟨#[some ⟨3, 1⟩, some ⟨3, 6⟩, some ⟨2, 7⟩]⟩ : Window 8) := by
    unfold Completes
    decide
  have hlast : Reaches ⟨8, 5⟩ 4 3
      (⟨#[some ⟨4, 1⟩, some ⟨4, 10⟩, some ⟨4, 65⟩, some ⟨3, 90⟩]⟩ : Window 8) :=
    ⟨by decide, ⟨#[some ⟨3, 1⟩, some ⟨3, 6⟩, some ⟨3, 25⟩, some ⟨3, 90⟩]⟩, by decide, by decide⟩
  have hsafe := sweep_safe (b := 8) (p := ⟨5, 3⟩) (by decide) (by decide) (by decide)
  have hover := sweep_safe (b := 8) (p := ⟨8, 5⟩) (by decide) (by decide) (by decide)
  exact ⟨⟨hslot, hsafe.1 _ _ _ hslot⟩, ⟨hend, hsafe.2.1 _ hend⟩, hlast,
    (hover.2.2.1 _).2 (.inl ⟨_, _, _, hlast, by decide⟩)⟩

end Window

end StirlingTriangle
