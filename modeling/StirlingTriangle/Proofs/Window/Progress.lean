import Mathlib.Data.Nat.Find
import StirlingTriangle.Proofs.ColumnOrder
import StirlingTriangle.Proofs.Window.Filling

/-!
# Window.Progress

How far a sweep gets, and what it reports on the way.

* `p.rowEnd j` is the last pair of row `j` that a sweep for `p` fills, and
  `p.fullRows b` the number of rows that it fills as a whole: up to it the last
  entry of each row fits;
* an entry is at least as large as the ones before it in its row, so a row is
  filled exactly if its last entry fits (`Filled.fillRow_rowEnd`);
* `Evaluation.Progress` says what is reported and answered in these terms, and
  `Window.evaluate_progress` that this holds for each request that has to be
  computed. No other request reports anything.
-/

namespace StirlingTriangle

variable {b : Nat}

/-! ## Full rows -/

namespace Pair

/-- The last pair of row `j` that a sweep for `p` fills. -/
def rowEnd (p : Pair) (j : Nat) : Pair := ⟨min (p.n - 1) (j + (p.n - p.m)), j⟩

/-- In each of the first `r` rows the last entry fits. -/
def RowsFit (b : Nat) (p : Pair) (r : Nat) : Prop := ∀ j ∈ List.range' 1 r, (p.rowEnd j).Fits b

instance (b : Nat) (p : Pair) (r : Nat) : Decidable (p.RowsFit b r) :=
  inferInstanceAs (Decidable (∀ j ∈ List.range' 1 r, (p.rowEnd j).Fits b))

/-- The largest number of rows, at most all of them, such that in each one the last entry fits. -/
def fullRows (b : Nat) (p : Pair) : Nat := Nat.findGreatest (p.RowsFit b) p.m

variable {p : Pair} {j : Nat}

theorem fullRows_le (b : Nat) (p : Pair) : p.fullRows b ≤ p.m := Nat.findGreatest_le p.m

theorem rowsFit_fullRows (b : Nat) (p : Pair) : p.RowsFit b (p.fullRows b) :=
  Nat.findGreatest_spec (Nat.zero_le p.m) nofun

/-- After the rows before it, the next row is full exactly if its last entry fits. -/
theorem le_fullRows_iff (hj : 1 ≤ j) (hm : j ≤ p.m) (hbefore : j ≤ p.fullRows b + 1) :
    j ≤ p.fullRows b ↔ (p.rowEnd j).Fits b := by
  constructor
  · intro h
    exact p.rowsFit_fullRows b j (List.mem_range'_1.2 ⟨hj, by omega⟩)
  · intro h
    refine Nat.le_findGreatest hm fun i hi => ?_
    rw [List.mem_range'_1] at hi
    rcases Nat.lt_or_ge i j with hlt | hge
    · exact p.rowsFit_fullRows b i (List.mem_range'_1.2 ⟨hi.1, by omega⟩)
    · rwa [show i = j from by omega]

/-- The last entry of a row is one that the pair depends on. -/
theorem stirling_rowEnd_le (hbase : p.isBase = false) (hm : j ≤ p.m) :
    stirling (p.rowEnd j).n (p.rowEnd j).m ≤ stirling p.n p.m := by
  obtain ⟨-, hn⟩ := isBase_eq_false_iff.1 hbase
  refine stirling_le_of_cone hm ?_
  simp only [rowEnd]
  omega

/-- If some row is not full, the entry of the pair does not fit. -/
theorem limit_le_of_fullRows_lt (hbase : p.isBase = false) (h : p.fullRows b < p.m) :
    Word.limit b ≤ stirling p.n p.m := by
  have hunfit : ¬ (p.rowEnd (p.fullRows b + 1)).Fits b := by
    rw [← le_fullRows_iff (by omega) h (Nat.le_refl _)]
    omega
  exact Nat.le_trans (Nat.not_lt.1 hunfit) (stirling_rowEnd_le hbase h)

end Pair

namespace Window

/-! ## One row -/

/-- A row is filled exactly if its last entry fits. -/
theorem Filled.fillRow_rowEnd {window : Window b} {p : Pair} {j : Nat}
    (h : window.Filled p.width j 0) (hb : 0 < b) (hbase : p.isBase = false) (hj : 1 ≤ j)
    (hm : j ≤ p.m) :
    ((p.rowEnd j).Fits b ∧ ∃ after, window.fillRow j (min (p.n - j) p.width) = .ok after ∧
      after.Filled p.width j (min (p.n - j) p.width)) ∨
    (¬ (p.rowEnd j).Fits b ∧
      ∃ fault, window.fillRow j (min (p.n - j) p.width) = .error fault) := by
  obtain ⟨-, hn⟩ := Pair.isBase_eq_false_iff.1 hbase
  obtain ⟨last, hlast⟩ : ∃ last, min (p.n - j) p.width = last + 1 :=
    ⟨min (p.n - j) p.width - 1, by unfold Pair.width; omega⟩
  have hend : (p.rowEnd j).n = j + last := by
    unfold Pair.width at hlast
    simp only [Pair.rowEnd]
    omega
  unfold Pair.Fits
  rw [hlast, hend]
  rcases h.fillRow hb hj (last + 1) (by omega) with ⟨hfit, hafter⟩ | ⟨o, ho, -, hlimit, hrow⟩
  · exact .inl ⟨hfit last (Nat.lt_succ_self last), hafter⟩
  · have hle : stirling (j + o) j ≤ stirling (j + last) j :=
      stirling_le_of_cone (Nat.le_refl j) (by omega)
    exact .inr ⟨Nat.not_lt.2 (Nat.le_trans hlimit hle), _, hrow⟩

/-! ## All rows -/

/-- The rows from row `j` on are reported up to the last full one. -/
theorem journal_sweepRows (hb : 0 < b) {p : Pair} (hbase : p.isBase = false) :
    ∀ (rows j : Nat) (window : Window b) (journal : List (Event b)), 1 ≤ j → j + rows = p.m + 1 →
      j ≤ p.fullRows b + 1 → (0 < rows → window.Filled p.width j 0) →
      (sweepRows p.n p.width window j journal rows).2 =
        ((List.range' j (p.fullRows b + 1 - j)).map fun i =>
          Event.rowFilled i (min (p.n - i) p.width)).reverse ++ journal := by
  intro rows
  induction rows with
  | zero =>
      intro j window journal _ hm _ _
      have hle := p.fullRows_le b
      rw [show p.fullRows b + 1 - j = 0 from by omega]
      rfl
  | succ rows ih =>
      intro j window journal hj hm hbefore h
      have hfull := Pair.le_fullRows_iff hj (by omega) hbefore
      rw [sweepRows]
      rcases (h (Nat.succ_pos rows)).fillRow_rowEnd hb hbase hj (by omega) with
        ⟨hfits, after, hrow, hafter⟩ | ⟨hunfit, fault, hrow⟩
      · have hlt := hfull.2 hfits
        have hnext : 0 < rows → after.Filled p.width (j + 1) 0 := by
          intro hrows
          have hcolumns : min (p.n - j) p.width = p.width := by
            have := (Pair.isBase_eq_false_iff.1 hbase).2
            unfold Pair.width
            omega
          rw [hcolumns] at hafter
          exact hafter.next
        rw [hrow, show p.fullRows b + 1 - j = p.fullRows b + 1 - (j + 1) + 1 from by omega,
          List.range'_succ]
        simp only
        rw [ih (j + 1) after _ (by omega) (by omega) (by omega) hnext]
        simp
      · have hlast : ¬ j ≤ p.fullRows b := fun hle => hunfit (hfull.1 hle)
        rw [hrow, show p.fullRows b + 1 - j = 0 from by omega]
        rfl

/-- A sweep reports its full rows from row 1 on. The row before the pair is one slot shorter. -/
theorem snd_sweep (hb : 0 < b) {p : Pair} (hbase : p.isBase = false) :
    (sweep b p).2 = (List.range' 1 (p.fullRows b)).map fun j =>
      .rowFilled j (if j < p.m then p.width else p.width - 1) := by
  have hrows := journal_sweepRows hb hbase p.m 1 (blank b p.width) [] (Nat.le_refl 1)
    (Nat.add_comm 1 p.m) (Nat.le_add_left 1 _) fun _ => filled_blank p.width
  have hjournal : (sweep b p).2 =
      (sweepRows p.n p.width (blank b p.width) 1 [] p.m).2.reverse := rfl
  rw [hjournal, hrows, List.append_nil, List.reverse_reverse, Nat.add_sub_cancel]
  refine List.map_congr_left fun j hj => ?_
  have hle := p.fullRows_le b
  have hn := (Pair.isBase_eq_false_iff.1 hbase).2
  rw [List.mem_range'_1] at hj
  unfold Pair.width
  congr 1
  split <;> omega

/-! ## The whole evaluation -/

/-- What the windowed evaluation of `p` reports and answers, by its full rows. -/
structure Evaluation.Progress (evaluation : Evaluation b) (p : Pair) : Prop where
  /-- It reports its start and then the full rows, one after the other. -/
  journal : evaluation.journal =
    .sweepStarted p p.width :: (List.range' 1 (p.fullRows b)).map fun j =>
      .rowFilled j (if j < p.m then p.width else p.width - 1)
  /-- With a row that is not full it is an overflow. -/
  stopped : p.fullRows b < p.m → evaluation.outcome = .error (.overflow p b)
  /-- When all rows are full, the entry of the pair decides. -/
  completed : p.fullRows b = p.m →
    evaluation.outcome =
      if stirling p.n p.m < Word.limit b then .ok (BitVec.ofNat b (stirling p.n p.m))
      else .error (.overflow p b)

theorem progress_of_compute {n m : Int} {p : Pair}
    (hadmission : Admission.ofRequest b n m = .compute p) : (evaluate b n m).Progress p := by
  have hb := Admission.pos_of_compute hadmission
  have hbase := (Admission.of_compute hadmission).2.1
  have houtcome : (evaluate b n m).outcome = .ofValue? p (Word.ofNat? b (stirling p.n p.m)) := by
    rw [evaluate_eq_ofTriangle hb, Admission.ofTriangle_of_compute hadmission]
  refine ⟨?_, ?_, ?_⟩
  · rw [evaluate, hadmission]
    exact congrArg _ (snd_sweep hb hbase)
  · intro hstopped
    rw [houtcome, Word.ofNat?_eq_none_iff.2 (Pair.limit_le_of_fullRows_lt hbase hstopped)]
    rfl
  · intro _
    rw [houtcome, Word.ofNat?]
    split <;> rfl

/-- A request that has to be computed reports its start and its full rows in order; with fewer
rows than the pair's column it is an overflow, otherwise the entry decides. All other requests
report nothing. -/
theorem evaluate_progress (b : Nat) (n m : Int) :
    (1 < m ∧ m < n ∧ n - m + 1 ≤ b → (evaluate b n m).Progress ⟨n.toNat, m.toNat⟩) ∧
      (¬ (1 < m ∧ m < n ∧ n - m + 1 ≤ b) → (evaluate b n m).journal = []) := by
  constructor
  · intro h
    exact progress_of_compute (Admission.ofRequest_eq_compute_iff.2 ⟨h, rfl⟩)
  · intro h
    obtain ⟨outcome, hsettled⟩ := Admission.exists_settled h
    rw [evaluate, hsettled]

/-- In bytes `(8, 5)` is given up in row 4. For `(24, 23)` all rows are full, the last of them
with a single slot, and only the pair itself does not fit. -/
theorem evaluate_progress_byte :
    (evaluate 8 8 5).journal =
      [.sweepStarted ⟨8, 5⟩ 4, .rowFilled 1 4, .rowFilled 2 4, .rowFilled 3 4] ∧
    (evaluate 8 8 5).outcome = .error (.overflow ⟨8, 5⟩ 8) ∧
    (evaluate 8 24 23).journal.getLast? = some (.rowFilled 23 1) ∧
    (evaluate 8 24 23).outcome = .error (.overflow ⟨24, 23⟩ 8) := by
  have hstopped := (evaluate_progress 8 8 5).1 (by decide)
  have hcompleted := (evaluate_progress 8 24 23).1 (by decide)
  have hrows : Pair.fullRows 8 ⟨24, 23⟩ = 23 := by decide +kernel
  refine ⟨?_, hstopped.stopped (by decide), ?_, ?_⟩
  · rw [hstopped.journal]
    decide
  · rw [hcompleted.journal, show Pair.mk (Int.toNat 24) (Int.toNat 23) = ⟨24, 23⟩ from rfl, hrows]
    decide
  · rw [hcompleted.completed hrows]
    decide +kernel

end Window

end StirlingTriangle
