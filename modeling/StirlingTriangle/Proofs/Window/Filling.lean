import StirlingTriangle.Proofs.Admission
import StirlingTriangle.Window.Sweep

/-!
# Window.Filling

What a sliding window holds while it is filled, and that a windowed
evaluation answers what the triangle says.

* `Window.Filled window w j o` is the invariant of the two loops: of the `w`
  slots the first `o` hold row `j`, the others still hold row `j - 1`;
* `Filled.entry` says what one entry comes to, `Filled.fill` what one slot
  does to the invariant, `Filled.fillRow` and `Filled.sweepRows` what the two
  loops do;
* `Window.evaluate_eq_ofTriangle` is the result: right for every request, and
  never a broken window.

The last row is one entry shorter than the window, so that the slot past its
end still holds the row before. That slot and the last one written are the
two predecessors of the pair that was asked for.
-/

namespace StirlingTriangle

namespace Window

variable {b : Nat}

/-! ## The invariant -/

/-- The window holds the true entry `(i, j)`. -/
def Holds (window : Window b) (i j : Nat) : Prop :=
  ∃ v, window.get? i j = some v ∧ v.toNat = stirling i j

/-- The first `o` of `w` slots hold row `j`, and the others the row before it. -/
structure Filled (window : Window b) (w j o : Nat) : Prop where
  width : window.width = w
  current : ∀ k, k < o → window.Holds (j + k) j
  previous : 1 < j → ∀ k, o ≤ k → k < w → window.Holds (j - 1 + k) (j - 1)

/-- Before row 1 there is nothing that a blank window would have to hold. -/
theorem filled_blank (w : Nat) : (blank b w).Filled w 1 0 where
  width := width_blank w
  current := fun k hk => absurd hk (Nat.not_lt_zero k)
  previous := fun h => absurd h (Nat.lt_irrefl 1)

/-- A full row is the previous row of the next one. -/
theorem Filled.next {window : Window b} {w j : Nat} (h : window.Filled w j w) :
    window.Filled w (j + 1) 0 where
  width := h.width
  current := fun k hk => absurd hk (Nat.not_lt_zero k)
  previous := by
    intro _ k _ hk
    rw [Nat.add_sub_cancel]
    exact h.current k hk

theorem Holds.lookup {window : Window b} {i j : Nat} (h : window.Holds i j) :
    ∃ v, window.lookup i j = .ok v ∧ v.toNat = stirling i j := by
  obtain ⟨v, hget, hv⟩ := h
  exact ⟨v, by rw [Window.lookup, hget], hv⟩

/-! ## One entry -/

/-- A value that fits, or the refusal of the step of `pair`. -/
def orOverflow (pair : Pair) : Option (Word b) → Except Fault (Word b)
  | some value => .ok value
  | none => .error (.overflow pair)

/-- Off the borders an entry is the step of its two predecessors. -/
theorem entry_inner {window : Window b} {i j : Nat} {left above : Word b}
    (hborder : ¬(i = j ∨ j = 1)) (hleft : window.lookup (i - 1) (j - 1) = .ok left)
    (habove : window.lookup (i - 1) j = .ok above) :
    window.entry i j = orOverflow ⟨i, j⟩ (left.step j above) := by
  rw [Window.entry, if_neg hborder, hleft, habove]
  cases hstep : left.step j above <;> simp only [bind, Except.bind, hstep, orOverflow]

/-- At the boundary between the two rows the window holds both predecessors: the left one has
not been overwritten yet, and the one above has just been written. -/
theorem Filled.lookup {window : Window b} {w j o : Nat} (h : window.Filled w j o) (hj : 1 < j)
    (hpos : 0 < o) (ho : o < w) :
    ∃ left above, window.lookup (j + o - 1) (j - 1) = .ok left ∧
      window.lookup (j + o - 1) j = .ok above ∧
      left.toNat = stirling (j + o - 1) (j - 1) ∧ above.toNat = stirling (j + o - 1) j := by
  have hleft : window.Holds (j + o - 1) (j - 1) := by
    rw [show j + o - 1 = j - 1 + o from by omega]
    exact h.previous hj o (Nat.le_refl o) ho
  have habove : window.Holds (j + o - 1) j := by
    rw [show j + o - 1 = j + (o - 1) from by omega]
    exact h.current (o - 1) (by omega)
  obtain ⟨left, hlookup, hl⟩ := hleft.lookup
  obtain ⟨above, hlookup', ha⟩ := habove.lookup
  exact ⟨left, above, hlookup, hlookup', hl, ha⟩

/-- The entry at the boundary is the true one, if it fits. -/
theorem Filled.entry {window : Window b} {w j o : Nat} (h : window.Filled w j o) (hb : 0 < b)
    (hj : 1 ≤ j) (ho : o < w) :
    window.entry (j + o) j = orOverflow ⟨j + o, j⟩ (Word.ofNat? b (stirling (j + o) j)) := by
  by_cases hborder : j + o = j ∨ j = 1
  · have hone : Word.ofNat? b (stirling (j + o) j) = some 1 := by
      rw [Word.ofNat?_eq_some_iff, stirling_border (by omega), Word.toNat_one hb]
    rw [Window.entry, if_pos hborder, hone]
    rfl
  · obtain ⟨left, above, hleft, habove, hl, ha⟩ := h.lookup (by omega) (by omega) ho
    rw [entry_inner hborder hleft habove, Word.step_stirling (by omega) (by omega) hl ha]

/-- Writing the true entry moves the boundary on by one slot. -/
theorem Filled.put? {window after : Window b} {w j o : Nat} {v : Word b}
    (h : window.Filled w j o) (hv : v.toNat = stirling (j + o) j)
    (hput : window.put? o j v = some after) : after.Filled w j (o + 1) where
  width := by rw [width_put? hput, h.width]
  current := by
    intro k hk
    rcases Nat.eq_or_lt_of_le (Nat.le_of_lt_succ hk) with rfl | hlt
    · exact ⟨v, by rw [get?_put? hput, if_pos rfl, if_pos rfl], hv⟩
    · obtain ⟨u, hget, hu⟩ := h.current k hlt
      exact ⟨u, by rw [get?_put? hput, if_neg (Nat.ne_of_lt hlt), hget], hu⟩
  previous := by
    intro hj' k hk hkw
    obtain ⟨u, hget, hu⟩ := h.previous hj' k (by omega) hkw
    exact ⟨u, by rw [get?_put? hput, if_neg (by omega), hget], hu⟩

/-- Filling a slot succeeds exactly if its entry fits. -/
theorem Filled.fill {window : Window b} {w j o : Nat} (h : window.Filled w j o) (hb : 0 < b)
    (hj : 1 ≤ j) (ho : o < w) :
    (stirling (j + o) j < Word.limit b ∧
      ∃ after, window.fill j o = .ok after ∧ after.Filled w j (o + 1)) ∨
    (Word.limit b ≤ stirling (j + o) j ∧ window.fill j o = .error (.overflow ⟨j + o, j⟩)) := by
  unfold Window.fill
  rw [h.entry hb hj ho]
  cases hv : Word.ofNat? b (stirling (j + o) j) with
  | none => exact .inr ⟨Word.ofNat?_eq_none_iff.1 hv, rfl⟩
  | some v =>
      rw [Word.ofNat?_eq_some_iff] at hv
      have hfits := Word.toNat_lt_limit v
      obtain ⟨after, hput⟩ := Option.isSome_iff_exists.1
        (put?_isSome (by rw [h.width]; exact ho) j v : (window.put? o j v).isSome)
      refine .inl ⟨by omega, after, ?_, h.put? hv hput⟩
      simp only [orOverflow, bind, Except.bind, hput]

/-! ## The two loops -/

/-- A row is filled up to its first entry that does not fit. -/
theorem Filled.fillRow {window : Window b} {w j : Nat} (h : window.Filled w j 0) (hb : 0 < b)
    (hj : 1 ≤ j) : ∀ columns, columns ≤ w →
    ((∀ k, k < columns → stirling (j + k) j < Word.limit b) ∧
      ∃ after, window.fillRow j columns = .ok after ∧ after.Filled w j columns) ∨
    (∃ o, o < columns ∧ (∀ k, k < o → stirling (j + k) j < Word.limit b) ∧
      Word.limit b ≤ stirling (j + o) j ∧
      window.fillRow j columns = .error (.overflow ⟨j + o, j⟩)) := by
  intro columns
  induction columns with
  | zero =>
      intro _
      exact .inl ⟨fun k hk => absurd hk (Nat.not_lt_zero k), window, rfl, h⟩
  | succ columns ih =>
      intro hcolumns
      rcases ih (by omega) with ⟨hfit, middle, hrow, hmiddle⟩ | ⟨o, ho, hfit, hlimit, hrow⟩
      · have hunfold : window.fillRow j (columns + 1) = middle.fill j columns := by
          rw [Window.fillRow, hrow]
          rfl
        rw [hunfold]
        rcases hmiddle.fill hb hj (by omega) with ⟨hlast, after, hfill, hafter⟩ | ⟨hlimit, hfill⟩
        · refine .inl ⟨?_, after, hfill, hafter⟩
          intro k hk
          rcases Nat.eq_or_lt_of_le (Nat.le_of_lt_succ hk) with rfl | hlt
          · exact hlast
          · exact hfit k hlt
        · exact .inr ⟨columns, by omega, hfit, hlimit, hfill⟩
      · refine .inr ⟨o, by omega, hfit, hlimit, ?_⟩
        rw [Window.fillRow, hrow]
        rfl

/-- The rows up to `m` are filled, the last one up to the slot before the window's end, unless
an entry that the pair depends on does not fit. -/
theorem Filled.sweepRows {n m w : Nat} (hb : 0 < b) (hw : n + 1 = m + w) :
    ∀ (rows j : Nat) (window : Window b) (journal : List (Event b)), 1 ≤ j → j + rows = m →
      window.Filled w j 0 →
      (∃ after, (sweepRows n w window j journal (rows + 1)).1 = .ok after ∧
        after.Filled w m (w - 1)) ∨
      (∃ i k, k ≤ m ∧ i + m ≤ n + k ∧ Word.limit b ≤ stirling i k ∧
        (sweepRows n w window j journal (rows + 1)).1 = .error (.overflow ⟨i, k⟩)) := by
  intro rows
  induction rows with
  | zero =>
      intro j window journal hj hm h
      have hcolumns : min (n - j) w = w - 1 := by omega
      obtain rfl : j = m := hm
      rw [Window.sweepRows, hcolumns]
      rcases h.fillRow hb hj (w - 1) (by omega) with ⟨-, after, hrow, hafter⟩ |
        ⟨o, ho, -, hlimit, hrow⟩
      · refine .inl ⟨after, ?_, hafter⟩
        rw [hrow]
        rfl
      · refine .inr ⟨j + o, j, Nat.le_refl j, by omega, hlimit, ?_⟩
        rw [hrow]
  | succ rows ih =>
      intro j window journal hj hm h
      have hcolumns : min (n - j) w = w := by omega
      rw [Window.sweepRows, hcolumns]
      rcases h.fillRow hb hj w (Nat.le_refl w) with ⟨-, after, hrow, hafter⟩ |
        ⟨o, ho, -, hlimit, hrow⟩
      · rw [hrow]
        exact ih (j + 1) after _ (by omega) (by omega) hafter.next
      · refine .inr ⟨j + o, j, by omega, by omega, hlimit, ?_⟩
        rw [hrow]

/-! ## The whole evaluation -/

theorem outcome_orOverflow (pair : Pair) (value? : Option (Word b)) :
    outcome pair (orOverflow pair value?) = .ofValue? pair value? := by
  cases value? <;> rfl

theorem fst_sweep (pair : Pair) :
    (sweep b pair).1 =
      (sweepRows pair.n pair.width (blank b pair.width) 1 [] pair.m).1.bind
        fun window => window.entry pair.n pair.m := rfl

/-- A sweep ends with the entry of its pair, or with an overflow if that does not fit. -/
theorem outcome_sweep (hb : 0 < b) {pair : Pair} (hbase : pair.isBase = false) :
    outcome pair (sweep b pair).1 =
      .ofValue? pair (Word.ofNat? b (stirling pair.n pair.m)) := by
  obtain ⟨n, m⟩ := pair
  obtain ⟨hm, hn⟩ := Pair.isBase_eq_false_iff.1 hbase
  simp only at hm hn
  obtain ⟨rows, rfl⟩ : ∃ rows, m = rows + 1 := ⟨m - 1, by omega⟩
  have hw : n + 1 = rows + 1 + (n - (rows + 1) + 1) := by omega
  rw [fst_sweep, Pair.width]
  rcases Filled.sweepRows hb hw rows 1 _ [] (Nat.le_refl 1) (Nat.add_comm 1 rows)
    (filled_blank _) with
    ⟨after, hrows, hafter⟩ | ⟨i, k, hcolumn, hdiagonal, hlimit, hrows⟩
  · -- the pair is the entry at the boundary that the shorter last row leaves
    have hentry := hafter.entry hb (Nat.le_add_left 1 rows) (by omega)
    rw [show rows + 1 + (n - (rows + 1) + 1 - 1) = n from by omega] at hentry
    rw [hrows, Except.bind, hentry]
    exact outcome_orOverflow _ _
  · -- some entry that the pair depends on does not fit, so the pair's own does not either
    have hcone := stirling_le_of_cone hcolumn hdiagonal
    rw [hrows, Word.ofNat?_eq_none_iff.2 (Nat.le_trans hlimit hcone)]
    rfl

theorem evaluate_eq_ofTriangle (hb : 0 < b) (n m : Int) :
    (evaluate b n m).outcome = .ofTriangle b n m := by
  unfold evaluate
  cases h : Admission.ofRequest b n m with
  | settled outcome => exact Admission.settled_eq_ofTriangle hb h
  | compute pair =>
      rw [Admission.ofTriangle_of_compute h]
      exact outcome_sweep hb (Admission.of_compute h).2.1

/-- A request is answered by its entry exactly if the entry fits, and is an overflow exactly if
it does not; outside the triangle it is the first condition that fails. -/
theorem evaluate_exact (hb : 0 < b) (n m : Int) :
    (evaluate b n m).outcome = .ofTriangle b n m ∧
    (∀ v, (evaluate b n m).outcome = .ok v ↔
      1 ≤ m ∧ m ≤ n ∧ v.toNat = stirling n.toNat m.toNat) ∧
    (∀ p bits, (evaluate b n m).outcome = .error (.overflow p bits) ↔
      1 ≤ m ∧ m ≤ n ∧ p = ⟨n.toNat, m.toNat⟩ ∧ bits = b ∧
        Word.limit b ≤ stirling n.toNat m.toNat) := by
  rw [evaluate_eq_ofTriangle hb]
  exact ⟨rfl, fun _ => Outcome.ofTriangle_eq_ok_iff, fun _ _ => Outcome.ofTriangle_eq_overflow_iff⟩

/-- The largest byte is an entry of column 2, and the entry below it no longer fits. -/
theorem evaluate_exact_byte :
    (evaluate 8 9 2).outcome = .ok 255 ∧
    (evaluate 8 10 2).outcome = .error (.overflow ⟨10, 2⟩ 8) :=
  ⟨((evaluate_exact (by decide) 9 2).2.1 255).2 (by decide),
    ((evaluate_exact (by decide) 10 2).2.2 ⟨10, 2⟩ 8).2 (by decide)⟩

end Window

end StirlingTriangle
