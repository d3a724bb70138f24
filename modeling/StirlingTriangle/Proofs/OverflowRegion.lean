import StirlingTriangle.Proofs.CrossCheck.History
import StirlingTriangle.Proofs.Memo.Repetition

/-!
# OverflowRegion

Where the overflows lie. They form a region of the triangle that reaches down
every column and every diagonal which it has entered.

* `Answers b n m x`: one of the two ways of evaluating answers the request with
  `x`, the memoized one after any requests before;
* answers are monotone along the dependencies (`Outcome.ofTriangle_mono`): if
  there is a value, what it depends on has a value too, and not a larger one;
* `t.OverflowsSpread`: in the triangle `t` an overflow off the borders is
  followed by overflows only, in its column and on its diagonal;
* `overflow_region` states both, for every answer and every triangle.
-/

namespace StirlingTriangle

variable {b : Nat}

/-! ## Answers -/

def Outcome.IsOverflow (x : Outcome b) : Prop := ∃ p bits, x = .error (.overflow p bits)

/-- One of the two ways of evaluating answers the request `(n, m)` with this outcome. -/
inductive Answers (b : Nat) (n m : Int) : Outcome b → Prop where
  | windowed : Answers b n m (Window.evaluate b n m).outcome
  /-- The memo was empty at first and has been used for other requests since. -/
  | memoized (requests : List (Int × Int)) :
      Answers b n m ((Memo.empty.after requests).evaluate n m).outcome

theorem Memo.truthful_after_empty (requests : List (Int × Int)) :
    ((Memo.empty : Memo b).after requests).Truthful := by
  refine Session.truthful_run_snd truthful_empty ?_
  intro call hcall
  obtain ⟨r, -, rfl⟩ := List.mem_map.1 hcall
  trivial

/-- There is one answer to a request, however it is found. -/
theorem Answers.eq_ofTriangle {n m : Int} {x : Outcome b} (h : Answers b n m x) (hb : 0 < b) :
    x = .ofTriangle b n m := by
  cases h with
  | windowed => exact Window.evaluate_eq_ofTriangle hb n m
  | memoized requests =>
      have htruthful := Memo.truthful_after_empty (b := b) requests
      rw [Memo.outcome_evaluate]
      exact htruthful.answer_eq hb n m

/-! ## Monotone along the dependencies -/

theorem Outcome.isOverflow_ofTriangle_iff {n m : Int} :
    (ofTriangle b n m).IsOverflow ↔
      1 ≤ m ∧ m ≤ n ∧ Word.limit b ≤ stirling n.toNat m.toNat := by
  constructor
  · rintro ⟨p, bits, h⟩
    obtain ⟨hm, hn, -, -, hlimit⟩ := ofTriangle_eq_overflow_iff.1 h
    exact ⟨hm, hn, hlimit⟩
  · rintro ⟨hm, hn, hlimit⟩
    exact ⟨_, _, ofTriangle_eq_overflow_iff.2 ⟨hm, hn, rfl, rfl, hlimit⟩⟩

/-- Of two pairs of the triangle the one with the smaller entry has a value if the other has
one, and overflows only if the other does. -/
theorem Outcome.ofTriangle_mono {n m n' m' : Int} (hm : 1 ≤ m) (hn : m ≤ n) (hm' : 1 ≤ m')
    (hn' : m' ≤ n') (h : stirling n.toNat m.toNat ≤ stirling n'.toNat m'.toNat) :
    ((ofTriangle b n m).IsOverflow → (ofTriangle b n' m').IsOverflow) ∧
      ∀ v, ofTriangle b n' m' = .ok v → ∃ u, ofTriangle b n m = .ok u ∧ u.toNat ≤ v.toNat := by
  constructor
  · intro hover
    have hlimit := (isOverflow_ofTriangle_iff.1 hover).2.2
    exact isOverflow_ofTriangle_iff.2 ⟨hm', hn', Nat.le_trans hlimit h⟩
  · intro v hv
    have hvalue := (ofTriangle_eq_ok_iff.1 hv).2.2
    have hfits : stirling n.toNat m.toNat < Word.limit b :=
      Nat.lt_of_le_of_lt (h.trans_eq hvalue.symm) v.toNat_lt_limit
    have hu := Word.toNat_ofNat hfits
    exact ⟨_, ofTriangle_eq_ok_iff.2 ⟨hm, hn, hu⟩, by rw [hu, hvalue]; exact h⟩

/-! ## Triangles -/

/-- Below an overflow off the borders, in its column and on its diagonal, there are only
overflows. -/
def Triangle.OverflowsSpread (t : Triangle b) : Prop :=
  ∀ q x, (q, x) ∈ t.cells → q.isBase = false → x.IsOverflow → ∀ k y,
    ((⟨q.n + k, q.m⟩, y) ∈ t.cells → y.IsOverflow) ∧
      ((⟨q.n + k, q.m + k⟩, y) ∈ t.cells → y.IsOverflow)

namespace Triangle

/-- A cell that depends on an overflow is one. -/
theorem isOverflow_of_cone {p q r : Pair} {x y : Outcome b} (hq : (q, x) ∈ (exact b p).cells)
    (hr : (r, y) ∈ (exact b p).cells) (hcolumn : q.m ≤ r.m) (hdiagonal : q.n + r.m ≤ r.n + q.m)
    (hover : x.IsOverflow) : y.IsOverflow := by
  have hcells := (faithful_exact (b := b) p).mem_cells
  obtain ⟨hqin, rfl⟩ := (hcells q x).1 hq
  obtain ⟨hrin, rfl⟩ := (hcells r y).1 hr
  have hle : stirling (q.n : Int).toNat (q.m : Int).toNat ≤
      stirling (r.n : Int).toNat (r.m : Int).toNat := stirling_le_of_cone hcolumn hdiagonal
  exact (Outcome.ofTriangle_mono (by omega) (by omega) (by omega) (by omega) hle).1 hover

theorem overflowsSpread_exact (p : Pair) : (exact b p).OverflowsSpread := by
  intro q x hq _ hover k y
  constructor
  · intro hr
    exact isOverflow_of_cone hq hr (Nat.le_refl q.m) (by simp only; omega) hover
  · intro hr
    exact isOverflow_of_cone hq hr (Nat.le_add_right q.m k) (by simp only; omega) hover

end Triangle

namespace Checker

variable {n m : Int} {table : Bool} {v : Word b} {t : Triangle b}

theorem exact_of_map_eq_ok
    (h : ((Outcome.ofTriangle b n m).map fun value =>
      (value, if table then some (Triangle.exact b ⟨n.toNat, m.toNat⟩) else none)) =
        .ok (v, some t)) : t = .exact b ⟨n.toNat, m.toNat⟩ := by
  cases hvalue : Outcome.ofTriangle b n m with
  | error e =>
      rw [hvalue] at h
      cases h
  | ok u =>
      rw [hvalue] at h
      cases table with
      | false => cases h
      | true =>
          cases h
          rfl

/-- On a truthful memo the memoized triangle is the one over the natural numbers. -/
theorem triangle_of_recursiveRun {checker : Checker b} (h : checker.memo.Truthful) (hb : 0 < b)
    (hrun : (checker.recursiveRun n m table).1 = .ok (v, some t)) :
    t = .exact b ⟨n.toNat, m.toNat⟩ := by
  rw [fst_recursiveRun] at hrun
  simp only [h.answer_eq hb] at hrun
  exact exact_of_map_eq_ok hrun

theorem triangle_of_iterativeRun (hb : 0 < b)
    (hrun : iterativeRun b n m table = .ok (v, some t)) :
    t = .exact b ⟨n.toNat, m.toNat⟩ := by
  rw [iterativeRun_eq hb] at hrun
  exact exact_of_map_eq_ok hrun

end Checker

/-! ## The region -/

/-- If a pair off the borders overflows, so do the two pairs that are computed from it; if one
of those has a value, the pair has one that is not larger. So in every triangle that a checker
builds, after any requests on a memo that was empty at first, overflows reach all the way down
their columns and their diagonals. Whatever the memo holds, they do so in every report. -/
theorem overflow_region (hb : 0 < b) :
    (∀ n m : Int, 2 ≤ m → m < n → ∀ x, Answers b n m x →
      ∀ y, Answers b (n + 1) m y ∨ Answers b (n + 1) (m + 1) y →
        (x.IsOverflow → y.IsOverflow) ∧
          ∀ v, y = .ok v → ∃ u, x = .ok u ∧ u.toNat ≤ v.toNat) ∧
    (∀ checker : Checker b, checker.memo = .empty →
      ∀ history level turns n m table v t,
        (Checker.recursiveRun ⟨(checker.after history).memo, level, turns⟩ n m table).1 =
          .ok (v, some t) → t.OverflowsSpread) ∧
    (∀ n m table v t, Checker.iterativeRun b n m table = .ok (v, some t) →
      t.OverflowsSpread) ∧
    (∀ (checker : Checker b) n m report, (checker.execute n m true).1 = .ok report →
      ∃ t, report.recursive.triangle = some t ∧ report.iterative.triangle = some t ∧
        t.OverflowsSpread) := by
  refine ⟨?_, ?_, ?_, ?_⟩
  · intro n m hm hn x hx y hy
    have hbelow : stirling n.toNat m.toNat ≤ stirling (n + 1).toNat m.toNat :=
      stirling_le_of_cone (Nat.le_refl m.toNat) (by omega)
    have hdiagonal : stirling n.toNat m.toNat ≤ stirling (n + 1).toNat (m + 1).toNat :=
      stirling_le_of_cone (by omega) (by omega)
    obtain rfl := hx.eq_ofTriangle hb
    rcases hy with hy | hy
    · obtain rfl := hy.eq_ofTriangle hb
      exact Outcome.ofTriangle_mono (by omega) (by omega) (by omega) (by omega) hbelow
    · obtain rfl := hy.eq_ofTriangle hb
      exact Outcome.ofTriangle_mono (by omega) (by omega) (by omega) (by omega) hdiagonal
  · intro checker hempty history level turns n m table v t hrun
    have htruthful : (⟨(checker.after history).memo, level, turns⟩ : Checker b).memo.Truthful :=
      checker.truthful_after hb hempty history
    rw [Checker.triangle_of_recursiveRun htruthful hb hrun]
    exact Triangle.overflowsSpread_exact _
  · intro n m table v t hrun
    rw [Checker.triangle_of_iterativeRun hb hrun]
    exact Triangle.overflowsSpread_exact _
  · intro checker n m report hreport
    rw [Checker.fst_execute hb] at hreport
    obtain ⟨rfl, -⟩ := checker.exact_of_result_eq_ok hreport
    exact ⟨_, rfl, rfl, Triangle.overflowsSpread_exact _⟩

/-- In bytes `(7, 4)` overflows in a window, and then `(8, 4)` and `(8, 5)` do so on a memo that has
already been used for `(7, 4)` and `(8, 3)`. -/
theorem overflow_region_byte :
    ((Memo.empty.after [(7, 4), (8, 3)]).evaluate 8 4 : Memo.Evaluation 8).outcome.IsOverflow ∧
    ((Memo.empty.after [(7, 4), (8, 3)]).evaluate 8 5 : Memo.Evaluation 8).outcome.IsOverflow := by
  have hover : (Window.evaluate 8 7 4).outcome.IsOverflow := by
    rw [Window.evaluate_eq_ofTriangle (by decide)]
    exact Outcome.isOverflow_ofTriangle_iff.2 (by decide)
  have hregion := (overflow_region (b := 8) (by decide)).1 7 4 (by decide) (by decide) _ .windowed
  exact ⟨(hregion _ (.inl (.memoized [(7, 4), (8, 3)]))).1 hover,
    (hregion _ (.inr (.memoized [(7, 4), (8, 3)]))).1 hover⟩

end StirlingTriangle
