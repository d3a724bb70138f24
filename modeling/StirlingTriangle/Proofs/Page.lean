import StirlingTriangle.Proofs.CrossCheck.History
import StirlingTriangle.Report

/-!
# Page

What is printed of a result, from the triangle over the natural numbers alone.

A `Page` says what is to be shown: a pair and a number of bits, and whether the
triangles are shown, or nothing but the value. No word, memo or window occurs
in its text, in particular not in the number of pairs in the memo and in the
number of values that are compared.

* `Report.shown_exact`: a report without any fault is shown as its page;
* `Page.errorLine_eq`: without a value, the error names the first condition
  that the pair fails, or its overflow.
-/

namespace StirlingTriangle

variable {b : Nat}

structure Page where
  bits : Nat
  n : Int
  m : Int
  /-- The triangles are shown. -/
  table : Bool
  /-- Nothing is shown but the value. -/
  quiet : Bool

namespace Page

variable (page : Page)

def pair : Pair := ⟨page.n.toNat, page.m.toNat⟩

def value : Nat := stirling page.n.toNat page.m.toNat

/-- The entry in row `i` and column `j`, or the mark that it does not fit. -/
def entry (i j : Nat) : String :=
  if stirling i j < Word.limit page.bits then toString (stirling i j) else "overflow"

/-- The number of row `i` in 32 bits with a sign, which is `i` itself before row 2147483648. -/
def rowNumber (i : Nat) : Int := (i + 2147483648) % 4294967296 - 2147483648

def rowLine (i : Nat) : String :=
  s!"n={rowNumber i}: " ++
    "  ".intercalate ((List.range' 1 (min i page.m.toNat)).map (page.entry i)) ++ "\n"

/-- The triangle under a heading. -/
def block (heading : String) : String :=
  "\n" ++ heading ++ "\n" ++ String.join ((List.range' 1 page.n.toNat).map page.rowLine)

/-- With the triangles the pairs off the borders that fit, otherwise the cone of the pair. -/
def cachedPairs : Nat :=
  if page.table then (page.pair.fitting page.bits).card
  else (page.m.toNat - 1) * (page.n.toNat - page.m.toNat)

/-- The entries of the triangle and the value itself. -/
def comparedValues : Nat :=
  if page.table then
    page.n.toNat * page.m.toNat - page.m.toNat * (page.m.toNat - 1) / 2 + 1
  else 1

def summary (time : String) : String :=
  "\n--- Summary ---\n"
    ++ s!"recursive engine: {time}\n"
    ++ s!"iterative engine: {time}\n"
    ++ s!"Cached pairs: {page.cachedPairs}\n"
    ++ s!"Engines agree on {page.comparedValues} values\n"
    ++ s!"Elapsed wall-clock time: {time}\n"

def text (time : String) : String :=
  if page.quiet then s!"{page.value}\n"
  else s!"A({page.n}, {page.m}) = {page.value}\n"
    ++ (if page.table then
        page.block "Calculating with recursion:" ++ page.block "Calculating without recursion:"
      else "")
    ++ page.summary time

/-- The first condition that the pair fails, or its overflow. -/
def errorLine : String :=
  "Error: " ++
    if page.n < 1 then s!"Invalid argument for A({page.n}, {page.m}): " ++ "n < 1"
    else if page.m < 1 then s!"Invalid argument for A({page.n}, {page.m}): " ++ "m < 1"
    else if page.n < page.m then s!"Invalid argument for A({page.n}, {page.m}): " ++ "n < m"
    else s!"A({page.n}, {page.m}) overflows a {page.bits}-bit integer"

end Page

/-! ## A report is shown as its page -/

theorem Word.text_ofNat {k : Nat} (h : k < limit b) :
    Word.text (BitVec.ofNat b k) = toString k := by
  rw [Word.text, toNat_ofNat h]

namespace Page

variable (page : Page)

theorem text_ofTriangle {q : Pair} (hq : q.Valid) :
    (Outcome.ofTriangle page.bits q.n q.m).text = page.entry q.n q.m := by
  rw [Outcome.ofTriangle_of_ok hq.ofInts?_eq, Word.ofNat?, entry]
  by_cases hfits : stirling q.n q.m < Word.limit page.bits
  · rw [if_pos hfits, if_pos hfits]
    exact Word.text_ofNat hfits
  · rw [if_neg hfits, if_neg hfits]
    rfl

/-- The counter of the rows shows the number. -/
theorem rowNumber_eq (i : Nat) : Triangle.rowNumber i = rowNumber i := by
  rw [Triangle.rowNumber, rowNumber, BitVec.toInt_ofNat', Int.bmod_def]
  omega

example : rowNumber 2147483647 = 2147483647 ∧ rowNumber 2147483648 = -2147483648 := by decide

theorem rowLine_ofTriangle (i : Nat) :
    Triangle.rowLine ((List.range' 1 (min i page.m.toNat)).map
      fun j : Nat => Outcome.ofTriangle page.bits i j) i = page.rowLine i := by
  have hentries : ((List.range' 1 (min i page.m.toNat)).map
      fun j : Nat => Outcome.ofTriangle page.bits i j).map Outcome.text =
        (List.range' 1 (min i page.m.toNat)).map (page.entry i) := by
    rw [List.map_map]
    refine List.map_congr_left fun j hj => ?_
    rw [List.mem_range'_1] at hj
    have hvalid : (Pair.mk i j).Valid := ⟨by simp only; omega, by simp only; omega⟩
    exact page.text_ofTriangle hvalid
  rw [Triangle.rowLine, hentries, rowNumber_eq, rowLine]

theorem block_exact (heading : String) :
    Report.block heading (some (.exact page.bits page.pair)) = page.block heading := by
  rw [Report.block, block, Triangle.text, Triangle.exact, Triangle.tabulate, Pair.triangle,
    List.map_map, List.zipIdx_map_range', List.map_map]
  refine congrArg (fun lines => "\n" ++ heading ++ "\n" ++ String.join lines) ?_
  refine List.map_congr_left fun i _ => ?_
  simp only [Function.comp_apply, List.map_map]
  exact page.rowLine_ofTriangle i

/-- The value of a run without any fault is shown as the entry of the triangle. -/
theorem text_value (time : String) (hfits : page.value < Word.limit page.bits) :
    (Run.exact page.bits page.n page.m page.table time).value.text = toString page.value := by
  rw [Run.exact]
  exact Word.text_ofNat hfits

theorem quietText_exact (time : String) (hfits : page.value < Word.limit page.bits) (k : Nat) :
    (Report.exact page.bits page.n page.m page.table time k).quietText = s!"{page.value}\n" := by
  rw [Report.quietText, Report.exact, page.text_value time hfits]
  rfl

theorem headline_exact (time : String) (hfits : page.value < Word.limit page.bits) (k : Nat) :
    (Report.exact page.bits page.n page.m page.table time k).headline =
      s!"A({page.n}, {page.m}) = {page.value}\n" := by
  rw [Report.headline, Report.exact, page.text_value time hfits]
  rfl

theorem comparedValues_exact (time : String) (hn : page.m ≤ page.n) (k : Nat) :
    (Report.exact page.bits page.n page.m page.table time k).comparedValues =
      page.comparedValues := by
  rw [Report.comparedValues, comparedValues, Report.exact, Run.exact]
  cases page.table with
  | false => rfl
  | true =>
      simp only [if_true]
      rw [Triangle.exact, Triangle.cellCount_tabulate, Pair.length_triangle (by omega)]

theorem text_exact (time : String) (k : Nat) :
    (Report.exact page.bits page.n page.m page.table time k).text =
      (Report.exact page.bits page.n page.m page.table time k).headline ++
        if page.table then
          page.block "Calculating with recursion:" ++ page.block "Calculating without recursion:"
        else "" := by
  rw [Report.text, String.append_assoc]
  congr 1
  simp only [Report.exact, Run.exact]
  cases page.table with
  | false => rfl
  | true =>
      simp only [if_true]
      exact congr (congrArg _ (page.block_exact _)) (page.block_exact _)

theorem summary_exact (time : String) (hn : page.m ≤ page.n) :
    (Report.exact page.bits page.n page.m page.table time page.cachedPairs).summary time =
      page.summary time := by
  unfold Report.summary summary
  rw [page.comparedValues_exact time hn]
  simp only [Report.exact, Run.exact]

end Page

/-- A report without any fault is shown as its page, if it has as many entries as the page says. -/
theorem Report.shown_exact (page : Page) (time : String) (hn : page.m ≤ page.n)
    (hfits : page.value < Word.limit page.bits) :
    (Report.exact page.bits page.n page.m page.table time page.cachedPairs).shown page.quiet time =
      page.text time := by
  rw [Report.shown, Page.text]
  cases page.quiet with
  | true =>
      simp only [if_true]
      exact page.quietText_exact time hfits page.cachedPairs
  | false =>
      simp only [Bool.false_eq_true, if_false]
      rw [page.text_exact, page.headline_exact time hfits, page.summary_exact time hn]

/-- A checker with an empty memo finds what the page says, however it divides its work and under
any turns. -/
theorem Checker.result_of_empty (page : Page) (checker : Checker page.bits) (hb : 0 < page.bits)
    (hempty : checker.memo = .empty) (time : String) :
    checker.result page.n page.m page.table time =
      ((Outcome.ofTriangle page.bits page.n page.m).mapError .evaluation).map fun _ =>
        .exact page.bits page.n page.m page.table time page.cachedPairs := by
  have htruthful : checker.memo.Truthful := by
    rw [hempty]
    exact Memo.truthful_empty
  rw [checker.result_eq_of_truthful htruthful hb]
  cases h : Outcome.ofTriangle page.bits page.n page.m with
  | error e => rfl
  | ok v =>
      obtain ⟨hm, hn, hfits⟩ := Outcome.exists_ofTriangle_eq_ok_iff.1 ⟨v, h⟩
      have hkeys :=
        checker.keys_recursiveRun hb hempty (Pair.ofInts?_of_le hm hn) hfits page.table
      have hsize : (checker.recursiveRun page.n page.m page.table).2.memo.size =
          page.cachedPairs := by
        rw [← Memo.card_keys, hkeys, Page.cachedPairs]
        cases page.table with
        | true => rfl
        | false => exact Pair.card_cone _
      rw [hsize]

theorem Page.errorLine_eq (page : Page) {e : EvalError}
    (h : Outcome.ofTriangle page.bits page.n page.m = .error e) :
    "Error: " ++ (Failure.evaluation e).message = page.errorLine := by
  -- the conditions are tried in the same order
  rw [errorLine]
  unfold Outcome.ofTriangle at h
  split at h
  · rename_i hrow
    cases h
    rw [if_pos hrow]
    rfl
  split at h
  · rename_i hrow hcolumn
    cases h
    rw [if_neg hrow, if_pos hcolumn]
    rfl
  split at h
  · rename_i hrow hcolumn horder
    cases h
    rw [if_neg hrow, if_neg hcolumn, if_pos horder]
    rfl
  split at h
  · cases h
  · rename_i hrow hcolumn horder _
    cases h
    have hn : ((page.n.toNat : Nat) : Int) = page.n := Int.toNat_of_nonneg (by omega)
    have hm : ((page.m.toNat : Nat) : Int) = page.m := Int.toNat_of_nonneg (by omega)
    rw [if_neg hrow, if_neg hcolumn, if_neg horder, ← hn, ← hm]
    rfl

end StirlingTriangle
