import StirlingTriangle.Proofs.ColumnOrder
import StirlingTriangle.Proofs.Window.Filling

/-!
# Window.Steps

The checked steps of a sweep, in the order in which they are taken.

* `Logged` is a computation on a window that keeps a list of them.
  `Logged.step` is the only one that takes a checked step, and the only one
  that adds to the list;
* `loggedSweep` is the sweep with such a list, and without the list it is the
  sweep itself (`result_loggedSweep`);
* `x.Performs b todo post`: the steps that `x` takes are those of `todo` in
  their order, up to the first whose entry does not fit; if there is none, `x`
  ends with a value for which `post` holds. Performances can be put together
  (`Logged.Performs.bind`);
* a row takes the steps of its pairs off the borders (`Filled.performs_fillRow`), so
  that the sweep performs the cone of its pair column by column
  (`performs_sweep`).
-/

namespace StirlingTriangle

namespace Window

variable {b : Nat}

/-! ## Computations that keep a list of their steps -/

/-- A computation on a window, and the pairs whose checked steps it takes. -/
structure Logged (α : Type) where
  result : Except Fault α
  steps : List Pair

namespace Logged

variable {α β : Type}

/-- A computation that takes no checked step. -/
def silent (result : Except Fault α) : Logged α := ⟨result, []⟩

/-- The checked step of `pair`. -/
def step (pair : Pair) (left above : Word b) : Logged (Word b) :=
  ⟨orOverflow pair (left.step pair.m above), [pair]⟩

instance : Monad Logged where
  pure value := silent (.ok value)
  bind x f :=
    match x.result with
    | .error fault => ⟨.error fault, x.steps⟩
    | .ok value => ⟨(f value).result, x.steps ++ (f value).steps⟩

theorem result_bind (x : Logged α) (f : α → Logged β) :
    (x >>= f).result = x.result >>= fun value => (f value).result := by
  obtain ⟨result, steps⟩ := x
  cases result <;> rfl

theorem bind_of_ok {x : Logged α} {value : α} (h : x.result = .ok value) (f : α → Logged β) :
    x >>= f = ⟨(f value).result, x.steps ++ (f value).steps⟩ := by
  obtain ⟨result, steps⟩ := x
  cases h
  rfl

theorem bind_of_error {x : Logged α} {fault : Fault} (h : x.result = .error fault)
    (f : α → Logged β) : x >>= f = ⟨.error fault, x.steps⟩ := by
  obtain ⟨result, steps⟩ := x
  cases h
  rfl

end Logged

/-! ## The sweep with a list of its steps -/

def loggedEntry (window : Window b) (i j : Nat) : Logged (Word b) :=
  if i = j ∨ j = 1 then pure 1
  else do
    let left ← .silent (window.lookup (i - 1) (j - 1))
    let above ← .silent (window.lookup (i - 1) j)
    Logged.step ⟨i, j⟩ left above

def loggedFill (window : Window b) (j offset : Nat) : Logged (Window b) := do
  let value ← window.loggedEntry (j + offset) j
  match window.put? offset j value with
  | some window => pure window
  | none => .silent (.error (.outside offset))

def loggedFillRow (window : Window b) (j : Nat) : (columns : Nat) → Logged (Window b)
  | 0 => pure window
  | columns + 1 => do
    let window ← window.loggedFillRow j columns
    window.loggedFill j columns

def loggedSweepRows (n width : Nat) (window : Window b) (j : Nat) :
    (rows : Nat) → Logged (Window b)
  | 0 => pure window
  | rows + 1 => do
    let window ← window.loggedFillRow j (min (n - j) width)
    loggedSweepRows n width window (j + 1) rows

def loggedSweep (b : Nat) (pair : Pair) : Logged (Word b) := do
  let window ← loggedSweepRows pair.n pair.width (blank b pair.width) 1 pair.m
  window.loggedEntry pair.n pair.m

/-! ### Without the list it is the sweep -/

theorem result_loggedEntry (window : Window b) (i j : Nat) :
    (window.loggedEntry i j).result = window.entry i j := by
  unfold loggedEntry entry
  split
  · rfl
  · rw [Logged.result_bind]
    congr 1
    funext left
    rw [Logged.result_bind]
    rfl

theorem result_loggedFill (window : Window b) (j offset : Nat) :
    (window.loggedFill j offset).result = window.fill j offset := by
  rw [loggedFill, fill, Logged.result_bind, result_loggedEntry]
  congr 1
  funext value
  cases window.put? offset j value <;> rfl

theorem result_loggedFillRow (window : Window b) (j columns : Nat) :
    (window.loggedFillRow j columns).result = window.fillRow j columns := by
  induction columns with
  | zero => rfl
  | succ columns ih =>
      rw [loggedFillRow, fillRow, Logged.result_bind, ih]
      simp only [result_loggedFill]

theorem result_loggedSweepRows (n width : Nat) (window : Window b) (j : Nat)
    (journal : List (Event b)) (rows : Nat) :
    (loggedSweepRows n width window j rows).result =
      (sweepRows n width window j journal rows).1 := by
  induction rows generalizing window j journal with
  | zero => rfl
  | succ rows ih =>
      rw [loggedSweepRows, sweepRows, Logged.result_bind, result_loggedFillRow]
      cases window.fillRow j (min (n - j) width) with
      | error fault => rfl
      | ok after => exact ih after (j + 1) _

theorem result_loggedSweep (b : Nat) (pair : Pair) :
    (loggedSweep b pair).result = (sweep b pair).1 := by
  rw [loggedSweep, Logged.result_bind, result_loggedSweepRows _ _ _ _ [], fst_sweep]
  simp only [result_loggedEntry]
  rfl

/-! ## Performing a list of steps -/

/-- The steps of `todo` are taken in their order, up to and including the first whose entry
does not fit. That one is the overflow; without it there is a value as in `post`. -/
structure Logged.Performs (b : Nat) {α : Type} (x : Logged α) (todo : List Pair)
    (post : α → Prop) : Prop where
  steps : x.steps = Pair.fittingPart b todo ++ (Pair.firstUnfit? b todo).toList
  overflow : ∀ q, Pair.firstUnfit? b todo = some q → x.result = .error (.overflow q)
  value : Pair.firstUnfit? b todo = none → ∃ value, x.result = .ok value ∧ post value

namespace Logged

variable {α β : Type} {post : α → Prop} {post' : β → Prop} {s t : List Pair}

/-- The overflow is the first step that does not fit, and there is no other. -/
theorem Performs.result_eq_overflow_iff {x : Logged α} (h : x.Performs b s post) {q : Pair} :
    x.result = .error (.overflow q) ↔ Pair.firstUnfit? b s = some q := by
  refine ⟨fun hresult => ?_, h.overflow q⟩
  cases hs : Pair.firstUnfit? b s with
  | some q' =>
      rw [h.overflow q' hs] at hresult
      cases hresult
      rfl
  | none =>
      obtain ⟨value, hvalue, -⟩ := h.value hs
      rw [hvalue] at hresult
      cases hresult

theorem performs_pure {value : α} (h : post value) :
    (pure value : Logged α).Performs b [] post where
  steps := rfl
  overflow := by
    intro q hq
    cases hq
  value := fun _ => ⟨value, rfl, h⟩

/-- One computation after the other performs one list after the other. -/
theorem Performs.bind {x : Logged α} {f : α → Logged β} (h : x.Performs b s post)
    (hf : ∀ value, post value → (f value).Performs b t post') :
    (x >>= f).Performs b (s ++ t) post' := by
  cases hs : Pair.firstUnfit? b s with
  | some q =>
      have hunfit := Pair.firstUnfit?_append_of_some hs t
      rw [bind_of_error (h.overflow q hs)]
      refine ⟨?_, ?_, ?_⟩
      · rw [hunfit, Pair.fittingPart_append_of_some hs, ← hs]
        exact h.steps
      · rw [hunfit]
        rintro q' hq'
        cases hq'
        rfl
      · rw [hunfit]
        intro hnone
        cases hnone
  | none =>
      obtain ⟨value, hvalue, hpost⟩ := h.value hs
      have hrest := hf value hpost
      have hunfit := Pair.firstUnfit?_append_of_none hs t
      have hsteps := h.steps
      rw [hs, Pair.fittingPart_of_none hs, Option.toList_none, List.append_nil] at hsteps
      rw [bind_of_ok hvalue]
      refine ⟨?_, ?_, ?_⟩
      · rw [hunfit, Pair.fittingPart_append_of_none hs, List.append_assoc, ← hrest.steps, ← hsteps]
      · rw [hunfit]
        exact hrest.overflow
      · rw [hunfit]
        exact hrest.value

/-- A computation without steps only hands on its value. -/
theorem bind_silent (value : α) (f : α → Logged β) : silent (.ok value) >>= f = f value := rfl

/-- The checked step of two true entries. -/
theorem performs_step {p : Pair} {left above : Word b} (hbase : p.isBase = false)
    (hleft : left.toNat = stirling (p.n - 1) (p.m - 1))
    (habove : above.toNat = stirling (p.n - 1) p.m) :
    (step p left above).Performs b [p] fun v => v.toNat = stirling p.n p.m := by
  obtain ⟨hm, hn⟩ := Pair.isBase_eq_false_iff.1 hbase
  have hresult : (step p left above).result = orOverflow p (Word.ofNat? b (stirling p.n p.m)) := by
    rw [step, Word.step_stirling hm hn hleft habove]
  by_cases hfits : p.Fits b
  · have hunfit := Pair.firstUnfit?_singleton_of_fits hfits
    refine ⟨?_, ?_, ?_⟩
    · rw [hunfit, Pair.fittingPart_of_none hunfit]
      rfl
    · rw [hunfit]
      intro q hq
      cases hq
    · intro _
      rw [hresult, Word.ofNat?_eq_some_iff.2 (Word.toNat_ofNat hfits)]
      exact ⟨_, rfl, Word.toNat_ofNat hfits⟩
  · have hunfit := Pair.firstUnfit?_singleton_of_not hfits
    refine ⟨?_, ?_, ?_⟩
    · rw [hunfit, Pair.fittingPart_singleton_of_not hfits]
      rfl
    · rw [hunfit, hresult, Word.ofNat?_eq_none_iff.2 (Nat.not_lt.1 hfits)]
      intro q hq
      cases hq
      rfl
    · rw [hunfit]
      intro hnone
      cases hnone

end Logged

/-! ## What the sweep performs -/

/-- The step that the entry `(j + offset, j)` takes. There is none on the borders. -/
def entrySteps (j offset : Nat) : List Pair :=
  if j ≤ 1 ∨ offset = 0 then [] else [⟨j + offset, j⟩]

/-- The steps that the first `columns` entries of row `j` take. -/
def rowSteps (j columns : Nat) : List Pair :=
  if j ≤ 1 then [] else Pair.below j (columns - 1)

theorem rowSteps_succ (j columns : Nat) :
    rowSteps j (columns + 1) = rowSteps j columns ++ entrySteps j columns := by
  unfold rowSteps entrySteps
  by_cases hj : j ≤ 1
  · simp [hj]
  · cases columns with
    | zero => simp [hj, Pair.below_zero]
    | succ columns => simp [hj, Pair.below_succ, Nat.add_assoc]

/-- All full rows up to row `m` together have the cone of a pair of row `m`. -/
theorem flatMap_rowSteps (k d : Nat) :
    ((List.range' 1 (k + 1)).flatMap fun j => rowSteps j (d + 1)) =
      Pair.coneList ⟨k + 1 + d, k + 1⟩ := by
  have hrow : ∀ j ∈ List.range' 2 k, rowSteps j (d + 1) = Pair.below j d := by
    intro j hj
    rw [List.mem_range'_1] at hj
    rw [rowSteps, if_neg (by omega), Nat.add_sub_cancel]
  rw [List.range'_succ, List.flatMap_cons, Pair.coneList]
  simp only [Nat.add_sub_cancel, Nat.add_sub_cancel_left]
  rw [show rowSteps 1 (d + 1) = [] from rfl, List.nil_append]
  exact List.flatMap_congr hrow

variable {window : Window b} {w j o : Nat}

theorem Filled.performs_entry (h : window.Filled w j o) (hb : 0 < b) (hj : 1 ≤ j) (ho : o < w) :
    (window.loggedEntry (j + o) j).Performs b (entrySteps j o)
      fun v => v.toNat = stirling (j + o) j := by
  unfold loggedEntry entrySteps
  by_cases hborder : j + o = j ∨ j = 1
  · rw [if_pos hborder, if_pos (by omega)]
    refine Logged.performs_pure ?_
    rw [stirling_border (by omega), Word.toNat_one hb]
  · obtain ⟨left, above, hleft, habove, hl, ha⟩ := h.lookup (by omega) (by omega) ho
    have hbase : (Pair.mk (j + o) j).isBase = false :=
      Pair.isBase_eq_false_iff.2 (by simp only; omega)
    rw [if_neg hborder, if_neg (by omega), hleft, Logged.bind_silent, habove, Logged.bind_silent]
    exact Logged.performs_step hbase hl ha

theorem Filled.performs_fill (h : window.Filled w j o) (hb : 0 < b) (hj : 1 ≤ j) (ho : o < w) :
    (window.loggedFill j o).Performs b (entrySteps j o) fun after => after.Filled w j (o + 1) := by
  rw [loggedFill, ← List.append_nil (entrySteps j o)]
  refine (h.performs_entry hb hj ho).bind fun v hv => ?_
  obtain ⟨after, hput⟩ := Option.isSome_iff_exists.1
    (put?_isSome (by rw [h.width]; exact ho) j v : (window.put? o j v).isSome)
  rw [hput]
  exact Logged.performs_pure (h.put? hv hput)

theorem Filled.performs_fillRow (h : window.Filled w j 0) (hb : 0 < b) (hj : 1 ≤ j)
    {columns : Nat} (hcolumns : columns ≤ w) :
    (window.loggedFillRow j columns).Performs b (rowSteps j columns)
      fun after => after.Filled w j columns := by
  induction columns with
  | zero =>
      rw [show rowSteps j 0 = [] from ite_self _]
      exact Logged.performs_pure h
  | succ columns ih =>
      rw [loggedFillRow, rowSteps_succ]
      exact (ih (by omega)).bind fun middle hmiddle => hmiddle.performs_fill hb hj (by omega)

/-- The rows before row `m` are performed as a whole, row `m` up to the slot before the last. -/
theorem Filled.performs_sweepRows {n m : Nat} (h : window.Filled w j 0) (hb : 0 < b)
    (hw : n + 1 = m + w) (hj : 1 ≤ j) {rows : Nat} (hm : j + rows = m) :
    (loggedSweepRows n w window j (rows + 1)).Performs b
      (((List.range' j rows).flatMap fun j => rowSteps j w) ++ rowSteps m (w - 1))
      fun after => after.Filled w m (w - 1) := by
  induction rows generalizing window j with
  | zero =>
      have hcolumns : min (n - j) w = w - 1 := by omega
      obtain rfl : j = m := hm
      rw [loggedSweepRows, hcolumns, List.range'_zero, List.flatMap_nil, List.nil_append,
        ← List.append_nil (rowSteps j (w - 1))]
      exact (h.performs_fillRow hb hj (by omega)).bind fun after hafter =>
        Logged.performs_pure hafter
  | succ rows ih =>
      have hcolumns : min (n - j) w = w := by omega
      rw [loggedSweepRows, hcolumns, List.range'_succ, List.flatMap_cons, List.append_assoc]
      exact (h.performs_fillRow hb hj (Nat.le_refl w)).bind fun after hafter =>
        ih hafter.next (by omega) (by omega)

/-- A sweep performs the cone of its pair column by column. -/
theorem performs_sweep (hb : 0 < b) {p : Pair} (hbase : p.isBase = false) :
    (loggedSweep b p).Performs b p.coneList fun v => v.toNat = stirling p.n p.m := by
  obtain ⟨n, m⟩ := p
  obtain ⟨hm, hn⟩ := Pair.isBase_eq_false_iff.1 hbase
  simp only at hm hn
  obtain ⟨k, rfl⟩ : ∃ k, m = k + 1 := ⟨m - 1, by omega⟩
  obtain ⟨d, rfl⟩ : ∃ d, n = k + 1 + d := ⟨n - (k + 1), by omega⟩
  have hwidth : (Pair.mk (k + 1 + d) (k + 1)).width = d + 1 := by
    rw [Pair.width, Nat.add_sub_cancel_left]
  have hlist : Pair.coneList ⟨k + 1 + d, k + 1⟩ =
      (((List.range' 1 k).flatMap fun j => rowSteps j (d + 1)) ++ rowSteps (k + 1) d) ++
        entrySteps (k + 1) d := by
    rw [← flatMap_rowSteps, List.range'_concat, List.flatMap_append, List.flatMap_singleton,
      List.append_assoc, ← rowSteps_succ, Nat.one_mul, Nat.add_comm 1 k]
  rw [loggedSweep, hwidth, hlist]
  refine ((filled_blank (d + 1)).performs_sweepRows hb rfl (Nat.le_refl 1) (Nat.add_comm 1 k)).bind
    fun after hafter => ?_
  exact hafter.performs_entry hb (by omega) (by omega)

end Window

end StirlingTriangle
