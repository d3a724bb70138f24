import StirlingTriangle.Memo.Resolve
import StirlingTriangle.Proofs.Memo.Meaning

/-!
# Memo.Resolution

A resolution that nobody interrupts, as a relation with one rule for each way
in which it can go.

* `Resolves memo p result later stores`: resolving `p` on `memo` ends with
  `result`, leaves `later`, and has stored `stores` on the way, in this order;
* every resolution is described by exactly one such outcome
  (`exists_resolves`, `Resolves.unique`), and it is the one that the recursion
  computes (`Resolves.resolve_eq`), so `Resolves.evaluate_eq` says what a
  request that has to be computed answers, leaves behind and reports;
* `Descent.steps` lists the checked steps that the machine takes. They are its
  stores, and the step that is refused if there is one
  (`Descent.steps_resolve`).
-/

namespace StirlingTriangle

variable {b : Nat}

/-- The event that reports a store. -/
def Event.ofStore (store : Pair × Word b) : Event b := .storing store.1 store.2

namespace Memo

/-! ## The rules -/

inductive Resolves :
    Memo b → Pair → Except Pair (Word b) → Memo b → List (Pair × Word b) → Prop where
  /-- A border is 1, and the memo is not asked. -/
  | border {memo : Memo b} {p : Pair} :
      p.isBase = true → Resolves memo p (.ok 1) memo []
  | hit {memo : Memo b} {p : Pair} {v : Word b} :
      p.isBase = false → memo.find? p = some v → Resolves memo p (.ok v) memo []
  /-- A step is refused on behalf of the shifted predecessor. The other one is not tried. -/
  | stopShifted {memo left : Memo b} {p q : Pair} {s : List (Pair × Word b)} :
      p.isBase = false → memo.find? p = none → Resolves memo p.shifted (.error q) left s →
      Resolves memo p (.error q) left s
  /-- A step is refused on behalf of the predecessor above. -/
  | stopColumn {memo left above : Memo b} {p q : Pair} {x : Word b} {s t : List (Pair × Word b)} :
      p.isBase = false → memo.find? p = none → Resolves memo p.shifted (.ok x) left s →
      Resolves left p.column (.error q) above t → Resolves memo p (.error q) above (s ++ t)
  /-- Both predecessors have a value, and the step of the pair itself is refused. -/
  | refused {memo left above : Memo b} {p : Pair} {x y : Word b} {s t : List (Pair × Word b)} :
      p.isBase = false → memo.find? p = none → Resolves memo p.shifted (.ok x) left s →
      Resolves left p.column (.ok y) above t → x.step p.m y = none →
      Resolves memo p (.error p) above (s ++ t)
  | stored {memo left above : Memo b} {p : Pair} {x y v : Word b} {s t : List (Pair × Word b)} :
      p.isBase = false → memo.find? p = none → Resolves memo p.shifted (.ok x) left s →
      Resolves left p.column (.ok y) above t → x.step p.m y = some v →
      Resolves memo p (.ok (above.getOrInsert p v).1) (above.getOrInsert p v).2 (s ++ t ++ [(p, v)])

variable {memo later : Memo b} {p : Pair} {result : Except Pair (Word b)}
  {stores : List (Pair × Word b)}

/-- What is found is held from then on. -/
theorem Resolves.held? {v : Word b} (h : Resolves memo p (.ok v) later stores) :
    later.held? p = some v := by
  cases h with
  | border hbase => exact held?_base hbase
  | hit hbase hfind => exact (held?_inner hbase).trans hfind
  | stored hbase => exact (held?_inner hbase).trans (find?_getOrInsert_self _ _ _)

/-- What is held is found at once. -/
theorem resolves_of_held? {v : Word b} (h : memo.held? p = some v) :
    Resolves memo p (.ok v) memo [] := by
  cases hbase : p.isBase with
  | true =>
      rw [held?_base hbase] at h
      cases h
      exact .border hbase
  | false => exact .hit hbase ((held?_inner hbase).symm.trans h)

/-! ## The recursion follows the rules -/

/-- The rules describe what the recursion computes. -/
theorem Resolves.resolve_eq (h : Resolves memo p result later stores) :
    memo.resolve p = { value := result, memo := later, journal := stores.map Event.ofStore } := by
  induction h with
  | border hbase => rw [resolve, if_pos hbase]; rfl
  | hit hbase hfind => rw [resolve, if_neg (Bool.eq_false_iff.1 hbase), hfind]; rfl
  | stopShifted hbase hmiss _ ih =>
      rw [resolve, if_neg (Bool.eq_false_iff.1 hbase), hmiss]
      simp only [ih]
  | stopColumn hbase hmiss _ _ ih ih' =>
      rw [resolve, if_neg (Bool.eq_false_iff.1 hbase), hmiss]
      simp only [ih, ih', List.map_append]
  | refused hbase hmiss _ _ hstep ih ih' =>
      rw [resolve, if_neg (Bool.eq_false_iff.1 hbase), hmiss]
      simp only [ih, ih', hstep, List.map_append]
  | stored hbase hmiss _ _ hstep ih ih' =>
      rw [resolve, if_neg (Bool.eq_false_iff.1 hbase), hmiss]
      simp only [ih, ih', hstep, List.map_append]
      rfl

/-- Some rule applies to every pair and memo. -/
theorem exists_resolves (memo : Memo b) (p : Pair) :
    ∃ result later stores, Resolves memo p result later stores := by
  -- both predecessors lie in the row before
  induction hn : p.n using Nat.strongRecOn generalizing memo p with
  | _ n ih =>
    subst hn
    cases hbase : p.isBase with
    | true => exact ⟨_, _, _, .border hbase⟩
    | false =>
        cases hfind : memo.find? p with
        | some v => exact ⟨_, _, _, .hit hbase hfind⟩
        | none =>
            have hn := (Pair.isBase_eq_false_iff.1 hbase).2
            have hrow : p.n - 1 < p.n := by omega
            obtain ⟨left?, left, s, hleft⟩ := ih (p.n - 1) hrow memo p.shifted rfl
            cases left? with
            | error q => exact ⟨_, _, _, .stopShifted hbase hfind hleft⟩
            | ok x =>
                obtain ⟨above?, above, t, habove⟩ := ih (p.n - 1) hrow left p.column rfl
                cases above? with
                | error q => exact ⟨_, _, _, .stopColumn hbase hfind hleft habove⟩
                | ok y =>
                    cases hstep : x.step p.m y with
                    | none => exact ⟨_, _, _, .refused hbase hfind hleft habove hstep⟩
                    | some v => exact ⟨_, _, _, .stored hbase hfind hleft habove hstep⟩

theorem Resolves.unique {result' : Except Pair (Word b)} {later' : Memo b}
    {stores' : List (Pair × Word b)} (h : Resolves memo p result later stores)
    (h' : Resolves memo p result' later' stores') : result = result' ∧ later = later' := by
  have heq := h.resolve_eq.symm.trans h'.resolve_eq
  exact ⟨congrArg Descent.Result.value heq, congrArg Descent.Result.memo heq⟩

/-- The machine ends with the result of the resolution. -/
theorem Resolves.value_run (h : Resolves memo p result later stores) :
    ((Descent.resolve p []).run memo []).value = result := by
  rw [Descent.run_resolve, h.resolve_eq]
  cases result <;> simp [Descent.proceed, Descent.run, Descent.step]

theorem Resolves.evaluate_eq {n m : Int} (hadmission : Admission.ofRequest b n m = .compute p)
    (h : Resolves memo p result later stores) :
    memo.evaluate n m =
      { outcome := Descent.outcome p result
        memo := later
        journal := .descentStarted p memo.size :: stores.map Event.ofStore } := by
  rw [evaluate_compute hadmission, h.resolve_eq]

end Memo

/-! ## The checked steps of a descent -/

namespace Descent

/-- The pair whose checked step the next transition takes, if it takes one. -/
def stepping? : Descent b → Option Pair
  | resume _ (.column pair _ :: _) => some pair
  | _ => none

/-- The pairs whose checked steps are taken until the descent has finished, in order. -/
def steps (d : Descent b) (memo : Memo b) : List Pair :=
  match d with
  | finished _ => []
  | resolve pair frames =>
    let next := (resolve pair frames).step memo
    (resolve pair frames).stepping?.toList ++ steps next.1 next.2.1
  | resume value frames =>
    let next := (resume value frames).step memo
    (resume value frames).stepping?.toList ++ steps next.1 next.2.1
termination_by d.cost
decreasing_by
  · have := two_le_rowCost pair.n
    exact cost_step_lt (by simp only [cost]; omega) memo
  · exact cost_step_lt (by simp only [cost]; omega) memo

theorem steps_border {memo : Memo b} {p : Pair} (hbase : p.isBase = true)
    (frames : List (Frame b)) :
    (resolve p frames).steps memo = (resume 1 frames).steps memo := by
  rw [steps]
  simp [stepping?, step_border hbase]

theorem steps_hit {memo : Memo b} {p : Pair} {v : Word b} (hbase : p.isBase = false)
    (hfind : memo.find? p = some v) (frames : List (Frame b)) :
    (resolve p frames).steps memo = (resume v frames).steps memo := by
  rw [steps]
  simp [stepping?, step_hit hbase hfind]

theorem steps_miss {memo : Memo b} {p : Pair} (hbase : p.isBase = false)
    (hmiss : memo.find? p = none) (frames : List (Frame b)) :
    (resolve p frames).steps memo = (resolve p.shifted (.shifted p :: frames)).steps memo := by
  rw [steps]
  simp [stepping?, step_miss hbase hmiss]

theorem steps_shifted (memo : Memo b) (p : Pair) (x : Word b) (frames : List (Frame b)) :
    (resume x (.shifted p :: frames)).steps memo =
      (resolve p.column (.column p x :: frames)).steps memo := by
  rw [steps.eq_3]
  rfl

theorem steps_refused {memo : Memo b} {p : Pair} {x y : Word b} (hstep : x.step p.m y = none)
    (frames : List (Frame b)) : (resume y (.column p x :: frames)).steps memo = [p] := by
  rw [steps]
  simp [stepping?, step_refused hstep, steps]

theorem steps_stored {memo : Memo b} {p : Pair} {x y v : Word b} (hstep : x.step p.m y = some v)
    (frames : List (Frame b)) :
    (resume y (.column p x :: frames)).steps memo =
      p :: (resume (memo.getOrInsert p v).1 frames).steps (memo.getOrInsert p v).2 := by
  rw [steps]
  simp [stepping?, step_stored hstep]

/-- The pair whose step has been refused, or the steps that are still taken for the frames. -/
def stepsAfter (later : Memo b) (frames : List (Frame b)) : Except Pair (Word b) → List Pair
  | .ok v => (resume v frames).steps later
  | .error refused => [refused]

/-- On behalf of a pair, a descent takes the steps whose results are stored and then the one
that is refused, or it goes on with its frames. -/
theorem steps_resolve {memo later : Memo b} {p : Pair} {result : Except Pair (Word b)}
    {stores : List (Pair × Word b)} (h : memo.Resolves p result later stores)
    (frames : List (Frame b)) :
    (resolve p frames).steps memo = stores.map Prod.fst ++ stepsAfter later frames result := by
  induction h generalizing frames with
  | border hbase => exact steps_border hbase frames
  | hit hbase hfind => exact steps_hit hbase hfind frames
  | stopShifted hbase hmiss _ ih => rw [steps_miss hbase hmiss, ih]; rfl
  | stopColumn hbase hmiss _ _ ih ih' =>
      rw [steps_miss hbase hmiss, ih, stepsAfter, steps_shifted, ih', List.map_append,
        List.append_assoc]
      rfl
  | refused hbase hmiss _ _ hstep ih ih' =>
      rw [steps_miss hbase hmiss, ih, stepsAfter, steps_shifted, ih', stepsAfter,
        steps_refused hstep, List.map_append, List.append_assoc]
      rfl
  | stored hbase hmiss _ _ hstep ih ih' =>
      rw [steps_miss hbase hmiss, ih, stepsAfter, steps_shifted, ih', stepsAfter,
        steps_stored hstep]
      simp [stepsAfter]

/-- The pair whose step is refused, if there is one. -/
def refused : Except Pair (Word b) → List Pair
  | .ok _ => []
  | .error q => [q]

theorem stepsAfter_nil (later : Memo b) (result : Except Pair (Word b)) :
    stepsAfter later [] result = refused result := by
  cases result with
  | ok v =>
      rw [stepsAfter, steps]
      simp [stepping?, step, steps, refused]
  | error q => rfl

end Descent

end StirlingTriangle
