import Mathlib.Data.List.Chain
import StirlingTriangle.Proofs.Memo.Resolution
import StirlingTriangle.Proofs.Memo.Suspension

/-!
# Memo.Safety

Why a descent never leaves the triangle, how deep it can get, that it ends
whatever the memo holds, and that a refused step is the last thing it does.

* `d.action?` is what the next transition asks of the memo, or the step that
  is refused in it. A transition has nothing else to do with the memo
  (`snd_step`, `fst_step_congr`);
* `Reaches start root k actions d memo`: the descent for `root` has come to `d`
  by `k` transitions, in which it has done `actions`, and the memo is `memo` by
  then. Others may have stored whatever they like on the way;
* `AtCall root q frames` is what holds whenever `q` is asked for while the
  callers in `frames` wait. It is kept from a caller to either of its
  predecessors (`AtCall.shifted`, `AtCall.column`);
* a descent pays for each transition from the cost of its root
  (`Reaches.add_cost_le`), and a refused step is the last of its actions
  (`Reaches.refuse_last`);
* `memo.actions p` lists what the recursion does, in which a refusal is handed
  from caller to caller. A descent that nobody interrupts does the same
  (`passes_resolved`);
* `descent_safe` puts this together.
-/

namespace StirlingTriangle

variable {b : Nat}

namespace Descent

/-! ## What a transition does to the memo -/

inductive Action (b : Nat) where
  /-- The entry of `pair` is read. -/
  | find (pair : Pair)
  /-- `value` is stored for `pair` unless it has an entry, and its entry is read. -/
  | store (pair : Pair) (value : Word b)
  /-- The step of `pair` fails. The memo is left alone. -/
  | refuse (pair : Pair)
deriving DecidableEq, Repr

/-- What the next transition does, if it is not a mere change of frames. -/
def action? : Descent b → Option (Action b)
  | resolve pair _ => if pair.isBase then none else some (.find pair)
  | resume above (.column pair left :: _) =>
    match left.step pair.m above with
    | none => some (.refuse pair)
    | some value => some (.store pair value)
  | _ => none

/-- The answer of the memo, and the memo after it. -/
def Action.perform (memo : Memo b) : Option (Action b) → Option (Word b) × Memo b
  | some (.find pair) => (memo.find? pair, memo)
  | some (.store pair value) =>
    let (stored, memo) := memo.getOrInsert pair value
    (some stored, memo)
  | some (.refuse _) => (none, memo)
  | none => (none, memo)

section Transitions

variable {p : Pair} {x y v : Word b}

theorem action?_border (hbase : p.isBase = true) (frames : List (Frame b)) :
    (resolve p frames).action? = none := by
  rw [action?, if_pos hbase]

theorem action?_inner (hbase : p.isBase = false) (frames : List (Frame b)) :
    (resolve p frames).action? = some (.find p) := by
  rw [action?, if_neg (Bool.eq_false_iff.1 hbase)]

theorem action?_refused (hstep : x.step p.m y = none) (frames : List (Frame b)) :
    (resume y (.column p x :: frames)).action? = some (.refuse p) := by
  rw [action?, hstep]

theorem action?_stored (hstep : x.step p.m y = some v) (frames : List (Frame b)) :
    (resume y (.column p x :: frames)).action? = some (.store p v) := by
  rw [action?, hstep]

end Transitions

/-- The memo after a transition is the one that its action leaves. -/
theorem snd_step (d : Descent b) (memo : Memo b) :
    (d.step memo).2.1 = (Action.perform memo d.action?).2 := by
  match d with
  | resolve q frames =>
      cases hbase : q.isBase with
      | true => rw [step_border hbase, action?_border hbase, Action.perform]
      | false =>
          rw [action?_inner hbase, Action.perform]
          cases hfind : memo.find? q with
          | none => rw [step_miss hbase hfind]
          | some v => rw [step_hit hbase hfind]
  | resume v [] => rfl
  | resume left (.shifted r :: frames) => rfl
  | resume above (.column r left :: frames) =>
      cases hstep : left.step r.m above with
      | none => rw [step_refused hstep, action?_refused hstep, Action.perform]
      | some v => rw [step_stored hstep, action?_stored hstep, Action.perform]
  | finished result => rfl

/-- On memos that give the same answer, a transition goes on in the same way. -/
theorem fst_step_congr (d : Descent b) {memo other : Memo b}
    (h : (Action.perform memo d.action?).1 = (Action.perform other d.action?).1) :
    (d.step memo).1 = (d.step other).1 := by
  match d with
  | resolve q frames =>
      cases hbase : q.isBase with
      | true => rw [step_border hbase, step_border hbase]
      | false =>
          rw [action?_inner hbase] at h
          have hfind : memo.find? q = other.find? q := h
          cases hother : other.find? q with
          | none => rw [step_miss hbase (hfind.trans hother), step_miss hbase hother]
          | some v => rw [step_hit hbase (hfind.trans hother), step_hit hbase hother]
  | resume v [] => rfl
  | resume left (.shifted r :: frames) => rfl
  | resume above (.column r left :: frames) =>
      cases hstep : left.step r.m above with
      | none => rw [step_refused hstep, step_refused hstep]
      | some v =>
          rw [action?_stored hstep] at h
          have hstored : (memo.getOrInsert r v).1 = (other.getOrInsert r v).1 := Option.some.inj h
          rw [step_stored hstep, step_stored hstep, hstored]
  | finished result => rfl

/-- A transition in which a step is refused finishes the descent. -/
theorem fst_step_of_refuse {d : Descent b} {r : Pair} (h : d.action? = some (.refuse r))
    (memo : Memo b) : (d.step memo).1 = finished (.error r) := by
  match d with
  | resolve q frames =>
      rw [action?] at h
      split at h <;> cases h
  | resume v [] => cases h
  | resume left (.shifted q :: frames) => cases h
  | resume above (.column q left :: frames) =>
      cases hstep : left.step q.m above with
      | none =>
          rw [action?_refused hstep] at h
          cases h
          rw [step_refused hstep]
      | some v =>
          rw [action?_stored hstep] at h
          cases h
  | finished result => cases h

/-! ## Where a descent comes to -/

/-- Transitions without an interruption lead from `d` to `last`, and do `actions`. -/
inductive Passes : Descent b → Memo b → List (Action b) → Descent b → Memo b → Prop where
  | stay {d : Descent b} {memo : Memo b} : Passes d memo [] d memo
  | step {d next last : Descent b} {memo middle later : Memo b} {event : Option (Event b)}
      {actions : List (Action b)} :
      d.step memo = (next, middle, event) → Passes next middle actions last later →
      Passes d memo (d.action?.toList ++ actions) last later

/-- The descent for `root`, begun on `start`, has come to `d` by `k` transitions, has done
`actions`, and finds `memo` there. -/
inductive Reaches (start : Memo b) (root : Pair) :
    Nat → List (Action b) → Descent b → Memo b → Prop where
  | start : Reaches start root 0 [] (resolve root []) start
  | step {k : Nat} {actions : List (Action b)} {d : Descent b} {memo : Memo b} :
      Reaches start root k actions d memo →
      Reaches start root (k + 1) (actions ++ d.action?.toList) (d.step memo).1 (d.step memo).2.1
  /-- Others store between two transitions. -/
  | others {k : Nat} {actions : List (Action b)} {d : Descent b} {memo later : Memo b} :
      Reaches start root k actions d memo → memo.Grows later →
      Reaches start root k actions d later

variable {start memo later : Memo b} {root q r : Pair} {k : Nat} {actions : List (Action b)}
  {d : Descent b} {frames : List (Frame b)}

theorem Passes.trans {middle last : Descent b} {between : Memo b} {more : List (Action b)}
    (h : Passes d memo actions middle between) (h' : Passes middle between more last later) :
    Passes d memo (actions ++ more) last later := by
  induction h with
  | stay => exact h'
  | step hstep _ ih =>
      rw [List.append_assoc]
      exact .step hstep (ih h')

theorem Reaches.next {next : Descent b} {event : Option (Event b)}
    (h : Reaches start root k actions d memo) (hstep : d.step memo = (next, later, event)) :
    Reaches start root (k + 1) (actions ++ d.action?.toList) next later := by
  have hnext := h.step
  rwa [hstep] at hnext

/-- What is passed without an interruption is reached. -/
theorem Reaches.passes {last : Descent b} {more : List (Action b)}
    (h : Reaches start root k actions d memo) (hpasses : Passes d memo more last later) :
    ∃ j, Reaches start root j (actions ++ more) last later := by
  induction hpasses generalizing k actions with
  | stay =>
      rw [List.append_nil]
      exact ⟨k, h⟩
  | step hstep _ ih =>
      rw [← List.append_assoc]
      exact ih (h.next hstep)

theorem Reaches.grows (h : Reaches start root k actions d memo) : start.Grows memo := by
  induction h with
  | start => exact .refl start
  | @step _ _ d memo _ ih => exact ih.trans (grows_step d memo)
  | others _ hgrows ih => exact ih.trans hgrows

theorem Reaches.sound (h : Reaches start root k actions d memo) : Sound start memo root d := by
  induction h with
  | start => exact Suspended.root
  | step h ih => exact ih.sound_step h.grows
  | others _ hgrows ih => exact ih.mono hgrows

/-! ## What holds when a pair is asked for -/

/-- The pair that waits for its predecessor. -/
def Frame.pair : Frame b → Pair
  | .shifted pair => pair
  | .column pair _ => pair

/-- Both predecessors can be formed, and lie in the triangle. -/
structure HasPredecessors (q : Pair) : Prop where
  rowAbove : 1 ≤ q.n
  columnBefore : 1 ≤ q.m
  shifted : q.shifted.Valid
  column : q.column.Valid

/-- What holds when `q` is asked for on behalf of `root`, while the callers in `frames` wait, the
innermost first. -/
structure AtCall (root q : Pair) (frames : List (Frame b)) : Prop where
  positive : 1 ≤ q.m
  inside : q.m ≤ q.n
  columns : q.m ≤ root.m
  diagonals : (q.n : Int) - q.m ≤ root.n - root.m
  /-- Each pair lies in the row before that of its caller. -/
  nested : (q :: frames.map Frame.pair).IsChain fun callee caller => callee.n + 1 = caller.n
  /-- The outermost call is the one for the root. -/
  outermost : (q :: frames.map Frame.pair).getLast? = some root
  depth : frames.length + 2 ≤ root.n
  predecessors : q.isBase = false → HasPredecessors q

theorem hasPredecessors (hbase : q.isBase = false) : HasPredecessors q where
  rowAbove := by
    have := Pair.isBase_eq_false_iff.1 hbase
    omega
  columnBefore := (Pair.valid_of_isBase_eq_false hbase).1
  shifted := Pair.valid_shifted hbase
  column := Pair.valid_column hbase

theorem atCall_root (hbase : root.isBase = false) :
    AtCall root root ([] : List (Frame b)) where
  positive := (Pair.valid_of_isBase_eq_false hbase).1
  inside := (Pair.valid_of_isBase_eq_false hbase).2
  columns := Nat.le_refl root.m
  diagonals := Int.le_refl _
  nested := List.isChain_singleton root
  outermost := rfl
  depth := by
    have := Pair.isBase_eq_false_iff.1 hbase
    simp only [List.length_nil]
    omega
  predecessors := hasPredecessors

/-- The frames below the caller lead from its row to that of the root, one row each. -/
theorem AtCall.row_add_length (h : AtCall root q frames) : q.n + frames.length = root.n := by
  have hnested := h.nested
  have houtermost := h.outermost
  clear h
  induction frames generalizing q with
  | nil =>
      cases houtermost
      rfl
  | cons frame frames ih =>
      rw [List.map_cons, List.isChain_cons_cons] at hnested
      have hrest := ih hnested.2 (by simpa using houtermost)
      rw [List.length_cons]
      omega

/-- A caller off the borders may ask for a pair of the row before, if it goes neither to the
right nor to another diagonal further down. -/
theorem AtCall.call {callee : Pair} (frame : Frame b) (h : AtCall root frame.pair frames)
    (hbase : frame.pair.isBase = false) (hvalid : callee.Valid)
    (hrow : callee.n + 1 = frame.pair.n) (hcolumn : callee.m ≤ frame.pair.m)
    (hdiagonal : (callee.n : Int) - callee.m ≤ frame.pair.n - frame.pair.m) :
    AtCall root callee (frame :: frames) where
  positive := hvalid.1
  inside := hvalid.2
  columns := hcolumn.trans h.columns
  diagonals := Int.le_trans hdiagonal h.diagonals
  nested := List.isChain_cons_cons.2 ⟨hrow, h.nested⟩
  outermost := List.getLast?_cons_cons.trans h.outermost
  depth := by
    -- the caller lies in row 3 or below
    have hinner := Pair.isBase_eq_false_iff.1 hbase
    have hdepth := h.row_add_length
    rw [List.length_cons]
    omega
  predecessors := hasPredecessors

theorem AtCall.shifted (h : AtCall root r frames) (hbase : r.isBase = false) :
    AtCall root r.shifted (.shifted r :: frames) := by
  obtain ⟨hm, hn⟩ := Pair.isBase_eq_false_iff.1 hbase
  apply AtCall.call (.shifted r) h hbase (Pair.valid_shifted hbase)
  all_goals
    simp only [Pair.shifted, Frame.pair]
    omega

theorem AtCall.column (h : AtCall root r frames) (hbase : r.isBase = false) (left : Word b) :
    AtCall root r.column (.column r left :: frames) := by
  obtain ⟨hm, hn⟩ := Pair.isBase_eq_false_iff.1 hbase
  apply AtCall.call (.column r left) h hbase (Pair.valid_column hbase)
  all_goals
    simp only [Pair.column, Frame.pair]
    omega

/-- Only a pair off the borders waits for a predecessor, so no call leads out of the triangle. -/
theorem Suspended.atCall (hbase : root.isBase = false) (h : Suspended start memo root q frames) :
    AtCall root q frames := by
  induction h with
  | root => exact atCall_root hbase
  | shifted hinner _ _ ih => exact ih.shifted hinner
  | column hinner _ _ _ ih => exact ih.column hinner _

/-! ## That it ends -/

/-- Each transition is paid from the cost of the root, until the descent has finished. -/
theorem Reaches.add_cost_le (h : Reaches start root k actions d memo) :
    d.cost = 0 ∨ k + d.cost ≤ rowCost root.n := by
  induction h with
  | start => exact .inr (by simp [cost, framesCost])
  | @step k _ d memo _ ih =>
      by_cases hcost : d.cost = 0
      · obtain ⟨result, rfl⟩ := exists_finished_of_cost_eq_zero hcost
        exact .inl rfl
      · have hlt := cost_step_lt (Nat.pos_of_ne_zero hcost) memo
        omega
  | others _ _ ih => exact ih

theorem Reaches.finished_of_le (h : Reaches start root k actions d memo)
    (hk : rowCost root.n ≤ k) : ∃ result, d = finished result := by
  have := h.add_cost_le
  exact exists_finished_of_cost_eq_zero (by omega)

/-! ## That a refused step is the end -/

/-- Nothing is done after a refused step. -/
theorem Reaches.refuse_last (h : Reaches start root k actions d memo)
    {before after : List (Action b)} (hactions : actions = before ++ .refuse r :: after) :
    after = [] ∧ d = finished (.error r) := by
  induction h generalizing after with
  | start => simp at hactions
  | @step _ actions d memo _ ih =>
      cases hd : d.action? with
      | none =>
          rw [hd, Option.toList_none, List.append_nil] at hactions
          obtain ⟨hafter, rfl⟩ := ih hactions
          exact ⟨hafter, rfl⟩
      | some action =>
          rw [hd, Option.toList_some] at hactions
          cases after using List.reverseRecOn with
          | nil =>
              obtain ⟨-, hlast⟩ := List.append_inj' hactions rfl
              cases hlast
              exact ⟨rfl, fst_step_of_refuse hd memo⟩
          | append_singleton after last =>
              -- the refused step came before, so the descent had finished
              rw [← List.cons_append, ← List.append_assoc] at hactions
              obtain ⟨-, rfl⟩ := ih (List.append_inj' hactions rfl).1
              cases hd
  | others _ _ ih => exact ih hactions

end Descent

/-! ## What the recursion does -/

/-- What resolving `p` on `memo` does, in order. The predecessor above is not tried, and the step
not taken, once a step has been refused. -/
def Memo.actions (memo : Memo b) (p : Pair) : List (Descent.Action b) :=
  if p.isBase then []
  else .find p :: match memo.find? p with
    | some _ => []
    | none =>
      let left := memo.resolve p.shifted
      memo.actions p.shifted ++ match left.value with
        | .error _ => []
        | .ok x =>
          let above := left.memo.resolve p.column
          left.memo.actions p.column ++ match above.value with
            | .error _ => []
            | .ok y =>
              match x.step p.m y with
              | none => [.refuse p]
              | some v => [.store p v]
termination_by p.n
decreasing_by
  all_goals
    have := Pair.isBase_eq_false_iff.1 (Bool.eq_false_iff.2 ‹¬_›)
    simp only [Pair.shifted, Pair.column]
    omega

namespace Descent

variable {memo later : Memo b} {p : Pair} {result : Except Pair (Word b)}
  {stores : List (Pair × Word b)}

/-- The state in which a pair has been resolved for the callers in `frames`. -/
def resolved (frames : List (Frame b)) : Except Pair (Word b) → Descent b
  | .ok v => resume v frames
  | .error refused => finished (.error refused)

/-- A single transition. -/
theorem passes_single {d next : Descent b} {event : Option (Event b)} {done? : Option (Action b)}
    (hstep : d.step memo = (next, later, event)) (haction : d.action? = done?) :
    Passes d memo done?.toList next later := by
  have hpasses := Passes.step hstep .stay
  rwa [List.append_nil, haction] at hpasses

theorem passes_miss (hbase : p.isBase = false) (hmiss : memo.find? p = none)
    (frames : List (Frame b)) :
    Passes (resolve p frames) memo [.find p] (resolve p.shifted (.shifted p :: frames)) memo :=
  passes_single (step_miss hbase hmiss frames) (action?_inner hbase frames)

/-- The way to the predecessor above, once the shifted one has a value, and through it. -/
theorem passes_both {left : Memo b} {x : Word b} {frames : List (Frame b)} {last : Descent b}
    {first second : List (Action b)} (hbase : p.isBase = false) (hmiss : memo.find? p = none)
    (hleft : Passes (resolve p.shifted (.shifted p :: frames)) memo first
      (resume x (.shifted p :: frames)) left)
    (habove : Passes (resolve p.column (.column p x :: frames)) left second last later) :
    Passes (resolve p frames) memo (.find p :: (first ++ second)) last later := by
  have hbetween : Passes (resume x (.shifted p :: frames)) left []
      (resolve p.column (.column p x :: frames)) left :=
    passes_single rfl rfl
  exact (passes_miss hbase hmiss frames).trans (hleft.trans (hbetween.trans habove))

/-- A descent that nobody interrupts does what the recursion does, and a refused step takes it
past all of its callers at once. -/
theorem passes_resolved (h : memo.Resolves p result later stores) (frames : List (Frame b)) :
    Passes (resolve p frames) memo (memo.actions p) (resolved frames result) later := by
  induction h generalizing frames with
  | border hbase =>
      rw [Memo.actions, if_pos hbase]
      exact passes_single (step_border hbase _ frames) (action?_border hbase frames)
  | hit hbase hfind =>
      rw [Memo.actions, if_neg (Bool.eq_false_iff.1 hbase), hfind]
      exact passes_single (step_hit hbase hfind frames) (action?_inner hbase frames)
  | stopShifted hbase hmiss hleft ih =>
      rw [Memo.actions, if_neg (Bool.eq_false_iff.1 hbase), hmiss]
      simp only [hleft.resolve_eq, List.append_nil]
      exact (passes_miss hbase hmiss frames).trans (ih _)
  | stopColumn hbase hmiss hleft habove ih ih' =>
      rw [Memo.actions, if_neg (Bool.eq_false_iff.1 hbase), hmiss]
      simp only [hleft.resolve_eq, habove.resolve_eq, List.append_nil]
      exact passes_both hbase hmiss (ih _) (ih' _)
  | @refused _ _ above p x y _ _ hbase hmiss hleft habove hstep ih ih' =>
      have hlast := passes_single (step_refused hstep above frames) (action?_refused hstep frames)
      rw [Memo.actions, if_neg (Bool.eq_false_iff.1 hbase), hmiss]
      simp only [hleft.resolve_eq, habove.resolve_eq, hstep, ← List.append_assoc]
      exact (passes_both hbase hmiss (ih _) (ih' _)).trans hlast
  | @stored _ _ above p x y v _ _ hbase hmiss hleft habove hstep ih ih' =>
      have hlast := passes_single (step_stored hstep above frames) (action?_stored hstep frames)
      rw [Memo.actions, if_neg (Bool.eq_false_iff.1 hbase), hmiss]
      simp only [hleft.resolve_eq, habove.resolve_eq, hstep, ← List.append_assoc]
      exact (passes_both hbase hmiss (ih _) (ih' _)).trans hlast

/-- With no caller left the descent has finished. -/
theorem passes_finished (h : memo.Resolves p result later stores) :
    Passes (resolve p []) memo (memo.actions p) (finished result) later := by
  have hpasses := passes_resolved h []
  cases result with
  | error refused => exact hpasses
  | ok v =>
      have hlast : Passes (resume v []) later [] (finished (.ok v)) later := .step rfl .stay
      rw [← List.append_nil (memo.actions p)]
      exact hpasses.trans hlast

/-- Whatever the memo holds, and whatever others store on the way: a descent for a pair off the
borders asks only for pairs of the triangle, in no column to the right of the root and on no
diagonal below it. Each call is for a pair of the row before, and no more than `n - 2` callers wait
at a time. After as many transitions as the row of the root costs it has finished. If nobody
interrupts it, it does what the recursion does, and the request is answered with its result. A
refused step is the last thing that it does; and its actions are all that it has to do with the
memo. -/
theorem descent_safe {p : Pair} (hbase : p.isBase = false) (memo : Memo b) :
    (∀ k actions q frames later, Reaches memo p k actions (resolve q frames) later →
      AtCall p q frames) ∧
    (∀ k actions d later, Reaches memo p k actions d later → rowCost p.n ≤ k →
      ∃ result, d = finished result) ∧
    (∃ result later, Passes (resolve p []) memo (memo.actions p) (finished result) later ∧
      (∃ k, Reaches memo p k (memo.actions p) (finished result) later) ∧
      ∀ n m, Admission.ofRequest b n m = .compute p →
        (memo.evaluate n m).outcome = outcome p result ∧ (memo.evaluate n m).memo = later) ∧
    (∀ k actions d later, Reaches memo p k actions d later →
      ∀ before r after, actions = before ++ .refuse r :: after →
        after = [] ∧ d = finished (.error r)) ∧
    (∀ (d : Descent b) (found : Memo b),
      (d.step found).2.1 = (Action.perform found d.action?).2 ∧
      ∀ other, (Action.perform found d.action?).1 = (Action.perform other d.action?).1 →
        (d.step found).1 = (d.step other).1) := by
  refine ⟨?_, ?_, ?_, ?_, ?_⟩
  · intro k actions q frames later hreaches
    have hsuspended : Suspended memo later p q frames := hreaches.sound
    exact hsuspended.atCall hbase
  · intro k actions d later hreaches hk
    exact hreaches.finished_of_le hk
  · obtain ⟨result, later, stores, hresolves⟩ := memo.exists_resolves p
    have hpasses := passes_finished hresolves
    refine ⟨result, later, hpasses, Reaches.start.passes hpasses, ?_⟩
    intro n m hadmission
    rw [hresolves.evaluate_eq hadmission]
    exact ⟨rfl, rfl⟩
  · intro k actions d later hreaches before r after hactions
    exact hreaches.refuse_last hactions
  · intro d found
    exact ⟨snd_step d found, fun other => fst_step_congr d⟩

/-- In bytes, for `(5, 4)`: with three callers waiting it comes to `(2, 1)`, which is as deep as it
can get. When somebody stores 255 for `(3, 2)` before that is looked up, which is wrong, the step
of `(4, 3)` is refused, and `(5, 4)` does nothing more. -/
theorem descent_safe_byte :
    (Reaches (Memo.empty : Memo 8) ⟨5, 4⟩ 3 [.find ⟨5, 4⟩, .find ⟨4, 3⟩, .find ⟨3, 2⟩]
        (resolve ⟨2, 1⟩ [.shifted ⟨3, 2⟩, .shifted ⟨4, 3⟩, .shifted ⟨5, 4⟩]) .empty ∧
      AtCall (b := 8) ⟨5, 4⟩ ⟨2, 1⟩ [.shifted ⟨3, 2⟩, .shifted ⟨4, 3⟩, .shifted ⟨5, 4⟩]) ∧
    (Reaches (Memo.empty : Memo 8) ⟨5, 4⟩ 6
        ([.find ⟨5, 4⟩, .find ⟨4, 3⟩, .find ⟨3, 2⟩] ++ .refuse ⟨4, 3⟩ :: [])
        (finished (.error ⟨4, 3⟩)) (Memo.empty.getOrInsert ⟨3, 2⟩ 255).2 ∧
      ∀ k after d later, Reaches (Memo.empty : Memo 8) ⟨5, 4⟩ k
        ([.find ⟨5, 4⟩, .find ⟨4, 3⟩, .find ⟨3, 2⟩] ++ .refuse ⟨4, 3⟩ :: after) d later →
          after = [] ∧ d = finished (.error ⟨4, 3⟩)) := by
  have hbegun : Reaches (Memo.empty : Memo 8) ⟨5, 4⟩ 2 [.find ⟨5, 4⟩, .find ⟨4, 3⟩]
      (resolve ⟨3, 2⟩ [.shifted ⟨4, 3⟩, .shifted ⟨5, 4⟩]) .empty :=
    (Reaches.start.next (step_miss rfl (Memo.find?_empty _) _)).next
      (step_miss rfl (Memo.find?_empty _) _)
  have hdeepest : Reaches (Memo.empty : Memo 8) ⟨5, 4⟩ 3
      [.find ⟨5, 4⟩, .find ⟨4, 3⟩, .find ⟨3, 2⟩]
      (resolve ⟨2, 1⟩ [.shifted ⟨3, 2⟩, .shifted ⟨4, 3⟩, .shifted ⟨5, 4⟩]) .empty :=
    hbegun.next (step_miss rfl (Memo.find?_empty _) _)
  have hwrong : (Memo.empty.getOrInsert ⟨3, 2⟩ (255 : Word 8)).2.find? ⟨3, 2⟩ = some 255 := by
    rw [Memo.find?_getOrInsert, Memo.find?_empty]
    rfl
  have hfound := (hbegun.others (Memo.grows_getOrInsert .empty ⟨3, 2⟩ 255)).next
    (step_hit rfl hwrong _)
  have hsupplied := (hfound.next rfl).next (step_border rfl _ _)
  have hrefused := hsupplied.next (step_refused (by decide) _ _)
  obtain ⟨hcalls, -, -, hlast, -⟩ :=
    descent_safe (b := 8) (p := ⟨5, 4⟩) (by decide) Memo.empty
  refine ⟨⟨hdeepest, hcalls _ _ _ _ _ hdeepest⟩, hrefused, ?_⟩
  intro k after d later hreaches
  exact hlast _ _ _ _ hreaches _ _ _ rfl

end Descent

end StirlingTriangle
