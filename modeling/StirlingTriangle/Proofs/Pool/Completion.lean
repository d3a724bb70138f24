import Mathlib.Logic.Relation
import StirlingTriangle.Proofs.Pool.Tracking

/-!
# Pool.Completion

Finishing what is open is taking more turns. `Pool.run` ends in a state that
the pool reaches by turns alone (`Pool.exists_turns_run`), in which every job
is done; so what holds after all turns holds of what `Pool.run` gives back.

`Job.Steps` is the reachability of a job that is not interrupted. It is shown
for a descent, for a list of requests and for a whole job in turn.
-/

namespace StirlingTriangle

variable {b : Nat}

namespace Job

/-! ## A job that is not interrupted -/

/-- Some turns of a job, without any of another one between them. -/
def Steps : Job b × Memo b → Job b × Memo b → Prop :=
  Relation.ReflTransGen fun s t => t = s.1.step s.2

theorem Steps.refl (s : Job b × Memo b) : Steps s s := Relation.ReflTransGen.refl

theorem Steps.trans {s t u : Job b × Memo b} (h : Steps s t) (h' : Steps t u) : Steps s u :=
  Relation.ReflTransGen.trans h h'

theorem steps_step (job : Job b) (memo : Memo b) : Steps (job, memo) (job.step memo) :=
  Relation.ReflTransGen.single rfl

theorem run_of_not_finished {d : Descent b} (h : ∀ result, d ≠ .finished result) (memo : Memo b)
    (journal : List (Event b)) :
    ∃ journal', d.run memo journal = (d.step memo).1.run (d.step memo).2.1 journal' := by
  cases d with
  | resolve pair frames => exact ⟨_, by rw [Descent.run]⟩
  | resume value frames => exact ⟨_, by rw [Descent.run]⟩
  | finished result => exact absurd rfl (h result)

/-- The turns of a job take its descent to the result that running it gives. -/
theorem steps_run (pair : Pair) (pending : List (Request b)) (answers : List (Outcome b))
    (d : Descent b) (memo : Memo b) (journal : List (Event b)) :
    Steps ({ current := some (pair, d), pending, answers }, memo)
      ({ pending, answers := Descent.outcome pair (d.run memo journal).value :: answers },
        (d.run memo journal).memo) := by
  -- each transition lowers the cost of the descent
  induction hcost : d.cost using Nat.strongRecOn generalizing d memo journal with
  | _ cost ih =>
    by_cases hfinished : ∃ result, d = .finished result
    · obtain ⟨result, rfl⟩ := hfinished
      rw [Descent.run]
      exact steps_step _ _
    · obtain ⟨journal', hrun⟩ :=
        run_of_not_finished (fun result h => hfinished ⟨result, h⟩) memo journal
      rw [hrun]
      rcases step_underway pair d pending answers memo with ⟨result, hresult, heq⟩ | heq
      · have hstep := steps_step { current := some (pair, d), pending, answers } memo
        rw [heq] at hstep
        rw [hresult, Descent.run]
        exact hstep
      · have hpos : 0 < d.cost := Nat.pos_of_ne_zero fun hzero =>
          hfinished (Descent.exists_finished_of_cost_eq_zero hzero)
        have hstep := steps_step { current := some (pair, d), pending, answers } memo
        rw [heq] at hstep
        exact hstep.trans (ih _ (hcost ▸ Descent.cost_step_lt hpos memo) _ _ journal' rfl)

/-- The turns of a job with nothing under way answer the first of its requests. -/
theorem steps_perform (request : Request b) (pending : List (Request b))
    (answers : List (Outcome b)) (memo : Memo b) :
    Steps ({ pending := request :: pending, answers }, memo)
      ({ pending, answers := (request.perform memo).1 :: answers }, (request.perform memo).2) := by
  have hstep := steps_step { pending := request :: pending, answers } memo
  cases request with
  | insert pair value => exact hstep
  | evaluate n m =>
      rw [Job.step, Job.start] at hstep
      rw [Request.perform, Memo.evaluate]
      cases hadmission : Admission.ofRequest b n m with
      | settled outcome =>
          rw [hadmission] at hstep
          exact hstep
      | compute pair =>
          rw [hadmission] at hstep
          exact hstep.trans (steps_run pair pending answers _ memo _)

theorem steps_performAll (pending : List (Request b)) (answers : List (Outcome b))
    (memo : Memo b) :
    Steps ({ pending, answers }, memo)
      ({ pending := [], answers := (performAll memo answers pending).1 },
        (performAll memo answers pending).2) := by
  induction pending generalizing answers memo with
  | nil => exact Steps.refl _
  | cons request pending ih => exact (steps_perform request pending answers memo).trans (ih _ _)

/-- A job that is done, with its answers in the order of its requests. -/
def ofAnswers (answers : List (Outcome b)) : Job b :=
  { pending := [], answers := answers.reverse }

theorem steps_finish (job : Job b) (memo : Memo b) :
    Steps (job, memo) (ofAnswers (job.finish memo).1, (job.finish memo).2) := by
  obtain ⟨current, pending, answers⟩ := job
  cases current with
  | none =>
      simp only [finish, ofAnswers, List.reverse_reverse]
      exact steps_performAll pending answers memo
  | some underway =>
      obtain ⟨pair, d⟩ := underway
      simp only [finish, ofAnswers, List.reverse_reverse]
      exact (steps_run pair pending answers d memo []).trans (steps_performAll pending _ _)

end Job

/-! ## The pool -/

namespace Pool

open Job

/-- Turns of one job of the pool. -/
theorem exists_turns_of_steps (jobs : Array (Job b)) (k : Nat) {s t : Job b × Memo b}
    (h : Steps s t) (hk : jobs[k]? = some s.1) :
    ∃ turns, List.foldl step ⟨s.2, jobs⟩ turns = ⟨t.2, jobs.setIfInBounds k t.1⟩ := by
  induction h with
  | refl =>
      refine ⟨[], ?_⟩
      obtain ⟨hlt, hjob⟩ := Array.getElem?_eq_some_iff.1 hk
      simp [Array.setIfInBounds, hlt, ← hjob]
  | @tail u v _ hstep ih =>
      obtain ⟨turns, hturns⟩ := ih
      obtain ⟨hlt, -⟩ := Array.getElem?_eq_some_iff.1 hk
      refine ⟨turns ++ [k], ?_⟩
      have hat : (Pool.mk u.2 (jobs.setIfInBounds k u.1)).jobs[k]? = some u.1 := by simp [hlt]
      rw [List.foldl_append, hturns, List.foldl_cons, List.foldl_nil, step_of_some hat, hstep]
      simp

/-- The jobs after those that are done already are finished one after another. -/
theorem exists_turns_finishAll (jobs done : List (Job b)) (memo : Memo b) :
    ∃ turns, List.foldl step ⟨memo, (done ++ jobs).toArray⟩ turns =
      ⟨(finishAll memo jobs).2, (done ++ (finishAll memo jobs).1.map ofAnswers).toArray⟩ := by
  induction jobs generalizing done memo with
  | nil => exact ⟨[], rfl⟩
  | cons job jobs ih =>
      obtain ⟨turns, hturns⟩ := exists_turns_of_steps (done ++ job :: jobs).toArray done.length
        (steps_finish job memo) (by simp)
      obtain ⟨more, hmore⟩ :=
        ih (done ++ [ofAnswers (job.finish memo).1]) (job.finish memo).2
      refine ⟨turns ++ more, ?_⟩
      rw [List.foldl_append, hturns]
      -- the job just finished has become the last of those that are done
      simp only [List.append_assoc, List.singleton_append] at hmore
      simp only [List.setIfInBounds_toArray, List.set_append_right _ _ (Nat.le_refl _),
        Nat.sub_self, List.set_cons_zero, hmore, finishAll, List.map_cons]

/-- What a run gives back is read off a state that the pool reaches by turns, in which all jobs
are done. -/
theorem exists_turns_run (memo : Memo b) (requests : List (List (Request b)))
    (turns : List Nat) :
    ∃ more, after memo requests (turns ++ more) =
      ⟨(run memo requests turns).2, ((run memo requests turns).1.map ofAnswers).toArray⟩ := by
  obtain ⟨more, hmore⟩ := exists_turns_finishAll (after memo requests turns).jobs.toList []
    (after memo requests turns).memo
  refine ⟨more, ?_⟩
  rw [List.nil_append, Array.toArray_toList] at hmore
  rw [after_append]
  exact hmore

/-- The answers of a run, one for each request, and what they say about the memo. -/
theorem run_answered (memo : Memo b) (requests : List (List (Request b))) (turns : List Nat) :
    List.Forall₂ (fun rs answers =>
      List.Forall₂ (Request.Answered memo (run memo requests turns).2) rs answers)
      requests (run memo requests turns).1 := by
  obtain ⟨more, hmore⟩ := exists_turns_run memo requests turns
  have htracks := tracks_after memo requests (turns ++ more)
  rw [hmore] at htracks
  have hlength : requests.length = (run memo requests turns).1.length := by
    have hsize := htracks.size
    simp only [List.size_toArray, List.length_map] at hsize
    exact hsize.symm
  refine List.forall₂_iff_get.2 ⟨hlength, fun k hk hk' => ?_⟩
  have hjob := htracks.job k _ (ofAnswers ((run memo requests turns).1.get ⟨k, hk'⟩))
    (List.getElem?_eq_getElem hk) (by simp [hk'])
  have hanswered := hjob.answered
  rw [List.reverse_reverse] at hanswered
  exact hanswered

end Pool

end StirlingTriangle
