import StirlingTriangle.Session
import StirlingTriangle.Proofs.Lists
import StirlingTriangle.Proofs.Pool.Completion

/-!
# Pool.Determinacy

Jobs that only evaluate. Neither the turns nor the order of requests can be
seen in what they answer or leave behind, whatever the memo held before.

* `Computes b requests pair`: some request needs a descent for `pair`;
* `Pool.evaluations` is the pool's form of lists of such requests;
* `Pool.derived_after`: the shared memo is derived from the first one at
  every turn;
* `Pool.run_evaluations`: each answer is the one that the first memo
  determines, and the memo left behind is completed;
* `Memo.outcome_evaluate`, `Memo.completed_evaluate` and
  `Session.completed_run` are what remains of it for one request, and for
  requests that are never interrupted.
-/

namespace StirlingTriangle

variable {b : Nat} {start memo later : Memo b}

/-- Some of the requests has to be computed, by a descent for `pair`. -/
def Computes (b : Nat) (requests : List (Int × Int)) (pair : Pair) : Prop :=
  ∃ request ∈ requests, Admission.ofRequest b request.1 request.2 = .compute pair

/-! ## Answers and effects in a derived memo -/

theorem Request.Answered.eq_answer {roots : Pair → Prop} (hderived : Memo.Derived start roots memo)
    {n m : Int} {outcome : Outcome b} (h : Answered start memo (.evaluate n m) outcome) :
    outcome = start.answer n m := by
  cases h with
  | settled hadmission => exact (start.answer_settled hadmission).symm
  | computed hadmission hsound =>
      rw [start.answer_compute hadmission, Descent.outcome_eq_ofValue?,
        (hsound.finished hderived).1]

/-- Once a request has been answered, everything that its descent adds is there. -/
theorem Request.Answered.done {roots : Pair → Prop} (hderived : Memo.Derived start roots memo)
    {n m : Int} {outcome : Outcome b} (h : Answered start memo (.evaluate n m) outcome)
    {pair : Pair} (hpair : Admission.ofRequest b n m = .compute pair) {q : Pair}
    (hadds : start.Adds pair q) : (memo.find? q).isSome := by
  cases h with
  | settled hadmission =>
      rw [hadmission] at hpair
      cases hpair
  | computed hadmission hsound =>
      rw [hadmission] at hpair
      cases hpair
      exact (hsound.finished hderived).2 q hadds

/-- A turn of a job that only evaluates keeps the memo derived: what is stored is wanted on
behalf of one of its requests. -/
theorem Job.Effect.derived {requests : List (Int × Int)} {job : Job b} {roots : Pair → Prop}
    (h : Effect start memo (requests.map fun r => .evaluate r.1 r.2) job later)
    (hroots : ∀ pair, Computes b requests pair → roots pair)
    (hderived : Memo.Derived start roots memo) : Memo.Derived start roots later := by
  cases h with
  | nothing => exact hderived
  | stored _ hmem hadmission hsuspended hready hstep =>
      obtain ⟨r, hr, heq⟩ := List.mem_map.1 hmem
      cases heq
      have hvalue := (hready.value? hderived).trans hstep
      exact hderived.store hready hstep ⟨_, hroots _ ⟨r, hr, hadmission⟩,
        hsuspended.adds hderived (.self hready.inner hready.missing hvalue)⟩
  | inserted _ _ hmem =>
      obtain ⟨r, _, heq⟩ := List.mem_map.1 hmem
      cases heq

/-! ## Pools that only evaluate -/

namespace Pool

/-- Lists of pairs as requests for their evaluation. -/
def evaluations (b : Nat) (requests : List (List (Int × Int))) : List (List (Request b)) :=
  requests.map fun rs => rs.map fun r => .evaluate r.1 r.2

variable {requests : List (List (Int × Int))}

theorem Tracks.derived_step {pool : Pool b} (h : Tracks start (evaluations b requests) pool)
    (hderived : Memo.Derived start (Computes b requests.flatten) pool.memo) (k : Nat) :
    Memo.Derived start (Computes b requests.flatten) (pool.step k).memo := by
  rcases (h.step k).2 with hmemo | ⟨rs, job, hrs, -, heffect⟩
  · rw [hmemo]
    exact hderived
  · obtain ⟨rs, hmem, rfl⟩ := List.mem_map.1 (List.mem_of_getElem? hrs)
    refine heffect.derived ?_ hderived
    rintro pair ⟨r, hr, hadmission⟩
    exact ⟨r, List.mem_flatten_of_mem hmem hr, hadmission⟩

theorem Tracks.derived_foldl {pool : Pool b} (h : Tracks start (evaluations b requests) pool)
    (hderived : Memo.Derived start (Computes b requests.flatten) pool.memo) (turns : List Nat) :
    Memo.Derived start (Computes b requests.flatten) (turns.foldl Pool.step pool).memo := by
  induction turns generalizing pool with
  | nil => exact hderived
  | cons k turns ih => exact ih (h.step k).1 (h.derived_step hderived k)

/-- At every turn the shared memo is derived from the first one. -/
theorem derived_after (memo : Memo b) (requests : List (List (Int × Int))) (turns : List Nat) :
    Memo.Derived memo (Computes b requests.flatten)
      (after memo (evaluations b requests) turns).memo :=
  (tracks_ofRequests memo (evaluations b requests)).derived_foldl (Memo.Derived.refl memo _) turns

/-- Every answer is the one that the first memo determines, and the memo that is left has
exactly what the descents of all requests add. -/
theorem run_evaluations (memo : Memo b) (requests : List (List (Int × Int)))
    (turns : List Nat) :
    (run memo (evaluations b requests) turns).1 =
        requests.map (fun rs => rs.map fun r => memo.answer r.1 r.2) ∧
      Memo.Completed memo (Computes b requests.flatten)
        (run memo (evaluations b requests) turns).2 := by
  -- the end of a run is reached by turns, and at every turn the memo is derived
  have hderived : Memo.Derived memo (Computes b requests.flatten)
      (run memo (evaluations b requests) turns).2 := by
    obtain ⟨more, hmore⟩ := exists_turns_run memo (evaluations b requests) turns
    have h := derived_after memo requests (turns ++ more)
    rw [hmore] at h
    exact h
  have hanswered := run_answered memo (evaluations b requests) turns
  generalize run memo (evaluations b requests) turns = result at hderived hanswered
  rw [evaluations, List.forall₂_map_left_iff] at hanswered
  simp only [List.forall₂_map_left_iff] at hanswered
  constructor
  · have heq : List.Forall₂ (fun rs answers => (rs.map fun r => memo.answer r.1 r.2) = answers)
        requests result.1 := by
      refine hanswered.imp fun rs answers h => ?_
      rw [← List.forall₂_eq_eq_eq, List.forall₂_map_left_iff]
      exact h.imp fun r outcome h => (h.eq_answer hderived).symm
    rw [← List.forall₂_map_left_iff, List.forall₂_eq_eq_eq] at heq
    exact heq.symm
  · -- each root belongs to a request, and that request has been answered
    refine ⟨hderived, ?_⟩
    rintro root ⟨r, hr, hadmission⟩ q hadds
    obtain ⟨rs, hrs, hr⟩ := List.mem_flatten.1 hr
    obtain ⟨answers, hjob⟩ := hanswered.exists_of_mem hrs
    obtain ⟨outcome, hrequest⟩ := hjob.exists_of_mem hr
    exact hrequest.done hderived hadmission hadds

theorem snd_run_single (memo : Memo b) (rs : List (Int × Int)) :
    (run memo (evaluations b [rs]) []).2 =
      (Job.performAll memo [] (rs.map fun r => .evaluate r.1 r.2)).2 := rfl

end Pool

/-! ## Requests one after another -/

namespace Memo

theorem outcome_evaluate (memo : Memo b) (n m : Int) :
    (memo.evaluate n m).outcome = memo.answer n m := by
  have hrun := (Pool.run_evaluations memo [[(n, m)]] []).1
  have hsingle : (Pool.run memo (Pool.evaluations b [[(n, m)]]) []).1 =
      [[(memo.evaluate n m).outcome]] := rfl
  rw [hsingle] at hrun
  simpa using hrun

/-- One request leaves the memo with exactly what its descent adds. -/
theorem completed_evaluate (memo : Memo b) (n m : Int) :
    Completed memo (Computes b [(n, m)]) (memo.evaluate n m).memo :=
  (Pool.run_evaluations memo [[(n, m)]] []).2

end Memo

namespace Session

theorem snd_run_recursive (memo : Memo b) (order : List (Int × Int)) (answers : List (Outcome b)) :
    (run memo (order.map fun r => .recursive r.1 r.2)).2 =
      (Job.performAll memo answers (order.map fun r => .evaluate r.1 r.2)).2 := by
  induction order generalizing memo answers with
  | nil => rfl
  | cons r order ih => exact ih (memo.evaluate r.1 r.2).memo _

/-- Requests that are not interrupted leave the memo with exactly what their descents add. -/
theorem completed_run (memo : Memo b) (order : List (Int × Int)) :
    Memo.Completed memo (Computes b order)
      (run memo (order.map fun r => .recursive r.1 r.2)).2 := by
  have hrun := (Pool.run_evaluations memo [order] []).2
  rw [Pool.snd_run_single, ← snd_run_recursive, List.flatten_singleton] at hrun
  exact hrun

end Session

/-! ## Any turns against any order -/

namespace Pool

/-- Evaluations that share a memo under any turns answer what each of them would have answered
alone, and leave the memo as they would have left it one after another, in any order: entries
that were there are kept, and the others do not depend on the turns. -/
theorem run_eq_sequential (memo : Memo b) (requests : List (List (Int × Int)))
    (turns : List Nat) {order : List (Int × Int)} (horder : order.Perm requests.flatten) :
    (run memo (evaluations b requests) turns).1 =
        requests.map (fun rs => rs.map fun r => (memo.evaluate r.1 r.2).outcome) ∧
      memo.Grows (run memo (evaluations b requests) turns).2 ∧
      (∀ q, (run memo (evaluations b requests) turns).2.find? q =
        (Session.run memo (order.map fun r => .recursive r.1 r.2)).2.find? q) ∧
      (run memo (evaluations b requests) turns).2.size =
        (Session.run memo (order.map fun r => .recursive r.1 r.2)).2.size := by
  obtain ⟨hanswers, hcompleted⟩ := run_evaluations memo requests turns
  have hroots : ∀ pair, Computes b requests.flatten pair ↔ Computes b order pair := by
    intro pair
    simp only [Computes, horder.mem_iff]
  have hfind := hcompleted.find?_eq (Session.completed_run memo order) hroots
  refine ⟨?_, hcompleted.grows, hfind, Memo.size_eq_of_find?_eq hfind⟩
  simp only [hanswers, Memo.outcome_evaluate]

/-- With 200 for the pair `(3, 2)`, which is wrong, one job's first request overflows while the
other job goes on; the entry stays and the answers agree with it. -/
theorem run_eq_sequential_wrong_entry :
    (run (Memo.empty.getOrInsert ⟨3, 2⟩ 200).2 (evaluations 8 [[(4, 2), (3, 2)], [(4, 3)]])
      [1, 0, 1, 0, 0, 1, 0]).1 =
        [[.error (.overflow ⟨4, 2⟩ 8), .ok 200], [.ok 203]] := by
  have hperm : [(3, 2), (4, 3), (4, 2)].Perm
      [[((4 : Int), (2 : Int)), (3, 2)], [(4, 3)]].flatten := by decide
  generalize hmemo : (Memo.empty.getOrInsert ⟨3, 2⟩ (200 : Word 8)).2 = memo
  have hfind : ∀ q, memo.find? q = if q = ⟨3, 2⟩ then some 200 else none := by
    intro q
    rw [← hmemo, Memo.find?_getOrInsert, Memo.find?_empty, Memo.find?_empty]
    rfl
  have hwrong : memo.value? ⟨3, 2⟩ = some 200 := Memo.value?_hit rfl (hfind _)
  have hrefused : memo.value? ⟨4, 2⟩ = none := by
    rw [Memo.value?_miss rfl (hfind _), Memo.value?_base rfl, Option.bind_some]
    show (memo.value? ⟨3, 2⟩).bind _ = none
    rw [hwrong]
    rfl
  have htaken : memo.value? ⟨4, 3⟩ = some 203 := by
    rw [Memo.value?_miss rfl (hfind _)]
    show (memo.value? ⟨3, 2⟩).bind _ = _
    rw [hwrong, Option.bind_some, Memo.value?_base rfl]
    rfl
  have hoverflow : memo.answer 4 2 = .error (.overflow ⟨4, 2⟩ 8) := by
    rw [memo.answer_compute (rfl : Admission.ofRequest 8 _ _ = .compute ⟨4, 2⟩), hrefused]
    rfl
  have hentry : memo.answer 3 2 = .ok 200 := by
    rw [memo.answer_compute (rfl : Admission.ofRequest 8 _ _ = .compute ⟨3, 2⟩), hwrong]
    rfl
  have hother : memo.answer 4 3 = .ok 203 := by
    rw [memo.answer_compute (rfl : Admission.ofRequest 8 _ _ = .compute ⟨4, 3⟩), htaken]
    rfl
  rw [(run_eq_sequential _ _ _ hperm).1]
  simp only [Memo.outcome_evaluate, List.map_cons, List.map_nil, hoverflow, hentry, hother]

end Pool

end StirlingTriangle
