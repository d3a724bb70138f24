import Mathlib.Data.List.Forall2
import StirlingTriangle.Memo.Pool
import StirlingTriangle.Proofs.Memo.Suspension

/-!
# Pool.Tracking

The invariant of jobs that share a memo, under any turns.

* `Request.Answered` says what the answer to a request says about the memo;
* `Job.Tracks start memo requests job`: of the requests of the job, those
  before the one under way have been answered in order, its descent is sound,
  and the others are still to come;
* `Job.Effect` lists what one turn can do to the memo: nothing, the store of a
  descent, or an insertion. `Job.Tracks.step` proves both at once;
* `Pool.Tracks` holds of a new pool and survives every turn
  (`Pool.tracks_after`).
-/

namespace StirlingTriangle

variable {b : Nat}

/-! ## Answers -/

/-- The answer to an evaluation is the one that admission settles, or what a finished descent
has found; the answer to an insertion is the entry that the memo has for the pair. -/
inductive Request.Answered (start memo : Memo b) : Request b → Outcome b → Prop where
  | settled {n m : Int} {outcome : Outcome b} :
      Admission.ofRequest b n m = .settled outcome →
      Answered start memo (.evaluate n m) outcome
  | computed {n m : Int} {pair : Pair} {result : Except Pair (Word b)} :
      Admission.ofRequest b n m = .compute pair →
      Descent.Sound start memo pair (.finished result) →
      Answered start memo (.evaluate n m) (Descent.outcome pair result)
  | inserted {pair : Pair} {value stored : Word b} :
      memo.find? pair = some stored → Answered start memo (.insert pair value) (.ok stored)

theorem Request.Answered.mono {start memo later : Memo b} (hgrows : memo.Grows later)
    {request : Request b} {outcome : Outcome b} (h : Answered start memo request outcome) :
    Answered start later request outcome := by
  cases h with
  | settled hadmission => exact .settled hadmission
  | computed hadmission hsound => exact .computed hadmission (hsound.mono hgrows)
  | inserted hfind => exact .inserted (hgrows _ _ hfind)

namespace Job

open Descent

variable {start memo later : Memo b} {requests : List (Request b)} {job : Job b}

/-! ## Jobs -/

/-- The request that a job has begun and not answered yet, if any. -/
inductive Underway (start memo : Memo b) :
    Option (Pair × Descent b) → List (Request b) → Prop where
  | none : Underway start memo none []
  | some {n m : Int} {pair : Pair} {d : Descent b} :
      Admission.ofRequest b n m = .compute pair → d.Sound start memo pair →
      Underway start memo (some (pair, d)) [.evaluate n m]

/-- The requests of a job: those answered, the one under way, and those to come. -/
def Tracks (start memo : Memo b) (requests : List (Request b)) (job : Job b) : Prop :=
  ∃ answered underway, requests = answered ++ underway ++ job.pending ∧
    List.Forall₂ (Request.Answered start memo) answered job.answers.reverse ∧
    Underway start memo job.current underway

theorem Tracks.mono (hgrows : memo.Grows later) (h : Tracks start memo requests job) :
    Tracks start later requests job := by
  obtain ⟨answered, underway, hrequests, hanswers, hunderway⟩ := h
  refine ⟨answered, underway, hrequests, hanswers.imp fun _ _ h => h.mono hgrows, ?_⟩
  generalize job.current = current at hunderway
  cases hunderway with
  | none => exact .none
  | some hadmission hsound => exact .some hadmission (hsound.mono hgrows)

/-- The answer to the request number `i`, once there is one. -/
theorem Tracks.answered_at (h : Tracks start memo requests job) {i : Nat} {request : Request b}
    {outcome : Outcome b} (hrequest : requests[i]? = some request)
    (hanswer : job.answers.reverse[i]? = some outcome) :
    request.Answered start memo outcome := by
  obtain ⟨answered, underway, rfl, hanswers, -⟩ := h
  obtain ⟨hlength, hall⟩ := List.forall₂_iff_get.1 hanswers
  obtain ⟨hi, rfl⟩ := List.getElem?_eq_some_iff.1 hanswer
  have hi' : i < answered.length := by rw [hlength]; exact hi
  rw [List.append_assoc, List.getElem?_append_left hi', List.getElem?_eq_getElem hi'] at hrequest
  cases hrequest
  exact hall i hi' hi

/-- A job that is done has answered all of its requests. -/
theorem Tracks.answered {answers : List (Outcome b)}
    (h : Tracks start memo requests { pending := [], answers }) :
    List.Forall₂ (Request.Answered start memo) requests answers.reverse := by
  obtain ⟨answered, underway, hrequests, hanswers, hunderway⟩ := h
  cases hunderway with
  | none =>
      rw [hrequests, List.append_nil, List.append_nil]
      exact hanswers

/-- What one turn of a job can do to the memo: nothing, the store of its descent, or an
insertion. -/
inductive Effect (start memo : Memo b) (requests : List (Request b)) (job : Job b) :
    Memo b → Prop where
  | nothing : Effect start memo requests job memo
  | stored {n m : Int} {pair r : Pair} {frames : List (Frame b)} {left above v : Word b} :
      job.current.isSome → .evaluate n m ∈ requests →
      Admission.ofRequest b n m = .compute pair →
      Suspended start memo pair r frames → Memo.Ready start memo r left above →
      left.step r.m above = some v →
      Effect start memo requests job (memo.getOrInsert r v).2
  | inserted {pair : Pair} {v : Word b} {rest : List (Request b)} :
      job.current = none → job.pending = .insert pair v :: rest → .insert pair v ∈ requests →
      Effect start memo requests job (memo.getOrInsert pair v).2

theorem Effect.grows (h : Effect start memo requests job later) : memo.Grows later := by
  cases h with
  | nothing => exact Memo.Grows.refl memo
  | stored => exact Memo.grows_getOrInsert memo _ _
  | inserted => exact Memo.grows_getOrInsert memo _ _

/-- A turn of a job that is under way is a transition of its descent, and the answer is noted
in the same turn in which the descent finishes. -/
theorem step_underway (pair : Pair) (d : Descent b) (pending : List (Request b))
    (answers : List (Outcome b)) (memo : Memo b) :
    (∃ result, (d.step memo).1 = .finished result ∧
      Job.step { current := some (pair, d), pending, answers } memo =
        ({ pending, answers := Descent.outcome pair result :: answers }, (d.step memo).2.1)) ∨
    Job.step { current := some (pair, d), pending, answers } memo =
      ({ current := some (pair, (d.step memo).1), pending, answers }, (d.step memo).2.1) := by
  rw [Job.step]
  rcases d.step memo with ⟨next, memo', event⟩
  cases next with
  | finished result => exact .inl ⟨result, rfl, rfl⟩
  | resolve q frames => exact .inr rfl
  | resume v frames => exact .inr rfl

/-- The answer to the next request joins those before it. -/
theorem tracks_answer {answered pending : List (Request b)} {request : Request b}
    {answers : List (Outcome b)} {outcome : Outcome b}
    (hrequests : requests = answered ++ request :: pending)
    (hanswers : List.Forall₂ (Request.Answered start memo) answered answers.reverse)
    (h : Request.Answered start memo request outcome) :
    Tracks start memo requests { pending, answers := outcome :: answers } := by
  refine ⟨answered ++ [request], [], by simp [hrequests], ?_, .none⟩
  rw [List.reverse_cons]
  exact List.rel_append hanswers (.cons h .nil)

/-- A transition of the descent under way leaves the memo alone or is a store. -/
theorem Effect.of_descent (hgrows : start.Grows memo) {n m : Int} {pair : Pair} {d : Descent b}
    (hcurrent : job.current.isSome) (hmem : .evaluate n m ∈ requests)
    (hadmission : Admission.ofRequest b n m = .compute pair) (hsound : d.Sound start memo pair) :
    Effect start memo requests job (d.step memo).2.1 := by
  rcases hsound.step hgrows with ⟨hmemo, -⟩ |
    ⟨r, frames, left, above, v, hr, hready, hstep, -, hmemo⟩
  · rw [hmemo]
    exact .nothing
  · rw [hmemo]
    exact .stored hcurrent hmem hadmission hr hready hstep

/-- A turn with nothing under way begins the next request, and answers it at once unless it
needs a descent. -/
theorem tracks_start {answered pending : List (Request b)} {request : Request b}
    {answers : List (Outcome b)} (hrequests : requests = answered ++ request :: pending)
    (hanswers : List.Forall₂ (Request.Answered start memo) answered answers.reverse) :
    Tracks start (Job.start { pending, answers } memo request).2 requests
        (Job.start { pending, answers } memo request).1 ∧
      Effect start memo requests { pending := request :: pending, answers }
        (Job.start { pending, answers } memo request).2 := by
  cases request with
  | evaluate n m =>
      rw [Job.start]
      cases hadmission : Admission.ofRequest b n m with
      | settled outcome =>
          exact ⟨tracks_answer hrequests hanswers (.settled hadmission), .nothing⟩
      | compute pair =>
          -- the descent begins with the pair itself, and nothing is left over yet
          exact ⟨⟨answered, [.evaluate n m], by simp [hrequests], hanswers,
            .some hadmission .root⟩, .nothing⟩
  | insert pair value =>
      have heffect : Effect start memo requests
          { pending := .insert pair value :: pending, answers }
          (memo.getOrInsert pair value).2 := .inserted rfl rfl (by simp [hrequests])
      have hanswers' := hanswers.imp fun _ _ h => h.mono heffect.grows
      rw [Job.start]
      exact ⟨tracks_answer hrequests hanswers'
        (.inserted (Memo.find?_getOrInsert_self memo pair value)), heffect⟩

/-- One turn keeps the requests tracked, and its effect on the memo is one of the three. -/
theorem Tracks.step (hgrows : start.Grows memo) (h : Tracks start memo requests job) :
    Tracks start (job.step memo).2 requests (job.step memo).1 ∧
      Effect start memo requests job (job.step memo).2 := by
  obtain ⟨answered, underway, hrequests, hanswers, hunderway⟩ := h
  obtain ⟨current, pending, answers⟩ := job
  simp only at hrequests hanswers hunderway
  cases hunderway with
  | @some n m pair d hadmission hsound =>
      rw [List.append_assoc] at hrequests
      have heffect : Effect start memo requests { current := some (pair, d), pending, answers }
          (d.step memo).2.1 := .of_descent hgrows rfl (by simp [hrequests]) hadmission hsound
      have hsound' := hsound.sound_step hgrows
      -- what was said of the memo before holds of the memo after the transition
      have hanswers' := hanswers.imp fun _ _ h => h.mono heffect.grows
      rcases step_underway pair d pending answers memo with ⟨result, hfinished, heq⟩ | heq
      · rw [heq]
        rw [hfinished] at hsound'
        exact ⟨tracks_answer hrequests hanswers' (.computed hadmission hsound'), heffect⟩
      · rw [heq]
        exact ⟨⟨answered, _, by simp [hrequests], hanswers', .some hadmission hsound'⟩, heffect⟩
  | none =>
      rw [List.append_nil] at hrequests
      cases pending with
      | nil =>
          rw [Job.step]
          exact ⟨⟨answered, [], by simp [hrequests], hanswers, .none⟩, .nothing⟩
      | cons request pending =>
          rw [Job.step]
          exact tracks_start hrequests hanswers

end Job

/-! ## The pool -/

namespace Pool

variable {start : Memo b} {requests : List (List (Request b))} {pool : Pool b}

/-- The memo has grown from `start`, and each job tracks its list of requests. -/
structure Tracks (start : Memo b) (requests : List (List (Request b))) (pool : Pool b) :
    Prop where
  grows : start.Grows pool.memo
  size : pool.jobs.size = requests.length
  job : ∀ (k : Nat) (rs : List (Request b)) (job : Job b),
    requests[k]? = some rs → pool.jobs[k]? = some job → job.Tracks start pool.memo rs

theorem tracks_ofRequests (memo : Memo b) (requests : List (List (Request b))) :
    Tracks memo requests (ofRequests memo requests) where
  grows := Memo.Grows.refl memo
  size := by simp [ofRequests]
  job := by
    intro k rs job hrequests hjob
    simp only [ofRequests, List.getElem?_toArray, List.getElem?_map, hrequests, Option.map_some,
      Option.some.injEq] at hjob
    subst hjob
    exact ⟨[], [], rfl, .nil, .none⟩

theorem step_of_some {k : Nat} {job : Job b} (h : pool.jobs[k]? = some job) :
    pool.step k =
      ⟨(job.step pool.memo).2, pool.jobs.setIfInBounds k (job.step pool.memo).1⟩ := by
  obtain ⟨hk, hjob⟩ := Array.getElem?_eq_some_iff.1 h
  obtain ⟨memo, jobs⟩ := pool
  simp only at hk hjob
  simp only [step, hk, dite_true, hjob, Array.setIfInBounds]

theorem step_of_none {k : Nat} (h : pool.jobs[k]? = none) : pool.step k = pool := by
  obtain ⟨memo, jobs⟩ := pool
  simp only [Array.getElem?_eq_none_iff, Nat.not_lt.symm] at h
  simp only [step, h, dite_false]

/-- One turn keeps the pool tracked. It leaves the memo alone, or has one of the effects of a
turn of its job. -/
theorem Tracks.step (h : Tracks start requests pool) (k : Nat) :
    Tracks start requests (pool.step k) ∧
      ((pool.step k).memo = pool.memo ∨
        ∃ rs job, requests[k]? = some rs ∧ pool.jobs[k]? = some job ∧
          job.Effect start pool.memo rs (pool.step k).memo) := by
  cases hjob : pool.jobs[k]? with
  | none =>
      rw [step_of_none hjob]
      exact ⟨h, .inl rfl⟩
  | some job =>
      obtain ⟨hk, -⟩ := Array.getElem?_eq_some_iff.1 hjob
      obtain ⟨rs, hrs⟩ : ∃ rs, requests[k]? = some rs :=
        ⟨_, List.getElem?_eq_getElem (by rw [← h.size]; exact hk)⟩
      obtain ⟨htracks, heffect⟩ := (h.job k rs job hrs hjob).step h.grows
      rw [step_of_some hjob]
      refine ⟨⟨h.grows.trans heffect.grows, ?_, ?_⟩, .inr ⟨rs, job, hrs, rfl, heffect⟩⟩
      · simp only [Array.size_setIfInBounds, h.size]
      · -- the job whose turn it was is tracked anew, the others by growth of the memo
        intro i rs' job' hrs' hjob'
        rw [Array.getElem?_setIfInBounds] at hjob'
        split at hjob'
        · rename_i hik
          subst hik
          cases hjob'
          cases hrs.symm.trans hrs'
          exact htracks
        · exact (h.job i rs' job' hrs' hjob').mono heffect.grows

theorem grows_step (h : Tracks start requests pool) (k : Nat) :
    pool.memo.Grows (pool.step k).memo := by
  rcases (h.step k).2 with hmemo | ⟨_, _, _, _, heffect⟩
  · rw [hmemo]
    exact Memo.Grows.refl pool.memo
  · exact heffect.grows

/-- The pool after some turns. -/
def after (memo : Memo b) (requests : List (List (Request b))) (turns : List Nat) : Pool b :=
  turns.foldl step (ofRequests memo requests)

theorem after_append (memo : Memo b) (requests : List (List (Request b)))
    (turns more : List Nat) :
    after memo requests (turns ++ more) = more.foldl step (after memo requests turns) :=
  List.foldl_append

/-- What holds of a pool that is tracked and survives each turn survives any number of them. -/
theorem Tracks.foldl (h : Tracks start requests pool) (turns : List Nat) :
    Tracks start requests (turns.foldl Pool.step pool) ∧
      pool.memo.Grows (turns.foldl Pool.step pool).memo := by
  induction turns generalizing pool with
  | nil => exact ⟨h, Memo.Grows.refl pool.memo⟩
  | cons k turns ih =>
      obtain ⟨htracks, hgrows⟩ := ih (h.step k).1
      exact ⟨htracks, (grows_step h k).trans hgrows⟩

theorem tracks_after (memo : Memo b) (requests : List (List (Request b))) (turns : List Nat) :
    Tracks memo requests (after memo requests turns) :=
  ((tracks_ofRequests memo requests).foldl turns).1

theorem grows_after (memo : Memo b) (requests : List (List (Request b)))
    (turns more : List Nat) :
    (after memo requests turns).memo.Grows (after memo requests (turns ++ more)).memo := by
  rw [after_append]
  exact ((tracks_after memo requests turns).foldl more).2

end Pool

end StirlingTriangle
