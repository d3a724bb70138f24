import StirlingTriangle.Memo.Evaluate

/-!
# Memo.Pool

Jobs that share one memo. A job is a list of requests, done one after
another; the jobs take turns, and a turn is one transition of a descent, so
at most one operation on the memo. Besides evaluations a job may hold
insertions, which store whatever value they are given.

The order of turns is a list of job numbers, and any list will do: a turn of
a job that is done, or of a number that no job has, changes nothing, and
what is still open when the turns are used up is finished in order. Every
complete interleaving is therefore the run of some list of turns.
-/

namespace StirlingTriangle

variable {b : Nat}

inductive Request (b : Nat) where
  | evaluate (n m : Int)
  | insert (pair : Pair) (value : Word b)

/-- The answer to a request that nothing interrupts. -/
def Request.perform (memo : Memo b) : Request b → Outcome b × Memo b
  | .evaluate n m =>
    let { outcome, memo, .. } := memo.evaluate n m
    (outcome, memo)
  | .insert pair value =>
    let (stored, memo) := memo.getOrInsert pair value
    (.ok stored, memo)

/-! ## Jobs -/

structure Job (b : Nat) where
  /-- The evaluation under way: the pair that was asked for, and how far it is. -/
  current : Option (Pair × Descent b) := none
  pending : List (Request b)
  /-- The answers so far, the latest first. -/
  answers : List (Outcome b) := []

namespace Job

/-- Begins a request. One that needs no descent is answered at once. -/
def start (job : Job b) (memo : Memo b) : Request b → Job b × Memo b
  | .evaluate n m =>
    match Admission.ofRequest b n m with
    | .settled outcome => ({ job with answers := outcome :: job.answers }, memo)
    | .compute pair => ({ job with current := some (pair, .resolve pair []) }, memo)
  | .insert pair value =>
    let (stored, memo) := memo.getOrInsert pair value
    ({ job with answers := .ok stored :: job.answers }, memo)

/-- One turn. -/
def step (job : Job b) (memo : Memo b) : Job b × Memo b :=
  match job with
  | { current := some (pair, descent), pending, answers } =>
    match descent.step memo with
    | (.finished result, memo, _) =>
      ({ current := none, pending, answers := Descent.outcome pair result :: answers }, memo)
    | (descent, memo, _) => ({ current := some (pair, descent), pending, answers }, memo)
  | { current := none, pending := request :: pending, answers } =>
    start { pending, answers } memo request
  | { current := none, pending := [], answers } => ({ pending := [], answers }, memo)

def performAll (memo : Memo b) (answers : List (Outcome b)) :
    List (Request b) → List (Outcome b) × Memo b
  | [] => (answers, memo)
  | request :: pending =>
    let (answer, memo) := request.perform memo
    performAll memo (answer :: answers) pending

/-- All answers of a job that is not interrupted any more, in the order of its requests. -/
def finish (job : Job b) (memo : Memo b) : List (Outcome b) × Memo b :=
  let (answers, memo) := match job.current with
    | some (pair, descent) =>
      let { value, memo, .. } := descent.run memo []
      (Descent.outcome pair value :: job.answers, memo)
    | none => (job.answers, memo)
  let (answers, memo) := performAll memo answers job.pending
  (answers.reverse, memo)

end Job

/-! ## Taking turns -/

structure Pool (b : Nat) where
  memo : Memo b
  jobs : Array (Job b)

namespace Pool

def ofRequests (memo : Memo b) (requests : List (List (Request b))) : Pool b :=
  ⟨memo, (requests.map fun pending => { pending }).toArray⟩

/-- A turn of the job `k`. -/
def step : Pool b → Nat → Pool b
  | ⟨memo, jobs⟩, k =>
    if h : k < jobs.size then
      let (job, memo) := jobs[k].step memo
      ⟨memo, jobs.set k job⟩
    else ⟨memo, jobs⟩

def finishAll (memo : Memo b) : List (Job b) → List (List (Outcome b)) × Memo b
  | [] => ([], memo)
  | job :: jobs =>
    let (answers, memo) := job.finish memo
    let (others, memo) := finishAll memo jobs
    (answers :: others, memo)

/-- The answers of every job, and the memo that they leave. -/
def run (memo : Memo b) (requests : List (List (Request b))) (turns : List Nat) :
    List (List (Outcome b)) × Memo b :=
  let pool := turns.foldl step (ofRequests memo requests)
  finishAll pool.memo pool.jobs.toList

/-- In rotation, `rounds` turns for each of the first `workers` of so many jobs. The others
wait, so that no more than `workers` jobs are ever under way. -/
def rotation (workers rounds jobs : Nat) : List Nat :=
  (List.replicate rounds (List.range (min workers jobs))).flatten

end Pool

end StirlingTriangle
