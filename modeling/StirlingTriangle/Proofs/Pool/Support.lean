import StirlingTriangle.Proofs.Pool.Tracking

/-!
# Pool.Support

What holds of the shared memo at every turn, when some of the jobs insert
values of their own, right or wrong.

* `Memo.Supported memo q`: the entry of `q` is the checked step of what the
  memo holds for the predecessors of `q`;
* `Pool.Stores pool k q`: the next turn of the job `k` gives `q` its entry,
  and `Pool.Inserts pool k` says that this turn is an insertion;
* `Pool.Evaluated memo requests turns q`: one of the turns gave `q` its entry
  and was not an insertion, so an evaluation put it there;
* `Pool.answer? pool k i`: the answer to a request, once there is one.

An entry that an evaluation stores is supported at once, by values that the
memo already holds, and stays so because the memo only grows
(`Pool.supported_of_evaluated`). There are no entries but these, those of the
start and the inserted ones (`Pool.origin`). The answer to an evaluation is what the memo
holds, not what its descent computed (`Pool.Tracks.held?_of_answer?`): the two differ
when an insertion comes between the lookup of a pair and its store.
-/

namespace StirlingTriangle

variable {b : Nat}

/-! ## Supported entries -/

/-- The entry of `q`, off the borders, is what the step of `q` gives, without overflow, for
the values that the memo holds for the two predecessors. -/
structure Memo.Supported (memo : Memo b) (q : Pair) : Prop where
  inner : q.isBase = false
  entry : ∃ left above v, memo.held? q.shifted = some left ∧ memo.held? q.column = some above ∧
    memo.find? q = some v ∧ v.toNat = left.toNat + q.m * above.toNat

theorem Memo.Supported.mono {memo later : Memo b} (hgrows : memo.Grows later) {q : Pair}
    (h : memo.Supported q) : later.Supported q := by
  obtain ⟨left, above, v, hleft, habove, hfind, hvalue⟩ := h.entry
  exact ⟨h.inner, left, above, v, hgrows.held? hleft, hgrows.held? habove, hgrows q v hfind,
    hvalue⟩

/-- Storing the result of a step that is ready gives a supported entry, if the pair had none. -/
theorem Memo.Ready.supported {start memo : Memo b} {r : Pair} {left above v : Word b}
    (h : Ready start memo r left above) (hstep : left.step r.m above = some v)
    (hmiss : memo.find? r = none) : (memo.getOrInsert r v).2.Supported r := by
  have h' := h.mono (grows_getOrInsert memo r v)
  refine ⟨h.inner, left, above, v, h'.left, h'.above, ?_, (Word.step_eq_some_iff.1 hstep).2⟩
  rw [find?_getOrInsert, if_pos rfl, hmiss]
  rfl

/-- Only the pair that is stored gets an entry. -/
theorem Memo.eq_of_getOrInsert {memo : Memo b} {r q : Pair} {v : Word b}
    (hmiss : memo.find? q = none) (hthere : ((memo.getOrInsert r v).2.find? q).isSome) :
    q = r := by
  by_cases hq : q = r
  · exact hq
  · rw [find?_getOrInsert, if_neg hq, hmiss] at hthere
    cases hthere

/-- An evaluation that is answered with a value has found it in the memo. -/
theorem Request.Answered.held? {start memo : Memo b} {n m : Int} {p : Pair} {v : Word b}
    (h : Answered start memo (.evaluate n m) (.ok v)) (hp : Pair.ofInts? n m = .ok p) :
    memo.held? p = some v := by
  generalize houtcome : (.ok v : Outcome b) = outcome at h
  cases h with
  | settled hadmission =>
      rw [← houtcome] at hadmission
      obtain ⟨hbase, rfl⟩ := Admission.of_settled_ok hadmission hp
      exact Memo.held?_base hbase
  | @computed _ _ pair result hadmission hsound =>
      obtain rfl : pair = p := by
        rw [(Admission.of_compute hadmission).1] at hp
        exact Except.ok.inj hp
      cases result with
      | ok w =>
          obtain rfl : v = w := Except.ok.inj houtcome
          exact hsound
      | error refused => cases houtcome

namespace Pool

/-! ## Who stored an entry -/

/-- The next turn of the job `k` is an insertion. -/
def Inserts (pool : Pool b) (k : Nat) : Prop :=
  ∃ job pair value rest, pool.jobs[k]? = some job ∧ job.current = none ∧
    job.pending = .insert pair value :: rest

/-- A turn of the job `k` gives `q` its entry. -/
def Stores (pool : Pool b) (k : Nat) (q : Pair) : Prop :=
  pool.memo.find? q = none ∧ ((pool.step k).memo.find? q).isSome

/-- The entry of `q` was put there by an evaluation, at one of the turns. -/
def Evaluated (memo : Memo b) (requests : List (List (Request b))) (turns : List Nat)
    (q : Pair) : Prop :=
  ∃ before k more, turns = before ++ k :: more ∧ (after memo requests before).Stores k q ∧
    ¬ (after memo requests before).Inserts k

variable {start : Memo b} {requests : List (List (Request b))} {pool : Pool b}

/-- An entry that is not there at the start is stored at one of the turns. -/
theorem exists_stores (pool : Pool b) (turns : List Nat) {q : Pair}
    (h : ((turns.foldl step pool).memo.find? q).isSome) :
    (pool.memo.find? q).isSome ∨ ∃ before k more, turns = before ++ k :: more ∧
      (before.foldl step pool).Stores k q := by
  induction turns generalizing pool with
  | nil => exact .inl h
  | cons k turns ih =>
      rcases ih (pool.step k) h with hthere | ⟨before, k', more, rfl, hstores⟩
      · cases hfind : pool.memo.find? q with
        | none => exact .inr ⟨[], k, turns, rfl, hfind, hthere⟩
        | some v => exact .inl rfl
      · exact .inr ⟨k :: before, k', more, rfl, hstores⟩

/-- What an evaluation stores is supported at once. -/
theorem Tracks.supported (h : Tracks start requests pool) {k : Nat} {q : Pair}
    (hstores : pool.Stores k q) (hevaluates : ¬ pool.Inserts k) :
    (pool.step k).memo.Supported q := by
  obtain ⟨hmiss, hthere⟩ := hstores
  -- of the effects of a turn, only the store of a descent is left
  have hchanged : (pool.step k).memo ≠ pool.memo := by
    intro hmemo
    rw [hmemo, hmiss] at hthere
    cases hthere
  rcases (h.step k).2 with hmemo | ⟨rs, job, -, hjob, heffect⟩
  · exact absurd hmemo hchanged
  · generalize (pool.step k).memo = memo at hthere hchanged heffect ⊢
    cases heffect with
    | nothing => exact absurd rfl hchanged
    | stored _ _ _ _ hready hstep =>
        obtain rfl := Memo.eq_of_getOrInsert hmiss hthere
        exact hready.supported hstep hmiss
    | inserted hcurrent hpending _ =>
        exact absurd ⟨job, _, _, _, hjob, hcurrent, hpending⟩ hevaluates

/-- An entry that an evaluation put there stays supported, whatever others store later. -/
theorem supported_of_evaluated {memo : Memo b} {turns : List Nat} {q : Pair}
    (h : Evaluated memo requests turns q) : (after memo requests turns).memo.Supported q := by
  obtain ⟨before, k, more, rfl, hstores, hevaluates⟩ := h
  have hstored := (tracks_after memo requests before).supported hstores hevaluates
  have hstep : (after memo requests before).step k = after memo requests (before ++ [k]) := by
    rw [after_append]
    rfl
  rw [hstep] at hstored
  rw [List.append_cons]
  exact hstored.mono (grows_after memo requests (before ++ [k]) more)

/-- Every entry was there at the start, or has been inserted, or is supported. -/
theorem origin (memo : Memo b) (requests : List (List (Request b))) (turns : List Nat)
    {q : Pair} (h : ((after memo requests turns).memo.find? q).isSome) :
    (memo.find? q).isSome ∨
      (∃ before k more, turns = before ++ k :: more ∧ (after memo requests before).Stores k q ∧
        (after memo requests before).Inserts k) ∨
      (after memo requests turns).memo.Supported q := by
  rcases exists_stores (ofRequests memo requests) turns h with
    hstart | ⟨before, k, more, hturns, hstores⟩
  · exact .inl hstart
  · by_cases hinserts : (after memo requests before).Inserts k
    · exact .inr (.inl ⟨before, k, more, hturns, hstores, hinserts⟩)
    · exact .inr (.inr (supported_of_evaluated ⟨before, k, more, hturns, hstores, hinserts⟩))

/-! ## Answers -/

/-- The answer of the job `k` to its request number `i`. -/
def answer? (pool : Pool b) (k i : Nat) : Option (Outcome b) :=
  pool.jobs[k]?.bind fun job => job.answers.reverse[i]?

/-- An evaluation is answered with the value that the memo holds for its pair. -/
theorem Tracks.held?_of_answer? (h : Tracks start requests pool) {k i : Nat} {n m : Int}
    {p : Pair} {v : Word b} (hrequest : requests[k]?.bind (·[i]?) = some (.evaluate n m))
    (hp : Pair.ofInts? n m = .ok p) (hanswer : pool.answer? k i = some (.ok v)) :
    pool.memo.held? p = some v := by
  obtain ⟨rs, hrs, hrequest⟩ := Option.bind_eq_some_iff.1 hrequest
  obtain ⟨job, hjob, hanswer⟩ := Option.bind_eq_some_iff.1 hanswer
  exact ((h.job k rs job hrs hjob).answered_at hrequest hanswer).held? hp

/-- Whatever the turns, and whatever is inserted: an entry keeps its value for good; an entry
that an evaluation put there is off the borders and is the step of what the memo holds for its
predecessors; and once an evaluation has been answered with a value, the memo holds that value
for its pair from then on. -/
theorem entries_consistent (memo : Memo b) (requests : List (List (Request b)))
    (turns : List Nat) :
    (∀ more q v, (after memo requests turns).memo.find? q = some v →
      (after memo requests (turns ++ more)).memo.find? q = some v) ∧
    (∀ q, Evaluated memo requests turns q → (after memo requests turns).memo.Supported q) ∧
    (∀ k i n m p v, requests[k]?.bind (·[i]?) = some (.evaluate n m) →
      Pair.ofInts? n m = .ok p → p.isBase = false →
      (after memo requests turns).answer? k i = some (.ok v) →
      ∀ more, (after memo requests (turns ++ more)).memo.find? p = some v) := by
  refine ⟨fun more q v => grows_after memo requests turns more q v,
    fun q => supported_of_evaluated, ?_⟩
  intro k i n m p v hrequest hp hbase hanswer more
  have hheld := (tracks_after memo requests turns).held?_of_answer? hrequest hp hanswer
  rw [Memo.held?_inner hbase] at hheld
  exact grows_after memo requests turns more p v hheld

/-- An evaluation that has missed the pair `(3, 2)` finds the 9 that was inserted meanwhile when
it comes to store its 3, and goes on with that. -/
theorem entries_consistent_lost_race :
    (after .empty [[.evaluate 4 2], [.insert ⟨3, 2⟩ (9 : Word 8)]]
        [0, 0, 0, 0, 0, 0, 0, 0, 1, 0, 0, 0]).answer? 0 0 = some (.ok 19) ∧
      ∀ more, (after .empty [[.evaluate 4 2], [.insert ⟨3, 2⟩ (9 : Word 8)]]
        ([0, 0, 0, 0, 0, 0, 0, 0, 1, 0, 0, 0] ++ more)).memo.find? ⟨4, 2⟩ = some 19 := by
  have hadmission : Admission.ofRequest 8 4 2 = .compute ⟨4, 2⟩ := by decide
  have hlost : Word.step (1#8 : Word 8) 2 1#8 = some 3 := by decide
  have hnext : Word.step (1#8 : Word 8) 2 9#8 = some 19 := by decide
  have hanswer : (after .empty [[.evaluate 4 2], [.insert ⟨3, 2⟩ (9 : Word 8)]]
      [0, 0, 0, 0, 0, 0, 0, 0, 1, 0, 0, 0]).answer? 0 0 = some (.ok 19) := by
    simp [answer?, after, ofRequests, step, Job.step, Job.start, hadmission, Descent.step,
      Pair.isBase, Pair.shifted, Pair.column, hlost, hnext, Memo.fst_getOrInsert,
      Memo.find?_getOrInsert, Descent.outcome]
  exact ⟨hanswer, (entries_consistent _ _ _).2.2 0 0 4 2 ⟨4, 2⟩ 19 rfl rfl rfl hanswer⟩

end Pool

end StirlingTriangle
