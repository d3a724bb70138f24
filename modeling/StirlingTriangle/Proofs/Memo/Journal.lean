import StirlingTriangle.Session
import StirlingTriangle.Proofs.Memo.Cone
import StirlingTriangle.Proofs.Memo.Resolution

/-!
# Memo.Journal

What an evaluation reports to have stored is an exact record of what it does
to the memo.

* `memo.Records later stores`: the memo has grown to `later` by these stores
  and no others, each pair once and after its predecessors. Records can be put
  together (`Records.trans`), and one store is a record if its pair had no
  entry and its predecessors are held (`records_getOrInsert`);
* `Resolves.records`: the stores of a resolution are one. A pair is not among
  those that its predecessors depend on, so no resolution on the way stores the
  pair whose step is still to be taken;
* `call.Reports memo later journal` says what the journal of a call has to be,
  and `Session.journal_exact` that it is so for every call of a session, and
  that a session reports no pair twice.
-/

namespace StirlingTriangle

variable {b : Nat}

namespace Memo

variable {memo later last : Memo b} {p q : Pair} {s t stores : List (Pair × Word b)}

/-! ## Records -/

/-- The memo has grown by these stores and no others: each pair once, with the value that it
then has, and after those of its predecessors that were missing. -/
structure Records (memo later : Memo b) (stores : List (Pair × Word b)) : Prop where
  kept : memo.Grows later
  distinct : (stores.map Prod.fst).Nodup
  exact : ∀ q v, (q, v) ∈ stores ↔ memo.find? q = none ∧ later.find? q = some v
  ordered : ∀ q ∈ stores.map Prod.fst, ∀ r, r = q.shifted ∨ r = q.column → r.isBase = false →
    memo.find? r = none → [r, q].Sublist (stores.map Prod.fst)

theorem Records.refl (memo : Memo b) : memo.Records memo [] where
  kept := Grows.refl memo
  distinct := List.nodup_nil
  exact := by
    intro q v
    constructor
    · intro h
      cases h
    · rintro ⟨hmiss, hfind⟩
      rw [hmiss] at hfind
      cases hfind
  ordered := by
    intro q hq
    cases hq

theorem Records.mem_keys (h : memo.Records later stores) :
    q ∈ stores.map Prod.fst ↔ memo.find? q = none ∧ (later.find? q).isSome := by
  rw [List.mem_map]
  constructor
  · rintro ⟨⟨q, v⟩, hmem, rfl⟩
    obtain ⟨hmiss, hfind⟩ := (h.exact q v).1 hmem
    exact ⟨hmiss, by rw [hfind]; rfl⟩
  · rintro ⟨hmiss, hthere⟩
    obtain ⟨v, hfind⟩ := Option.isSome_iff_exists.1 hthere
    exact ⟨(q, v), (h.exact q v).2 ⟨hmiss, hfind⟩, rfl⟩

theorem Records.trans (h : memo.Records later s) (h' : later.Records last t) :
    memo.Records last (s ++ t) where
  kept := h.kept.trans h'.kept
  distinct := by
    rw [List.map_append]
    refine h.distinct.append h'.distinct ?_
    -- what is stored first is there, so it is not stored again
    intro q hq hq'
    have hthere := (h.mem_keys.1 hq).2
    rw [(h'.mem_keys.1 hq').1] at hthere
    cases hthere
  exact := by
    intro q v
    rw [List.mem_append, h.exact, h'.exact]
    constructor
    · rintro (⟨hmiss, hfind⟩ | ⟨hmiss, hfind⟩)
      · exact ⟨hmiss, h'.kept q v hfind⟩
      · exact ⟨h.kept.find?_eq_none hmiss, hfind⟩
    · rintro ⟨hmiss, hfind⟩
      cases hlater : later.find? q with
      | none => exact .inr ⟨rfl, hfind⟩
      | some w =>
          have hw : some w = some v := (h'.kept q w hlater).symm.trans hfind
          exact .inl ⟨hmiss, hw⟩
  ordered := by
    intro q hq r hr hbase hmiss
    rw [List.map_append] at hq ⊢
    rcases List.mem_append.1 hq with hq | hq
    · exact (h.ordered q hq r hr hbase hmiss).trans (List.sublist_append_left _ _)
    · -- the predecessor is stored in the second part, or has been in the first
      by_cases hlater : later.find? r = none
      · exact (h'.ordered q hq r hr hbase hlater).trans (List.sublist_append_right _ _)
      · have hfirst := h.mem_keys.2 ⟨hmiss, Option.isSome_iff_ne_none.2 hlater⟩
        exact (List.singleton_sublist.2 hfirst).append (List.singleton_sublist.2 hq)

/-- Storing a pair that has no entry, when both of its predecessors are held. -/
theorem records_getOrInsert {x y : Word b} (hmiss : memo.find? p = none)
    (hshifted : memo.held? p.shifted = some x) (hcolumn : memo.held? p.column = some y)
    (v : Word b) : memo.Records (memo.getOrInsert p v).2 [(p, v)] where
  kept := grows_getOrInsert memo p v
  distinct := List.nodup_singleton p
  exact := by
    intro q w
    rw [find?_getOrInsert, hmiss, List.mem_singleton, Prod.mk.injEq]
    by_cases hq : q = p
    · simp [hq, hmiss, eq_comm]
    · simp only [hq, false_and, if_false, false_iff, not_and]
      intro hq'
      simp [hq']
  ordered := by
    rintro q hq r hr hbase hr'
    obtain rfl : q = p := List.mem_singleton.1 hq
    rw [← held?_inner hbase] at hr'
    rcases hr with rfl | rfl
    · rw [hshifted] at hr'
      cases hr'
    · rw [hcolumn] at hr'
      cases hr'

/-! ## The stores of a resolution -/

variable {result : Except Pair (Word b)}

theorem mem_cone_of_append (hbase : p.isBase = false)
    (hs : ∀ q ∈ s.map Prod.fst, q ∈ p.shifted.cone)
    (ht : ∀ q ∈ t.map Prod.fst, q ∈ p.column.cone) : ∀ q ∈ (s ++ t).map Prod.fst, q ∈ p.cone := by
  intro q hq
  rw [List.map_append, List.mem_append] at hq
  rcases hq with hq | hq
  · exact Pair.cone_shifted_subset hbase (hs q hq)
  · exact Pair.cone_column_subset hbase (ht q hq)

/-- Resolving a pair stores nothing outside its cone. -/
theorem Resolves.mem_cone (h : memo.Resolves p result later stores) :
    ∀ q ∈ stores.map Prod.fst, q ∈ p.cone := by
  induction h with
  | border _ => nofun
  | hit _ _ => nofun
  | stopShifted hbase _ _ ih => exact fun q hq => Pair.cone_shifted_subset hbase (ih q hq)
  | stopColumn hbase _ _ _ ih ih' => exact mem_cone_of_append hbase ih ih'
  | refused hbase _ _ _ _ ih ih' => exact mem_cone_of_append hbase ih ih'
  | stored hbase _ _ _ _ ih ih' =>
      intro q hq
      rw [List.map_append, List.mem_append] at hq
      rcases hq with hq | hq
      · exact mem_cone_of_append hbase ih ih' q hq
      · rw [List.mem_singleton.1 hq]
        exact Pair.self_mem_cone hbase

/-- The stores of a resolution are an exact record of what it does. -/
theorem Resolves.records (h : memo.Resolves p result later stores) :
    memo.Records later stores := by
  induction h with
  | border _ => exact .refl _
  | hit _ _ => exact .refl _
  | stopShifted _ _ _ ih => exact ih
  | stopColumn _ _ _ _ ih ih' => exact ih.trans ih'
  | refused _ _ _ _ _ ih ih' => exact ih.trans ih'
  | @stored memo left above p x y v s t hbase hmiss hleft habove _ ih ih' =>
      refine (ih.trans ih').trans
        (records_getOrInsert ?_ (ih'.kept.held? hleft.held?) habove.held? v)
      -- neither predecessor depends on the pair itself, so nobody has stored it yet
      by_contra hthere
      have hstored := (ih.trans ih').mem_keys.2 ⟨hmiss, Option.isSome_iff_ne_none.2 hthere⟩
      rw [List.map_append, List.mem_append] at hstored
      rcases hstored with hp | hp
      · exact Pair.self_notMem_cone_shifted hbase (hleft.mem_cone p hp)
      · exact Pair.self_notMem_cone_column hbase (habove.mem_cone p hp)

end Memo

/-! ## The journal of one call -/

/-- The pair that an event stores, if it reports a store. -/
def Event.storedPair? : Event b → Option Pair
  | .storing pair _ => some pair
  | _ => none

/-- The pairs that a journal reports to be stored, in order. -/
def Event.storedPairs (journal : List (Event b)) : List Pair := journal.filterMap storedPair?

theorem Event.storedPairs_map_ofStore (stores : List (Pair × Word b)) :
    storedPairs (stores.map ofStore) = stores.map Prod.fst := by
  rw [storedPairs, List.filterMap_map, ← List.filterMap_eq_map]
  rfl

/-- What a call has to report that finds `memo` and leaves `later`. Only an evaluation that
has to be computed reports a descent, with the number of entries before it, and stores; a
windowed one reports its rows. -/
def Call.Reports (memo later : Memo b) (journal : List (Event b)) : Call b → Prop
  | .recursive n m =>
    if 1 < m ∧ m < n ∧ n - m + 1 ≤ b then
      ∃ stores, memo.Records later stores ∧
        journal = .descentStarted ⟨n.toNat, m.toNat⟩ memo.size :: stores.map Event.ofStore
    else journal = []
  | .iterative _ _ => Event.storedPairs journal = []
  | .cached _ _ => journal = []
  | .get _ _ => journal = []
  | .insert _ _ _ => journal = []
  | .isEmpty => journal = []

theorem Window.storedPairs_sweepRows (n width rows : Nat) :
    ∀ (window : Window b) (j : Nat) (journal : List (Event b)), Event.storedPairs journal = [] →
      Event.storedPairs (sweepRows n width window j journal rows).2 = [] := by
  induction rows with
  | zero => exact fun _ _ _ h => h
  | succ rows ih =>
      intro window j journal h
      rw [sweepRows]
      cases window.fillRow j (min (n - j) width) with
      | error fault => exact h
      | ok window => exact ih window (j + 1) _ h

theorem Window.storedPairs_evaluate (n m : Int) :
    Event.storedPairs (evaluate b n m).journal = [] := by
  unfold evaluate
  cases Admission.ofRequest b n m with
  | settled outcome => rfl
  | compute pair =>
      show Event.storedPairs (sweep b pair).2 = []
      have hrows := storedPairs_sweepRows pair.n pair.width pair.m (blank b pair.width) 1 [] rfl
      rw [sweep, Event.storedPairs, List.filterMap_reverse]
      exact congrArg List.reverse hrows

namespace Session

variable {memo : Memo b}

theorem reports_reply (memo : Memo b) (call : Call b) :
    call.Reports memo (reply memo call).2.1 (reply memo call).2.2 := by
  cases call with
  | recursive n m =>
      rw [Call.Reports]
      split
      · rename_i h
        obtain ⟨result, later, stores, hresolves⟩ := memo.exists_resolves ⟨n.toNat, m.toNat⟩
        have heq := hresolves.evaluate_eq (Admission.ofRequest_eq_compute_iff.2 ⟨h, rfl⟩)
        simp only [reply, heq]
        exact ⟨stores, hresolves.records, rfl⟩
      · rename_i h
        obtain ⟨outcome, hsettled⟩ := Admission.exists_settled h
        simp only [reply, Memo.evaluate_settled hsettled]
  | iterative n m => exact Window.storedPairs_evaluate n m
  | cached n m => rfl
  | get n m => rfl
  | insert n m value => rfl
  | isEmpty => rfl

/-- Entries are never lost or changed. -/
theorem grows_reply (memo : Memo b) (call : Call b) : memo.Grows (reply memo call).2.1 := by
  cases call with
  | recursive n m => exact (memo.completed_evaluate n m).grows
  | iterative n m => exact .refl memo
  | cached n m => exact .refl memo
  | get n m =>
      simp only [reply, withPair]
      split <;> exact .refl memo
  | insert n m value =>
      simp only [reply, withPair]
      split
      · exact Memo.grows_getOrInsert memo _ value
      · exact .refl memo
  | isEmpty => exact .refl memo

/-- The pairs that a call reports are distinct, had no entry and have one then. -/
theorem storedPairs_of_reports {later : Memo b} {journal : List (Event b)} {call : Call b}
    (h : call.Reports memo later journal) :
    (Event.storedPairs journal).Nodup ∧
      ∀ q ∈ Event.storedPairs journal, memo.find? q = none ∧ (later.find? q).isSome := by
  have quiet : Event.storedPairs journal = [] → (Event.storedPairs journal).Nodup ∧
      ∀ q ∈ Event.storedPairs journal, memo.find? q = none ∧ (later.find? q).isSome := by
    intro hnil
    rw [hnil]
    exact ⟨List.nodup_nil, nofun⟩
  cases call with
  | recursive n m =>
      rw [Call.Reports] at h
      split at h
      · obtain ⟨stores, hrecords, rfl⟩ := h
        have hpairs : Event.storedPairs (.descentStarted ⟨n.toNat, m.toNat⟩ memo.size ::
            stores.map Event.ofStore) = stores.map Prod.fst :=
          Event.storedPairs_map_ofStore stores
        rw [hpairs]
        exact ⟨hrecords.distinct, fun q hq => hrecords.mem_keys.1 hq⟩
      · exact quiet (by rw [h]; rfl)
  | iterative n m => exact quiet h
  | cached n m => exact quiet (by rw [show journal = [] from h]; rfl)
  | get n m => exact quiet (by rw [show journal = [] from h]; rfl)
  | insert n m value => exact quiet (by rw [show journal = [] from h]; rfl)
  | isEmpty => exact quiet (by rw [show journal = [] from h]; rfl)

/-! ## The journal of a session -/

theorem snd_run_append (memo : Memo b) (calls more : List (Call b)) :
    (run memo (calls ++ more)).2 = (run (run memo calls).2 more).2 := by
  induction calls generalizing memo with
  | nil => rfl
  | cons call calls ih => exact ih (reply memo call).2.1

/-- Each call finds the memo that the calls before it have left. -/
theorem getElem?_fst_run (memo : Memo b) (before : List (Call b)) (call : Call b)
    (rest : List (Call b)) :
    ((run memo (before ++ call :: rest)).1[before.length]?).map Entry.journal =
      some (reply (run memo before).2 call).2.2 := by
  induction before generalizing memo with
  | nil => rfl
  | cons first before ih => exact ih (reply memo first).2.1

/-- No pair is reported twice in a session, and none that had an entry at its start. -/
theorem storedPairs_run (memo : Memo b) (calls : List (Call b)) :
    (Event.storedPairs (journal (run memo calls).1)).Nodup ∧
      ∀ q ∈ Event.storedPairs (journal (run memo calls).1), memo.find? q = none := by
  induction calls generalizing memo with
  | nil => exact ⟨List.nodup_nil, nofun⟩
  | cons call calls ih =>
      obtain ⟨hdistinct, hnew⟩ := storedPairs_of_reports (reports_reply memo call)
      obtain ⟨hdistinct', hnew'⟩ := ih (reply memo call).2.1
      have happend : Event.storedPairs (journal (run memo (call :: calls)).1) =
          Event.storedPairs (reply memo call).2.2 ++
            Event.storedPairs (journal (run (reply memo call).2.1 calls).1) :=
        List.filterMap_append
      rw [happend]
      refine ⟨hdistinct.append hdistinct' ?_, ?_⟩
      · -- what the call stores is there for the calls that follow
        intro q hq hq'
        have hthere := (hnew q hq).2
        rw [hnew' q hq'] at hthere
        cases hthere
      · intro q hq
        rcases List.mem_append.1 hq with hq | hq
        · exact (hnew q hq).1
        · exact (grows_reply memo call).find?_eq_none (hnew' q hq)

/-- In a session each call reports what it does to the memo that it finds there: an evaluation
that has to be computed reports its stores exactly, all other calls none. And the whole session
reports no pair twice. -/
theorem journal_exact (memo : Memo b) (calls : List (Call b)) :
    (∀ before call rest, calls = before ++ call :: rest →
      ∃ entry, (run memo calls).1[before.length]? = some entry ∧
        call.Reports (run memo before).2 (run memo (before ++ [call])).2 entry.journal) ∧
      (Event.storedPairs (journal (run memo calls).1)).Nodup := by
  refine ⟨?_, (storedPairs_run memo calls).1⟩
  rintro before call rest rfl
  obtain ⟨entry, hentry, hjournal⟩ := Option.map_eq_some_iff.1
    (getElem?_fst_run memo before call rest)
  refine ⟨entry, hentry, ?_⟩
  rw [hjournal, snd_run_append]
  exact reports_reply (run memo before).2 call

end Session

end StirlingTriangle
