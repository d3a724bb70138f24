import StirlingTriangle.Memo.Resolve
import StirlingTriangle.Proofs.Pool.Determinacy
import StirlingTriangle.Proofs.Window.Filling

/-!
# Agreement

The two ways of evaluating answer alike, as long as nobody stores a wrong
value in the memo.

* `memo.Truthful`: every entry off the borders is the entry of the triangle.
  Entries on the borders are never read, so they may hold anything;
* `Memo.Truthful.value?`: a truthful memo determines the entry of the
  triangle for every pair, or that it does not fit; the recursion behind it
  is refused on the way only if the entry itself does not fit;
* `call.Truthful`: the call does not insert a wrong value.
-/

namespace StirlingTriangle

variable {b : Nat}

/-! ## Truthful memos -/

/-- Every entry off the borders is the entry of the triangle. -/
def Memo.Truthful (memo : Memo b) : Prop :=
  ∀ q v, memo.find? q = some v → q.isBase = false → v.toNat = stirling q.n q.m

namespace Memo

variable {memo later : Memo b}

theorem truthful_empty : (empty : Memo b).Truthful := by
  intro q v hv
  rw [find?_empty] at hv
  cases hv

/-- What a truthful memo determines is the entry of the triangle as a word, or that it does not
fit. -/
theorem Truthful.value? (h : memo.Truthful) (hb : 0 < b) (p : Pair) :
    memo.value? p = Word.ofNat? b (stirling p.n p.m) := by
  -- both predecessors lie in the row before
  induction hn : p.n using Nat.strongRecOn generalizing p with
  | _ n ih =>
    subst hn
    cases hbase : p.isBase with
    | true =>
        rw [value?_base hbase, stirling_base hbase]
        exact (Word.ofNat?_eq_some_iff.2 (Word.toNat_one hb)).symm
    | false =>
        cases hfind : memo.find? p with
        | some v =>
            rw [value?_hit hbase hfind]
            exact (Word.ofNat?_eq_some_iff.2 (h p v hfind hbase)).symm
        | none =>
            obtain ⟨hm, hlt⟩ := Pair.isBase_eq_false_iff.1 hbase
            rw [value?_miss hbase hfind, ih (p.n - 1) (by omega) p.shifted rfl,
              ih (p.n - 1) (by omega) p.column rfl]
            exact Word.bind_step_stirling hm hlt

/-- Whatever descents add to a truthful memo is true. -/
theorem Derived.truthful {roots : Pair → Prop} (h : Derived memo roots later) (hb : 0 < b)
    (htruthful : memo.Truthful) : later.Truthful := by
  intro q v hv hbase
  cases hmemo : memo.find? q with
  | some w =>
      have hw : w = v := Option.some.inj ((h.grows q w hmemo).symm.trans hv)
      rw [← hw]
      exact htruthful q w hmemo hbase
  | none =>
      have hvalue := h.value q v hv hmemo
      rw [htruthful.value? hb] at hvalue
      exact Word.ofNat?_eq_some_iff.1 hvalue

/-- A request leaves a truthful memo truthful, also when it overflows on the way. -/
theorem Truthful.evaluate (h : memo.Truthful) (n m : Int) : (memo.evaluate n m).memo.Truthful := by
  cases hadmission : Admission.ofRequest b n m with
  | settled outcome =>
      rw [evaluate_settled hadmission]
      exact h
  | compute pair =>
      exact (completed_evaluate memo n m).truthful (Admission.pos_of_compute hadmission) h

theorem Truthful.getOrInsert (h : memo.Truthful) {p : Pair} {value : Word b}
    (hvalue : p.isBase = false → value.toNat = stirling p.n p.m) :
    (memo.getOrInsert p value).2.Truthful := by
  intro q v hv hbase
  rw [find?_getOrInsert] at hv
  split at hv
  · rename_i hq
    subst hq
    cases hfind : memo.find? q with
    | none =>
        rw [hfind] at hv
        cases hv
        exact hvalue hbase
    | some w =>
        rw [hfind] at hv
        cases hv
        exact h q _ hfind hbase
  · exact h q v hv hbase

/-- On a truthful memo a request is answered as the windowed evaluation answers it. -/
theorem Truthful.outcome_evaluate (h : memo.Truthful) (n m : Int) :
    (memo.evaluate n m).outcome = (Window.evaluate b n m).outcome := by
  rw [Memo.outcome_evaluate]
  cases hadmission : Admission.ofRequest b n m with
  | settled outcome => rw [memo.answer_settled hadmission, Window.evaluate, hadmission]
  | compute pair =>
      have hb := Admission.pos_of_compute hadmission
      rw [memo.answer_compute hadmission, h.value? hb, Window.evaluate_eq_ofTriangle hb,
        Admission.ofTriangle_of_compute hadmission]

end Memo

/-! ## Truthful sessions -/

/-- The call does not insert a wrong value. What it inserts on a border does not matter. -/
def Call.Truthful : Call b → Prop
  | .insert n m value =>
    ∀ p, Pair.ofInts? n m = .ok p → p.isBase = false → value.toNat = stirling p.n p.m
  | _ => True

namespace Session

theorem truthful_reply {memo : Memo b} {call : Call b} (h : memo.Truthful)
    (hcall : call.Truthful) : (reply memo call).2.1.Truthful := by
  cases call with
  | recursive n m => exact h.evaluate n m
  | iterative n m => exact h
  | cached n m => exact h
  | get n m =>
      simp only [reply, withPair]
      split <;> exact h
  | insert n m value =>
      simp only [reply, withPair]
      split
      · rename_i p hp
        exact h.getOrInsert (hcall p hp)
      · exact h
  | isEmpty => exact h

theorem truthful_run_snd {memo : Memo b} {calls : List (Call b)} (h : memo.Truthful)
    (hcalls : ∀ call ∈ calls, call.Truthful) : (run memo calls).2.Truthful := by
  induction calls generalizing memo with
  | nil => exact h
  | cons call calls ih =>
      refine ih (truthful_reply h ?_) ?_
      · exact hcalls call List.mem_cons_self
      · intro next hnext
        exact hcalls next (List.mem_cons_of_mem call hnext)

/-- After any session that does not insert a wrong value, a memo that was truthful before is
truthful, and the two ways of evaluating give the same answer to every request. -/
theorem evaluations_agree (memo : Memo b) (calls : List (Call b)) (h : memo.Truthful)
    (hcalls : ∀ call ∈ calls, call.Truthful) :
    (run memo calls).2.Truthful ∧
      ∀ n m, ((run memo calls).2.evaluate n m).outcome = (Window.evaluate b n m).outcome := by
  have htruthful := truthful_run_snd h hcalls
  exact ⟨htruthful, htruthful.outcome_evaluate⟩

/-- A request that overflows on the way, an invalid one and an insertion leave the largest byte
to be found. -/
theorem evaluations_agree_after_overflow :
    ((run (Memo.empty.getOrInsert ⟨4, 2⟩ (7 : Word 8)).2
      [.recursive 9 4, .recursive 3 5, .insert 6 3 90]).2.evaluate 9 2).outcome = .ok 255 := by
  have hmemo : (Memo.empty.getOrInsert ⟨4, 2⟩ (7 : Word 8)).2.Truthful :=
    Memo.truthful_empty.getOrInsert fun _ => by decide
  have hcalls : ∀ call ∈ ([.recursive 9 4, .recursive 3 5, .insert 6 3 90] : List (Call 8)),
      call.Truthful := by
    intro call hcall
    simp only [List.mem_cons, List.not_mem_nil, or_false] at hcall
    rcases hcall with rfl | rfl | rfl
    · trivial
    · trivial
    · intro p hp _
      obtain ⟨_, _, rfl⟩ := Pair.ofInts?_eq_ok hp
      decide
  rw [(evaluations_agree _ _ hmemo hcalls).2 9 2, Window.evaluate_eq_ofTriangle (by decide)]
  decide

end Session

end StirlingTriangle
