import StirlingTriangle.Proofs.Pool.Determinacy

/-!
# Memo.Transparency

Storing values changes no answer. A memo that is derived from another one
determines the same value for every pair, so a request is answered as if
nothing had been asked before it, also where the entries at the start are
wrong and where an earlier request has overflowed half way.

* `Derived.value?_eq`: a new entry has the value that was determined for its
  pair before, so nothing that is computed from it changes either;
* `Derived.adds_or_isSome` and `Derived.adds_of_adds`: what a later resolution
  still adds is what it would have added at the start, less what is there;
* `Completed.append`: requests in two stages leave what they leave in one;
* `Outcome.ofMemo` writes out the answer that a memo determines, and
  `Session.replies_ofMemo` finds every reply of a session of requests to be it.
-/

namespace StirlingTriangle

variable {b : Nat}

namespace Memo

variable {start memo later : Memo b} {roots roots' : Pair → Prop}

/-! ## What a derived memo determines -/

/-- A derived memo determines the same value as the memo at the start, for every pair. -/
theorem Derived.value?_eq (h : Derived start roots memo) (p : Pair) :
    memo.value? p = start.value? p := by
  -- the cases are those of the recursion on the derived memo
  induction p using value?.induct memo with
  | case1 p hbase => rw [value?_base hbase, value?_base hbase]
  | case2 p hbase v hfind =>
      have hbase := Bool.eq_false_iff.2 hbase
      rw [value?_hit hbase hfind]
      cases hstart : start.find? p with
      | some w =>
          -- an entry from the start has not changed
          have hw : some w = some v := (h.grows p w hstart).symm.trans hfind
          rw [value?_hit hbase hstart, hw]
      | none => exact (h.value p v hfind hstart).symm
  | case3 p hbase hfind ihShifted ihColumn =>
      have hbase := Bool.eq_false_iff.2 hbase
      rw [value?_miss hbase hfind, value?_miss hbase (h.grows.find?_eq_none hfind), ihShifted]
      congr 1
      funext left
      rw [ihColumn]

theorem Derived.answer_eq (h : Derived start roots memo) (n m : Int) :
    memo.answer n m = start.answer n m := by
  cases hadmission : Admission.ofRequest b n m with
  | settled outcome => rw [memo.answer_settled hadmission, start.answer_settled hadmission]
  | compute pair =>
      rw [memo.answer_compute hadmission, start.answer_compute hadmission, h.value?_eq]

/-! ## What a later resolution adds -/

/-- What resolving `p` adds to a derived memo, it would have added at the start. -/
theorem Derived.adds_of_adds (h : Derived start roots memo) {p q : Pair} (hadds : memo.Adds p q) :
    start.Adds p q := by
  induction hadds with
  | self hbase hmiss hv =>
      rw [h.value?_eq] at hv
      exact .self hbase (h.grows.find?_eq_none hmiss) hv
  | shifted hbase hmiss _ ih => exact .shifted hbase (h.grows.find?_eq_none hmiss) ih
  | column hbase hmiss hleft _ ih =>
      rw [h.value?_eq] at hleft
      exact .column hbase (h.grows.find?_eq_none hmiss) hleft ih

/-- What resolving `p` would have added at the start, it adds still, unless it is there. -/
theorem Derived.adds_or_isSome (h : Derived start roots memo) {p q : Pair}
    (hadds : start.Adds p q) : memo.Adds p q ∨ (memo.find? q).isSome := by
  -- once a pair on the way has an entry, the memo has everything that resolving the pair adds
  have hit : ∀ r, start.find? r = none → start.Adds r q → memo.find? r ≠ none →
      (memo.find? q).isSome := by
    intro r hmiss hr hfind
    obtain ⟨v, hv⟩ := Option.ne_none_iff_exists'.1 hfind
    exact h.closed r v hv hmiss q hr
  induction hadds with
  | @self p v hbase hmiss hv =>
      by_cases hp : memo.find? p = none
      · rw [← h.value?_eq] at hv
        exact .inl (.self hbase hp hv)
      · exact .inr (hit p hmiss (.self hbase hmiss hv) hp)
  | @shifted p q hbase hmiss hq ih =>
      by_cases hp : memo.find? p = none
      · exact (ih hit).imp_left fun hadds => .shifted hbase hp hadds
      · exact .inr (hit p hmiss (.shifted hbase hmiss hq) hp)
  | @column p q left hbase hmiss hleft hq ih =>
      by_cases hp : memo.find? p = none
      · rw [← h.value?_eq] at hleft
        exact (ih hit).imp_left fun hadds => .column hbase hp hleft hadds
      · exact .inr (hit p hmiss (.column hbase hmiss hleft hq) hp)

/-! ## Requests in two stages -/

theorem Derived.trans (h : Derived start roots memo) (h' : Derived memo roots' later) :
    Derived start (fun p => roots p ∨ roots' p) later := by
  refine ⟨h.grows.trans h'.grows, ?_, ?_, ?_⟩
  · intro q v hv hmiss
    cases hq : memo.find? q with
    | some w =>
        have hw : some w = some v := (h'.grows q w hq).symm.trans hv
        rw [h.value q w hq hmiss, hw]
    | none =>
        rw [← h.value?_eq]
        exact h'.value q v hv hq
  · intro q v hv hmiss
    cases hq : memo.find? q with
    | some w =>
        obtain ⟨root, hroot, hadds⟩ := h.wanted q w hq hmiss
        exact ⟨root, .inl hroot, hadds⟩
    | none =>
        obtain ⟨root, hroot, hadds⟩ := h'.wanted q v hv hq
        exact ⟨root, .inr hroot, h.adds_of_adds hadds⟩
  · intro q v hv hmiss r hadds
    cases hq : memo.find? q with
    | some w => exact h'.grows.find?_isSome (h.closed q w hq hmiss r hadds)
    | none =>
        rcases h.adds_or_isSome hadds with hadds | hthere
        · exact h'.closed q v hv hq r hadds
        · exact h'.grows.find?_isSome hthere

theorem Completed.trans (h : Completed start roots memo) (h' : Completed memo roots' later) :
    Completed start (fun p => roots p ∨ roots' p) later := by
  refine ⟨h.toDerived.trans h'.toDerived, ?_⟩
  rintro root (hroot | hroot) q hadds
  · exact h'.grows.find?_isSome (h.done root hroot q hadds)
  · rcases h.adds_or_isSome hadds with hadds | hthere
    · exact h'.done root hroot q hadds
    · exact h'.grows.find?_isSome hthere

theorem Completed.append {requests more : List (Int × Int)}
    (h : Completed start (Computes b requests) memo) (h' : Completed memo (Computes b more) later) :
    Completed start (Computes b (requests ++ more)) later := by
  have hroots : Computes b (requests ++ more) =
      fun p => Computes b requests p ∨ Computes b more p := by
    funext p
    simp only [Computes, List.mem_append, or_and_right, exists_or]
  rw [hroots]
  exact h.trans h'

end Memo

/-! ## Every request of a session -/

/-- The first condition that `(n, m)` fails, 1 on the borders, an overflow if the pair is wider
than a word; otherwise the value that the memo determines, and an overflow if there is none. -/
def Outcome.ofMemo (memo : Memo b) (n m : Int) : Outcome b :=
  match Constraint.violated? n m with
  | some constraint => .error (.invalidArgument n m constraint)
  | none =>
    if m = 1 ∨ n = m then .ok 1
    else if n - m + 1 > b then .error (.overflow ⟨n.toNat, m.toNat⟩ b)
    else .ofValue? ⟨n.toNat, m.toNat⟩ (memo.value? ⟨n.toNat, m.toNat⟩)

theorem Memo.answer_eq_ofMemo (memo : Memo b) (n m : Int) :
    memo.answer n m = .ofMemo memo n m := by
  unfold Memo.answer Admission.ofRequest Pair.ofInts? Outcome.ofMemo
  cases hv : Constraint.violated? n m with
  | some constraint => rfl
  | none =>
      obtain ⟨hm, hn⟩ := Constraint.violated?_eq_none_iff.1 hv
      have hbase : (Pair.mk n.toNat m.toNat).isBase = true ↔ m = 1 ∨ n = m := by
        rw [Pair.isBase_iff_of_valid ⟨by simp only; omega, by simp only; omega⟩]
        simp only
        omega
      have hwidth : b < (Pair.mk n.toNat m.toNat).width ↔ n - m + 1 > b := by
        unfold Pair.width
        simp only
        omega
      simp only [hbase, hwidth]
      by_cases h1 : m = 1 ∨ n = m
      · simp only [h1, if_true]
      · by_cases h2 : n - m + 1 > b
        · simp only [h1, h2, if_true, if_false]
        · simp only [h1, h2, if_false]

theorem Memo.outcome_evaluate_ofMemo (memo : Memo b) (n m : Int) :
    (memo.evaluate n m).outcome = .ofMemo memo n m := by
  rw [memo.outcome_evaluate, memo.answer_eq_ofMemo]

/-- A request leaves behind a memo that determines the same answers. -/
theorem Memo.ofMemo_evaluate (memo : Memo b) (i j n m : Int) :
    Outcome.ofMemo (memo.evaluate i j).memo n m = .ofMemo memo n m := by
  rw [← answer_eq_ofMemo, ← answer_eq_ofMemo]
  exact (memo.completed_evaluate i j).toDerived.answer_eq n m

namespace Session

/-- In a session of requests each is answered as the memo at the start determines, which is how
it would have been answered as the first one: neither the requests before it nor their overflows
can be seen in it. -/
theorem replies_ofMemo (memo : Memo b) (requests : List (Int × Int)) :
    (run memo (requests.map fun r => .recursive r.1 r.2)).1.map Entry.reply =
        requests.map (fun r => .outcome (.ofMemo memo r.1 r.2)) ∧
      ∀ n m, (memo.evaluate n m).outcome = .ofMemo memo n m := by
  refine ⟨?_, memo.outcome_evaluate_ofMemo⟩
  induction requests generalizing memo with
  | nil => rfl
  | cons r requests ih =>
      rw [List.map_cons, List.map_cons, run]
      simp only [reply, List.map_cons, ih, Memo.outcome_evaluate_ofMemo, Memo.ofMemo_evaluate]

end Session

end StirlingTriangle
