import StirlingTriangle.Proofs.Memo.Journal

/-!
# Memo.Footprint

Which entries an evaluation adds, and which of the entries that are there can
make a difference to it: those of its cone, and no others.

* `q.InCone n m` writes out the cone of a request. It is empty unless the
  request lies in the triangle and off its borders;
* `Resolves.transfers`: memos that agree on the cone of a pair are resolved by
  the same rules, with the same result and the same stores, and where they
  agreed before they still agree afterwards;
* `evaluate_footprint` says both of a request.
-/

namespace StirlingTriangle

variable {b : Nat}

/-- The pairs `(i, j)` with `1 < j ≤ m`, `j < i` and `i - j ≤ n - m`. -/
def Pair.InCone (n m : Int) (q : Pair) : Prop :=
  1 < q.m ∧ (q.m : Int) ≤ m ∧ q.m < q.n ∧ (q.n : Int) - q.m ≤ n - m

theorem Pair.inCone_iff_mem_cone {n m : Int} {p q : Pair} (hp : ofInts? n m = .ok p) :
    q.InCone n m ↔ q ∈ p.cone := by
  obtain ⟨hm, hn, rfl⟩ := ofInts?_eq_ok hp
  simp only [InCone, mem_cone]
  omega

namespace Memo

variable {memo other later : Memo b} {p : Pair} {result : Except Pair (Word b)}
  {stores : List (Pair × Word b)}

theorem find?_getOrInsert_congr {q : Pair} (v : Word b)
    (hp : other.find? p = memo.find? p) (hq : other.find? q = memo.find? q) :
    (other.getOrInsert p v).2.find? q = (memo.getOrInsert p v).2.find? q := by
  rw [find?_getOrInsert, find?_getOrInsert, hp, hq]

/-- A memo with the same entries in the cone of the pair is resolved alike: with this result
and these stores. Wherever the two memos agree, those that are left agree too. -/
def Transfers (memo later : Memo b) (p : Pair) (result : Except Pair (Word b))
    (stores : List (Pair × Word b)) : Prop :=
  ∀ other : Memo b, (∀ q ∈ p.cone, other.find? q = memo.find? q) →
    ∃ last, other.Resolves p result last stores ∧
      ∀ q, other.find? q = memo.find? q → last.find? q = later.find? q

/-- The two predecessors, one after the other. Neither leaves the cone of the pair. -/
theorem Transfers.both {left above : Memo b} {x : Word b} {s t : List (Pair × Word b)}
    (hbase : p.isBase = false) (h : Transfers memo left p.shifted (.ok x) s)
    (h' : Transfers left above p.column result t)
    (hagree : ∀ q ∈ p.cone, other.find? q = memo.find? q) :
    ∃ left' above', other.Resolves p.shifted (.ok x) left' s ∧
      left'.Resolves p.column result above' t ∧
      ∀ q, other.find? q = memo.find? q → above'.find? q = above.find? q := by
  obtain ⟨left', hleft, hsame⟩ :=
    h other fun q hq => hagree q (Pair.cone_shifted_subset hbase hq)
  obtain ⟨above', habove, hsame'⟩ :=
    h' left' fun q hq => hsame q (hagree q (Pair.cone_column_subset hbase hq))
  exact ⟨left', above', hleft, habove, fun q hq => hsame' q (hsame q hq)⟩

/-- A resolution goes the same way on every memo that has the same entries in the cone. -/
theorem Resolves.transfers (h : memo.Resolves p result later stores) :
    Transfers memo later p result stores := by
  induction h with
  | border hbase => exact fun other _ => ⟨other, .border hbase, fun _ hq => hq⟩
  | @hit memo p v hbase hfind =>
      intro other hagree
      have hself := hagree p (Pair.self_mem_cone hbase)
      exact ⟨other, .hit hbase (hself.trans hfind), fun _ hq => hq⟩
  | @stopShifted memo left p q s hbase hmiss _ ih =>
      intro other hagree
      have hself := hagree p (Pair.self_mem_cone hbase)
      obtain ⟨left', hleft, hsame⟩ :=
        ih other fun q hq => hagree q (Pair.cone_shifted_subset hbase hq)
      exact ⟨left', .stopShifted hbase (hself.trans hmiss) hleft, hsame⟩
  | @stopColumn memo left above p q x s t hbase hmiss _ _ ih ih' =>
      intro other hagree
      have hself := hagree p (Pair.self_mem_cone hbase)
      obtain ⟨left', above', hleft, habove, hsame⟩ := ih.both hbase ih' hagree
      exact ⟨above', .stopColumn hbase (hself.trans hmiss) hleft habove, hsame⟩
  | @refused memo left above p x y s t hbase hmiss _ _ hstep ih ih' =>
      intro other hagree
      have hself := hagree p (Pair.self_mem_cone hbase)
      obtain ⟨left', above', hleft, habove, hsame⟩ := ih.both hbase ih' hagree
      exact ⟨above', .refused hbase (hself.trans hmiss) hleft habove hstep, hsame⟩
  | @stored memo left above p x y v s t hbase hmiss _ _ hstep ih ih' =>
      intro other hagree
      have hself := hagree p (Pair.self_mem_cone hbase)
      obtain ⟨left', above', hleft, habove, hsame⟩ := ih.both hbase ih' hagree
      have hstored := Resolves.stored hbase (hself.trans hmiss) hleft habove hstep
      -- both memos return what they then have for the pair, which is the same
      have hp := hsame p hself
      rw [fst_getOrInsert, hp, ← fst_getOrInsert] at hstored
      exact ⟨_, hstored, fun q hq => find?_getOrInsert_congr v hp (hsame q hq)⟩

/-- An evaluation keeps every entry and adds entries in its cone only, none at all if it is
settled beforehand. On another memo with the same entries in the cone it is answered alike and
adds the same entries, whatever that memo has elsewhere, on the borders for instance. -/
theorem evaluate_footprint (memo : Memo b) (n m : Int) :
    memo.Grows (memo.evaluate n m).memo ∧
    (∀ q v, memo.find? q = none → (memo.evaluate n m).memo.find? q = some v → q.InCone n m) ∧
    (n < 1 ∨ m < 1 ∨ n < m ∨ m = 1 ∨ n = m ∨ b < n - m + 1 →
      (memo.evaluate n m).memo = memo) ∧
    ∀ other : Memo b, (∀ q, q.InCone n m → other.find? q = memo.find? q) →
      (other.evaluate n m).outcome = (memo.evaluate n m).outcome ∧
      ∀ q v, other.find? q = none ∧ (other.evaluate n m).memo.find? q = some v ↔
        memo.find? q = none ∧ (memo.evaluate n m).memo.find? q = some v := by
  by_cases h : 1 < m ∧ m < n ∧ n - m + 1 ≤ b
  · have hadmission : Admission.ofRequest b n m = .compute ⟨n.toNat, m.toNat⟩ :=
      Admission.ofRequest_eq_compute_iff.2 ⟨h, rfl⟩
    have hcone : ∀ q : Pair, q.InCone n m ↔ q ∈ Pair.cone ⟨n.toNat, m.toNat⟩ := fun q =>
      Pair.inCone_iff_mem_cone (Admission.of_compute hadmission).1
    obtain ⟨result, later, stores, hresolves⟩ := memo.exists_resolves ⟨n.toNat, m.toNat⟩
    rw [hresolves.evaluate_eq hadmission]
    refine ⟨hresolves.records.kept, ?_, ?_, ?_⟩
    · intro q v hmiss hfind
      have hthere : (later.find? q).isSome := by rw [hfind]; rfl
      exact (hcone q).2 (hresolves.mem_cone q (hresolves.records.mem_keys.2 ⟨hmiss, hthere⟩))
    · intro hsettled
      omega
    · intro other hagree
      obtain ⟨last, hlast, -⟩ :=
        hresolves.transfers other fun q hq => hagree q ((hcone q).2 hq)
      rw [hlast.evaluate_eq hadmission]
      refine ⟨rfl, fun q v => ?_⟩
      rw [← hlast.records.exact, ← hresolves.records.exact]
  · obtain ⟨outcome, hsettled⟩ := Admission.exists_settled h
    rw [evaluate_settled hsettled]
    have hnothing : ∀ (any : Memo b) (q : Pair) (v : Word b),
        ¬ (any.find? q = none ∧ any.find? q = some v) := by
      rintro any q v ⟨hmiss, hfind⟩
      rw [hmiss] at hfind
      cases hfind
    refine ⟨.refl memo, ?_, fun _ => rfl, ?_⟩
    · exact fun q v hmiss hfind => absurd ⟨hmiss, hfind⟩ (hnothing memo q v)
    · intro other _
      rw [evaluate_settled hsettled]
      exact ⟨rfl, fun q v => iff_of_false (hnothing other q v) (hnothing memo q v)⟩

end Memo

end StirlingTriangle
