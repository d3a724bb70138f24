import StirlingTriangle.Proofs.ColumnOrder
import StirlingTriangle.Proofs.Memo.Resolution

/-!
# Memo.Enumeration

The order in which a resolution on an empty memo works through its cone.

* `memo.Lists pairs`: the memo has these pairs with the entries of the
  triangle, and nothing else;
* `memo.Enumerates later p done todo`: on a memo that lists `done`, resolving
  `p` stores the pairs of `todo` one after the other until an entry does not
  fit, and says so;
* `exists_enumerates_step` composes a pair from its two predecessors. The column
  of a pair is enumerated downwards once the columns before it are there
  (`exists_enumerates_below`), and so the cone column by column
  (`exists_enumerates_cone`).
-/

namespace StirlingTriangle

variable {b : Nat}

/-- The entry of the pair as a word. It is the true one if it fits. -/
def Pair.word (b : Nat) (p : Pair) : Word b := BitVec.ofNat b (stirling p.n p.m)

theorem Pair.Fits.toNat_word {p : Pair} (h : p.Fits b) : (p.word b).toNat = stirling p.n p.m :=
  Word.toNat_ofNat h

theorem Pair.fits_base (hb : 0 < b) {p : Pair} (h : p.isBase = true) : p.Fits b := by
  rw [Fits, stirling_base h]
  exact Word.one_lt_limit hb

/-- What resolving `p` comes to if the pairs of `todo` are worked through for it. -/
def Pair.verdict (b : Nat) (p : Pair) (todo : List Pair) : Except Pair (Word b) :=
  match firstUnfit? b todo with
  | some q => .error q
  | none => .ok (p.word b)

theorem Pair.verdict_of_some {p q : Pair} {todo : List Pair} (h : firstUnfit? b todo = some q) :
    p.verdict b todo = .error q := by
  rw [verdict, h]

theorem Pair.verdict_of_none {p : Pair} {todo : List Pair} (h : firstUnfit? b todo = none) :
    p.verdict b todo = .ok (p.word b) := by
  rw [verdict, h]

namespace Memo

variable {memo later : Memo b} {p q : Pair} {done todo s t : List Pair} {v : Word b}

/-! ## What a memo lists -/

/-- The memo has these pairs with the entries of the triangle, all of which fit, and nothing
else. -/
structure Lists (memo : Memo b) (pairs : List Pair) : Prop where
  fits : ∀ q ∈ pairs, q.Fits b
  find?_eq : ∀ q, memo.find? q = if q ∈ pairs then some (q.word b) else none

theorem lists_empty : (empty : Memo b).Lists [] where
  fits := fun _ hq => absurd hq List.not_mem_nil
  find?_eq := fun q => find?_empty q

theorem Lists.find?_of_mem (h : memo.Lists done) (hq : q ∈ done) :
    memo.find? q = some (q.word b) := by
  rw [h.find?_eq, if_pos hq]

theorem Lists.find?_of_notMem (h : memo.Lists done) (hq : q ∉ done) : memo.find? q = none := by
  rw [h.find?_eq, if_neg hq]

theorem Lists.find?_eq_some_iff (h : memo.Lists done) :
    memo.find? q = some v ↔ q ∈ done ∧ v.toNat = stirling q.n q.m := by
  rw [h.find?_eq]
  constructor
  · intro hv
    split at hv
    · rename_i hq
      cases hv
      exact ⟨hq, (h.fits q hq).toNat_word⟩
    · cases hv
  · rintro ⟨hq, hv⟩
    rw [if_pos hq, Option.some_inj]
    exact BitVec.eq_of_toNat_eq ((h.fits q hq).toNat_word.trans hv.symm)

/-- What is held is true. -/
theorem Lists.toNat_of_held? (h : memo.Lists done) (hb : 0 < b)
    (hv : memo.held? q = some (q.word b)) : (q.word b).toNat = stirling q.n q.m := by
  cases hbase : q.isBase with
  | true => exact (Pair.fits_base hb hbase).toNat_word
  | false =>
      rw [held?_inner hbase] at hv
      refine (h.fits q ?_).toNat_word
      by_contra hq
      rw [h.find?_of_notMem hq] at hv
      cases hv

theorem Lists.store (h : memo.Lists done) (hp : p ∉ done) (hfits : p.Fits b) :
    (memo.getOrInsert p (p.word b)).2.Lists (done ++ [p]) where
  fits := by
    intro q hq
    rcases List.mem_append.1 hq with hq | hq
    · exact h.fits q hq
    · obtain rfl := List.mem_singleton.1 hq
      exact hfits
  find?_eq := by
    intro q
    rw [find?_getOrInsert, h.find?_of_notMem hp, Option.getD_none]
    by_cases hq : q = p
    · simp [hq]
    · rw [if_neg hq, h.find?_eq]
      simp [hq]

theorem Lists.size (h : memo.Lists done) (hdistinct : done.Nodup) : memo.size = done.length := by
  have hkeys : memo.keys = done.toFinset := by
    ext q
    rw [mem_keys, h.find?_eq, List.mem_toFinset]
    split <;> simp [*]
  rw [← card_keys, hkeys, List.toFinset_card_of_nodup hdistinct]

/-! ## Working through a list -/

/-- On a memo that lists `done`, resolving `p` stores the pairs of `todo` in their order until
an entry does not fit. -/
structure Enumerates (memo later : Memo b) (p : Pair) (done todo : List Pair) : Prop where
  resolves : memo.Resolves p (p.verdict b todo) later
    ((Pair.fittingPart b todo).map fun q => (q, q.word b))
  lists : later.Lists (done ++ Pair.fittingPart b todo)

/-- There is nothing to do for a pair that is held. -/
theorem enumerates_nil (hlists : memo.Lists done) (h : memo.held? p = some (p.word b)) :
    memo.Enumerates memo p done [] where
  resolves := resolves_of_held? h
  lists := by
    rw [show Pair.fittingPart b [] = [] from rfl, List.append_nil]
    exact hlists

theorem enumerates_base (hlists : memo.Lists done) (hbase : p.isBase = true) :
    memo.Enumerates memo p done [] := by
  refine enumerates_nil hlists ?_
  rw [held?_base hbase, Pair.word, stirling_base hbase]
  rfl

/-- Nothing fails on behalf of a list that fits as a whole. -/
theorem Enumerates.of_none (h : memo.Enumerates later p done todo)
    (hfits : Pair.firstUnfit? b todo = none) :
    memo.Resolves p (.ok (p.word b)) later (todo.map fun q => (q, q.word b)) ∧
      later.Lists (done ++ todo) := by
  obtain ⟨hresolves, hlists⟩ := h
  rw [Pair.verdict_of_none hfits, Pair.fittingPart_of_none hfits] at hresolves
  rw [Pair.fittingPart_of_none hfits] at hlists
  exact ⟨hresolves, hlists⟩

/-! ## One pair after its predecessors -/

/-- An entry that does not fit on behalf of the shifted predecessor is the end. -/
theorem Enumerates.stop_shifted (h : memo.Enumerates later p.shifted done s)
    (hbase : p.isBase = false) (hmiss : memo.find? p = none)
    (hunfit : Pair.firstUnfit? b s = some q) (rest : List Pair) :
    memo.Enumerates later p done (s ++ rest) where
  resolves := by
    have hshifted := h.resolves
    rw [Pair.verdict_of_some hunfit] at hshifted
    rw [Pair.verdict_of_some (Pair.firstUnfit?_append_of_some hunfit rest),
      Pair.fittingPart_append_of_some hunfit]
    exact .stopShifted hbase hmiss hshifted
  lists := by
    rw [Pair.fittingPart_append_of_some hunfit]
    exact h.lists

/-- So is one on behalf of the predecessor above. -/
theorem Enumerates.stop_column {left above : Memo b} (h : memo.Enumerates left p.shifted done s)
    (hfits : Pair.firstUnfit? b s = none) (h' : left.Enumerates above p.column (done ++ s) t)
    (hbase : p.isBase = false) (hmiss : memo.find? p = none)
    (hunfit : Pair.firstUnfit? b t = some q) (rest : List Pair) :
    memo.Enumerates above p done (s ++ (t ++ rest)) where
  resolves := by
    have hcolumn := h'.resolves
    rw [Pair.verdict_of_some hunfit] at hcolumn
    have hfirst : Pair.firstUnfit? b (s ++ (t ++ rest)) = some q := by
      rw [Pair.firstUnfit?_append_of_none hfits, Pair.firstUnfit?_append_of_some hunfit]
    rw [Pair.verdict_of_some hfirst, Pair.fittingPart_append_of_none hfits,
      Pair.fittingPart_append_of_some hunfit, List.map_append]
    exact .stopColumn hbase hmiss (h.of_none hfits).1 hcolumn
  lists := by
    rw [Pair.fittingPart_append_of_none hfits, Pair.fittingPart_append_of_some hunfit,
      ← List.append_assoc]
    exact h'.lists

/-- With both predecessors there, the pair itself is stored if it fits and refused if not. -/
theorem Enumerates.exists_self {left above : Memo b} (hb : 0 < b)
    (h : memo.Enumerates left p.shifted done s) (hfits : Pair.firstUnfit? b s = none)
    (h' : left.Enumerates above p.column (done ++ s) t) (hfits' : Pair.firstUnfit? b t = none)
    (hbase : p.isBase = false) (hmiss : memo.find? p = none) (hp : p ∉ done ++ s ++ t) :
    ∃ later, memo.Enumerates later p done (s ++ (t ++ [p])) := by
  obtain ⟨hshifted, hlists⟩ := h.of_none hfits
  obtain ⟨hcolumn, hlists'⟩ := h'.of_none hfits'
  obtain ⟨hm, hn⟩ := Pair.isBase_eq_false_iff.1 hbase
  have hstep : (p.shifted.word b).step p.m (p.column.word b) = Word.ofNat? b (stirling p.n p.m) :=
    Word.step_stirling hm hn (hlists.toNat_of_held? hb hshifted.held?)
      (hlists'.toNat_of_held? hb hcolumn.held?)
  have hfirst : Pair.firstUnfit? b (s ++ (t ++ [p])) = Pair.firstUnfit? b [p] := by
    rw [Pair.firstUnfit?_append_of_none hfits, Pair.firstUnfit?_append_of_none hfits']
  have hpart : Pair.fittingPart b (s ++ (t ++ [p])) = s ++ (t ++ Pair.fittingPart b [p]) := by
    rw [Pair.fittingPart_append_of_none hfits, Pair.fittingPart_append_of_none hfits']
  by_cases hself : p.Fits b
  · rw [Pair.firstUnfit?_singleton_of_fits hself] at hfirst
    rw [Word.ofNat?_eq_some_iff.2 hself.toNat_word] at hstep
    have hvalue : (above.getOrInsert p (p.word b)).1 = p.word b := by
      rw [fst_getOrInsert, hlists'.find?_of_notMem hp, Option.getD_none]
    refine ⟨(above.getOrInsert p (p.word b)).2, ?_, ?_⟩
    · have hstored := Resolves.stored hbase hmiss hshifted hcolumn hstep
      rw [hvalue] at hstored
      rw [Pair.verdict_of_none hfirst, Pair.fittingPart_of_none hfirst]
      simpa using hstored
    · rw [Pair.fittingPart_of_none hfirst, ← List.append_assoc, ← List.append_assoc]
      exact hlists'.store hp hself
  · rw [Pair.firstUnfit?_singleton_of_not hself] at hfirst
    rw [Pair.fittingPart_singleton_of_not hself, List.append_nil] at hpart
    rw [Word.ofNat?_eq_none_iff.2 (Nat.not_lt.1 hself)] at hstep
    refine ⟨above, ?_, ?_⟩
    · rw [Pair.verdict_of_some hfirst, hpart, List.map_append]
      exact .refused hbase hmiss hshifted hcolumn hstep
    · rw [hpart, ← List.append_assoc]
      exact hlists'

/-- A pair that is missing is done after its predecessors: all pairs of the shifted one, all of
the one above, then the pair itself, as far as they fit. -/
theorem exists_enumerates_step {left : Memo b} (hb : 0 < b) (hbase : p.isBase = false)
    (hlists : memo.Lists done) (hp : p ∉ done ++ s ++ t)
    (hshifted : memo.Enumerates left p.shifted done s)
    (hcolumn : left.Lists (done ++ s) → ∃ above, left.Enumerates above p.column (done ++ s) t) :
    ∃ later, memo.Enumerates later p done (s ++ (t ++ [p])) := by
  have hmiss : memo.find? p = none := hlists.find?_of_notMem fun h => hp (by simp [h])
  cases hs : Pair.firstUnfit? b s with
  | some q => exact ⟨left, hshifted.stop_shifted hbase hmiss hs _⟩
  | none =>
      obtain ⟨above, habove⟩ := hcolumn (hshifted.of_none hs).2
      cases ht : Pair.firstUnfit? b t with
      | some q => exact ⟨above, hshifted.stop_column hs habove hbase hmiss ht [p]⟩
      | none => exact hshifted.exists_self hb hs habove ht hbase hmiss hp

/-! ## The cone, column by column -/

/-- The column of a pair downwards, when the memo lists the columns before it. -/
theorem exists_enumerates_below (hb : 0 < b) {m d : Nat} (hm : 1 ≤ m) {memo : Memo b}
    (hlists : memo.Lists (Pair.coneList ⟨m + d, m⟩)) (k : Nat) (hk : k ≤ d) :
    ∃ later, memo.Enumerates later ⟨m + 1 + k, m + 1⟩ (Pair.coneList ⟨m + d, m⟩)
      (Pair.below (m + 1) k) := by
  induction k with
  | zero => exact ⟨memo, enumerates_base hlists (by simp [Pair.isBase])⟩
  | succ k ih =>
      have hbase : (Pair.mk (m + 1 + (k + 1)) (m + 1)).isBase = false :=
        Pair.isBase_eq_false_iff.2 (by simp only; omega)
      -- the shifted predecessor lies on a border or in the column before
      have hshifted : memo.Enumerates memo ⟨m + 1 + k, m⟩ (Pair.coneList ⟨m + d, m⟩) [] := by
        cases hprev : (Pair.mk (m + 1 + k) m).isBase with
        | true => exact enumerates_base hlists hprev
        | false =>
            refine enumerates_nil hlists ((held?_inner hprev).trans (hlists.find?_of_mem ?_))
            have hinner := Pair.isBase_eq_false_iff.1 hprev
            rw [Pair.mem_coneList, Pair.mem_cone]
            simp only at hinner ⊢
            omega
      rw [Pair.below_succ]
      refine exists_enumerates_step hb hbase hlists ?_ hshifted fun _ => ?_
      · rw [List.append_nil]
        exact Pair.notMem_coneList_append_below m d k
      · rw [List.append_nil]
        exact ih (by omega)

/-- The cone of a pair, from an empty memo on. -/
theorem exists_enumerates_cone (hb : 0 < b) {m : Nat} (hm : 1 ≤ m) (d : Nat) :
    ∃ later, (empty : Memo b).Enumerates later ⟨m + d, m⟩ [] (Pair.coneList ⟨m + d, m⟩) := by
  induction m, hm using Nat.le_induction generalizing d with
  | base => exact ⟨empty, enumerates_base lists_empty rfl⟩
  | succ m hm ih =>
      cases d with
      | zero =>
          rw [Pair.coneList_of_diagonal (Nat.le_refl _)]
          exact ⟨empty, enumerates_base lists_empty (by simp [Pair.isBase])⟩
      | succ d =>
          have hbase : (Pair.mk (m + 1 + (d + 1)) (m + 1)).isBase = false :=
            Pair.isBase_eq_false_iff.2 (by simp only; omega)
          obtain ⟨left, hleft⟩ := ih (d + 1)
          have hshifted : (empty : Memo b).Enumerates left
              (Pair.mk (m + 1 + (d + 1)) (m + 1)).shifted [] (Pair.coneList ⟨m + (d + 1), m⟩) := by
            have hrow : m + 1 + (d + 1) - 1 = m + (d + 1) := by omega
            rw [Pair.shifted, hrow]
            exact hleft
          rw [Pair.coneList_succ hm, Pair.below_succ]
          refine exists_enumerates_step hb hbase lists_empty ?_ hshifted fun hlists => ?_
          · exact Pair.notMem_coneList_append_below m (d + 1) d
          · exact exists_enumerates_below hb hm hlists d (by omega)

theorem exists_enumerates (hb : 0 < b) (hbase : p.isBase = false) :
    ∃ later, (empty : Memo b).Enumerates later p [] p.coneList := by
  obtain ⟨n, m⟩ := p
  obtain ⟨hm, hn⟩ := Pair.isBase_eq_false_iff.1 hbase
  simp only at hm hn
  obtain ⟨d, rfl⟩ : ∃ d, n = m + d := ⟨n - m, by omega⟩
  exact exists_enumerates_cone hb (by omega) d

end Memo

end StirlingTriangle
