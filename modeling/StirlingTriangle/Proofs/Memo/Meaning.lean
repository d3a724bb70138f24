import StirlingTriangle.Memo.Evaluate
import StirlingTriangle.Proofs.Admission

/-!
# Memo.Meaning

What a memo says about the triangle, without storing anything: its entries
may be wrong, and a step may read an entry whose own predecessors are missing.

* `memo.Grows later`: every entry of `memo` is in `later`, unchanged;
* `memo.held? p` is what a step reads for `p`: 1 on the borders, whatever the
  memo has there, and the entry elsewhere;
* `memo.value? p` is the value that the memo determines for `p`, by recursion
  on the row wherever it has no entry;
* `memo.Adds p q`: resolving `p` on this memo stores an entry for `q`;
* `Derived start roots memo`: `memo` comes from `start` by resolving some of
  `roots`, wholly or in part; `Completed` says that all of them are done.

A completed memo is determined by `start` and `roots` alone
(`Completed.find?_eq_some_iff`), which is why neither the order of requests
nor the turns of concurrent ones can be seen in it.
-/

namespace StirlingTriangle

namespace Memo

variable {b : Nat}

/-! ## Growth -/

/-- Every entry of `memo` is in `later`, unchanged. -/
def Grows (memo later : Memo b) : Prop :=
  ∀ q v, memo.find? q = some v → later.find? q = some v

theorem Grows.refl (memo : Memo b) : memo.Grows memo := fun _ _ h => h

theorem Grows.trans {memo later last : Memo b} (h : memo.Grows later) (h' : later.Grows last) :
    memo.Grows last := fun q v hq => h' q v (h q v hq)

theorem grows_getOrInsert (memo : Memo b) (p : Pair) (value : Word b) :
    memo.Grows (memo.getOrInsert p value).2 :=
  fun _ _ h => find?_getOrInsert_of_some h p value

theorem Grows.find?_isSome {memo later : Memo b} (h : memo.Grows later) {q : Pair}
    (hq : (memo.find? q).isSome) : (later.find? q).isSome := by
  obtain ⟨v, hv⟩ := Option.isSome_iff_exists.1 hq
  rw [h q v hv]
  rfl

/-- What is missing from a memo was missing before. -/
theorem Grows.find?_eq_none {memo later : Memo b} (h : memo.Grows later) {q : Pair}
    (hq : later.find? q = none) : memo.find? q = none := by
  cases hv : memo.find? q with
  | none => rfl
  | some v =>
      rw [h q v hv] at hq
      cases hq

/-- Memos with the same entries have the same number of them. -/
theorem size_eq_of_find?_eq {memo other : Memo b} (h : ∀ q, memo.find? q = other.find? q) :
    memo.size = other.size :=
  (Std.HashMap.Equiv.of_forall_getElem?_eq h).size_eq

/-! ## What a step reads -/

/-- What a step reads for `p`: 1 on the borders, and elsewhere the entry of `p`. -/
def held? (memo : Memo b) (p : Pair) : Option (Word b) :=
  if p.isBase then some 1 else memo.find? p

theorem held?_base {memo : Memo b} {p : Pair} (h : p.isBase = true) : memo.held? p = some 1 := by
  rw [held?, if_pos h]

theorem held?_inner {memo : Memo b} {p : Pair} (h : p.isBase = false) :
    memo.held? p = memo.find? p := by
  rw [held?, h]
  rfl

theorem Grows.held? {memo later : Memo b} (h : memo.Grows later) {p : Pair} {v : Word b}
    (hv : memo.held? p = some v) : later.held? p = some v := by
  cases hp : p.isBase with
  | true =>
      rw [held?_base hp] at hv ⊢
      exact hv
  | false =>
      rw [held?_inner hp] at hv ⊢
      exact h p v hv

/-! ## The value that a memo determines -/

/-- The value of `p` as far as the memo determines it: its entry, or else the checked step of
the values of its predecessors. It is missing if a step is refused on the way. -/
def value? (memo : Memo b) (p : Pair) : Option (Word b) :=
  if p.isBase then some 1
  else match memo.find? p with
    | some value => some value
    | none =>
      (memo.value? p.shifted).bind fun left =>
        (memo.value? p.column).bind fun above => left.step p.m above
termination_by p.n
decreasing_by
  all_goals
    have := Pair.isBase_eq_false_iff.1 (Bool.eq_false_iff.2 ‹¬_›)
    simp only [Pair.shifted, Pair.column]
    omega

theorem value?_base {memo : Memo b} {p : Pair} (h : p.isBase = true) :
    memo.value? p = some 1 := by
  rw [value?, if_pos h]

theorem value?_hit {memo : Memo b} {p : Pair} {v : Word b} (h : p.isBase = false)
    (hv : memo.find? p = some v) : memo.value? p = some v := by
  rw [value?, if_neg (Bool.eq_false_iff.1 h), hv]

theorem value?_miss {memo : Memo b} {p : Pair} (h : p.isBase = false)
    (hp : memo.find? p = none) :
    memo.value? p = (memo.value? p.shifted).bind fun left =>
      (memo.value? p.column).bind fun above => left.step p.m above := by
  rw [value?, if_neg (Bool.eq_false_iff.1 h), hp]

/-- The answer to a request that the memo determines. -/
def answer (memo : Memo b) (n m : Int) : Outcome b :=
  match Admission.ofRequest b n m with
  | .settled outcome => outcome
  | .compute pair => .ofValue? pair (memo.value? pair)

theorem answer_settled (memo : Memo b) {n m : Int} {outcome : Outcome b}
    (h : Admission.ofRequest b n m = .settled outcome) : memo.answer n m = outcome := by
  rw [answer, h]

theorem answer_compute (memo : Memo b) {n m : Int} {pair : Pair}
    (h : Admission.ofRequest b n m = .compute pair) :
    memo.answer n m = .ofValue? pair (memo.value? pair) := by
  rw [answer, h]

/-! ## The entries that a resolution adds -/

/-- Resolving `p` on this memo stores an entry for `q`. The predecessor above is only resolved
if the shifted one has a value, and `p` is only stored if its own step is not refused. -/
inductive Adds (memo : Memo b) : Pair → Pair → Prop where
  | self {p : Pair} {v : Word b} :
      p.isBase = false → memo.find? p = none → memo.value? p = some v → Adds memo p p
  | shifted {p q : Pair} :
      p.isBase = false → memo.find? p = none → Adds memo p.shifted q → Adds memo p q
  | column {p q : Pair} {left : Word b} :
      p.isBase = false → memo.find? p = none → memo.value? p.shifted = some left →
      Adds memo p.column q → Adds memo p q

theorem not_adds_base {memo : Memo b} {p q : Pair} (h : p.isBase = true) :
    ¬ memo.Adds p q := by
  intro hadds
  cases hadds <;> simp_all

theorem not_adds_hit {memo : Memo b} {p q : Pair} {v : Word b} (h : memo.find? p = some v) :
    ¬ memo.Adds p q := by
  intro hadds
  cases hadds <;> simp_all

/-- What is added was missing, lies off the borders and has a value. -/
theorem Adds.fresh {memo : Memo b} {p q : Pair} (h : memo.Adds p q) :
    q.isBase = false ∧ memo.find? q = none ∧ ∃ v, memo.value? q = some v := by
  induction h with
  | self hp hmiss hv => exact ⟨hp, hmiss, _, hv⟩
  | shifted _ _ _ ih => exact ih
  | column _ _ _ _ ih => exact ih

/-! ## Memos derived from one another -/

/-- The memo has grown from `start`, and each entry that is new has the value that `start`
determines, is one that resolving a root adds, and has everything with it that resolving its
own pair adds. -/
structure Derived (start : Memo b) (roots : Pair → Prop) (memo : Memo b) : Prop where
  grows : start.Grows memo
  value : ∀ q v, memo.find? q = some v → start.find? q = none → start.value? q = some v
  wanted : ∀ q v, memo.find? q = some v → start.find? q = none →
    ∃ root, roots root ∧ start.Adds root q
  closed : ∀ q v, memo.find? q = some v → start.find? q = none →
    ∀ r, start.Adds q r → (memo.find? r).isSome

theorem Derived.refl (start : Memo b) (roots : Pair → Prop) : Derived start roots start := by
  have hold : ∀ q v, start.find? q = some v → start.find? q ≠ none := by
    intro q v hv hmiss
    rw [hv] at hmiss
    cases hmiss
  exact ⟨Grows.refl start, fun q v hv hmiss => absurd hmiss (hold q v hv),
    fun q v hv hmiss => absurd hmiss (hold q v hv),
    fun q v hv hmiss => absurd hmiss (hold q v hv)⟩

/-- What a step reads in a derived memo is the value that `start` determines, and nothing that
resolving the pair would add is missing any more. -/
theorem Derived.held? {start memo : Memo b} {roots : Pair → Prop} (h : Derived start roots memo)
    {q : Pair} {v : Word b} (hv : memo.held? q = some v) :
    start.value? q = some v ∧ ∀ r, start.Adds q r → (memo.find? r).isSome := by
  cases hq : q.isBase with
  | true =>
      rw [held?_base hq] at hv
      exact ⟨(value?_base hq).trans hv, fun r hadds => absurd hadds (not_adds_base hq)⟩
  | false =>
      rw [held?_inner hq] at hv
      cases hstart : start.find? q with
      | none => exact ⟨h.value q v hv hstart, h.closed q v hv hstart⟩
      | some w =>
          have hw : some w = some v := (h.grows q w hstart).symm.trans hv
          refine ⟨?_, fun r hadds => absurd hadds (not_adds_hit hstart)⟩
          rw [value?_hit hq hstart, hw]

/-- A step whose operands are there can be taken: `r` was missing from the start, and its two
predecessors have been resolved. -/
structure Ready (start memo : Memo b) (r : Pair) (left above : Word b) : Prop where
  inner : r.isBase = false
  missing : start.find? r = none
  left : memo.held? r.shifted = some left
  above : memo.held? r.column = some above

theorem Ready.mono {start memo later : Memo b} {r : Pair} {left above : Word b}
    (h : Ready start memo r left above) (hgrows : memo.Grows later) :
    Ready start later r left above :=
  ⟨h.inner, h.missing, hgrows.held? h.left, hgrows.held? h.above⟩

/-- The result of a step that is ready is the value that `start` determines. -/
theorem Ready.value? {start memo : Memo b} {roots : Pair → Prop} {r : Pair}
    {left above : Word b} (h : Ready start memo r left above)
    (hderived : Derived start roots memo) : start.value? r = left.step r.m above := by
  rw [value?_miss h.inner h.missing, (hderived.held? h.left).1, Option.bind_some,
    (hderived.held? h.above).1, Option.bind_some]

/-- Both predecessors are done, so of what resolving `r` adds at most `r` itself is missing. -/
theorem Ready.closed {start memo : Memo b} {roots : Pair → Prop} {r q : Pair}
    {left above : Word b} (h : Ready start memo r left above)
    (hderived : Derived start roots memo) (hadds : start.Adds r q) :
    (q = r ∧ ∃ v, left.step r.m above = some v) ∨ (memo.find? q).isSome := by
  cases hadds with
  | self _ _ hv =>
      rw [h.value? hderived] at hv
      exact .inl ⟨rfl, _, hv⟩
  | shifted _ _ hq => exact .inr ((hderived.held? h.left).2 q hq)
  | column _ _ _ hq => exact .inr ((hderived.held? h.above).2 q hq)

/-- Storing the result of a step that is ready keeps the memo derived. -/
theorem Derived.store {start memo : Memo b} {roots : Pair → Prop}
    (h : Derived start roots memo) {r : Pair} {left above v : Word b}
    (hready : Ready start memo r left above) (hstep : left.step r.m above = some v)
    (hwanted : ∃ root, roots root ∧ start.Adds root r) :
    Derived start roots (memo.getOrInsert r v).2 := by
  have hgrows := grows_getOrInsert memo r v
  have hvalue : start.value? r = some v := (hready.value? h).trans hstep
  -- the pair may have got an entry from somebody else since it was missed; it is the same
  have hstored : (memo.find? r).getD v = v := by
    cases hr : memo.find? r with
    | none => rfl
    | some w =>
        have := (h.value r w hr hready.missing).symm.trans hvalue
        exact Option.some.inj this
  have hfind : ∀ q w, (memo.getOrInsert r v).2.find? q = some w →
      (q = r ∧ w = v) ∨ memo.find? q = some w := by
    intro q w hq
    rw [find?_getOrInsert, hstored] at hq
    split at hq
    · rename_i hqr
      exact .inl ⟨hqr, (Option.some.inj hq).symm⟩
    · exact .inr hq
  refine ⟨h.grows.trans hgrows, ?_, ?_, ?_⟩
  · intro q w hq hmiss
    rcases hfind q w hq with ⟨rfl, rfl⟩ | hold
    · exact hvalue
    · exact h.value q w hold hmiss
  · intro q w hq hmiss
    rcases hfind q w hq with ⟨rfl, rfl⟩ | hold
    · exact hwanted
    · exact h.wanted q w hold hmiss
  · intro q w hq hmiss s hadds
    rcases hfind q w hq with ⟨rfl, rfl⟩ | hold
    · rcases hready.closed h hadds with ⟨rfl, -⟩ | hthere
      · rw [find?_getOrInsert_self]
        rfl
      · exact hgrows.find?_isSome hthere
    · exact hgrows.find?_isSome (h.closed q w hold hmiss s hadds)

/-! ## Memos in which all roots are resolved -/

/-- Derived, with everything that resolving a root adds. -/
structure Completed (start : Memo b) (roots : Pair → Prop) (memo : Memo b) : Prop
    extends Derived start roots memo where
  done : ∀ root, roots root → ∀ q, start.Adds root q → (memo.find? q).isSome

/-- The entries of a completed memo: those of `start`, and the values that it determines for
the pairs that resolving the roots adds. -/
theorem Completed.find?_eq_some_iff {start memo : Memo b} {roots : Pair → Prop}
    (h : Completed start roots memo) {q : Pair} {v : Word b} :
    memo.find? q = some v ↔
      start.find? q = some v ∨
        (∃ root, roots root ∧ start.Adds root q) ∧ start.value? q = some v := by
  constructor
  · intro hv
    cases hstart : start.find? q with
    | some w => exact .inl ((h.grows q w hstart).symm.trans hv)
    | none => exact .inr ⟨h.wanted q v hv hstart, h.value q v hv hstart⟩
  · rintro (hstart | ⟨⟨root, hroot, hadds⟩, hv⟩)
    · exact h.grows q v hstart
    · obtain ⟨w, hw⟩ := Option.isSome_iff_exists.1 (h.done root hroot q hadds)
      rw [hw, ← h.value q w hw hadds.fresh.2.1, hv]

/-- Memos that are completed for the same roots have the same entries. -/
theorem Completed.find?_eq {start memo other : Memo b} {roots roots' : Pair → Prop}
    (h : Completed start roots memo) (h' : Completed start roots' other)
    (hroots : ∀ root, roots root ↔ roots' root) (q : Pair) : memo.find? q = other.find? q := by
  apply Option.ext
  intro v
  rw [h.find?_eq_some_iff, h'.find?_eq_some_iff]
  simp only [hroots]

end Memo

end StirlingTriangle
