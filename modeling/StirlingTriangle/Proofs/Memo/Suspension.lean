import StirlingTriangle.Proofs.Memo.Meaning

/-!
# Memo.Suspension

The invariant of a descent that is suspended between two operations on the
memo, while others may store whatever they like.

* `Suspended start memo root q frames`: resolving `root` has led to `q`, and
  `frames` is the work that is left over on the way;
* `Sound start memo root d` is the invariant of the state `d`. It only speaks
  of what the memo holds, so it outlives every growth of the memo
  (`Sound.mono`);
* `Sound.step` says what one transition can do: nothing to the memo, or store
  the result of a step whose operands the memo holds;
* `Sound.finished` reads off what a finished descent has found and done when
  the memo is derived from the one that it started on.

`start` is any memo that the present one has grown from.
-/

namespace StirlingTriangle

namespace Descent

open Memo

variable {b : Nat} {start memo later : Memo b} {root : Pair}

/-! ## The work that is left over -/

/-- The pair `q` is wanted on behalf of `root`: each frame has missed its pair in the memo, and
remembers the value that the memo holds for its shifted predecessor. -/
inductive Suspended (start memo : Memo b) (root : Pair) : Pair → List (Frame b) → Prop where
  | root : Suspended start memo root root []
  | shifted {r : Pair} {frames : List (Frame b)} :
      r.isBase = false → start.find? r = none → Suspended start memo root r frames →
      Suspended start memo root r.shifted (.shifted r :: frames)
  | column {r : Pair} {left : Word b} {frames : List (Frame b)} :
      r.isBase = false → start.find? r = none → memo.held? r.shifted = some left →
      Suspended start memo root r frames →
      Suspended start memo root r.column (.column r left :: frames)

theorem Suspended.mono {q : Pair} {frames : List (Frame b)} (hgrows : memo.Grows later)
    (h : Suspended start memo root q frames) : Suspended start later root q frames := by
  induction h with
  | root => exact .root
  | shifted hbase hmiss _ ih => exact .shifted hbase hmiss ih
  | column hbase hmiss hleft _ ih => exact .column hbase hmiss (hgrows.held? hleft) ih

/-- What resolving a wanted pair adds is part of what resolving the root adds. -/
theorem Suspended.adds {roots : Pair → Prop} (hderived : Derived start roots memo) {q s : Pair}
    {frames : List (Frame b)} (h : Suspended start memo root q frames)
    (hadds : start.Adds q s) : start.Adds root s := by
  induction h with
  | root => exact hadds
  | shifted hbase hmiss _ ih => exact ih (.shifted hbase hmiss hadds)
  | column hbase hmiss hleft _ ih =>
      exact ih (.column hbase hmiss (hderived.held? hleft).1 hadds)

/-- A wanted pair without a value leaves the root without one; and once the memo has everything
that resolving the pair adds, it has everything that resolving the root adds. -/
theorem Suspended.refused {roots : Pair → Prop} (hderived : Derived start roots memo) {q : Pair}
    {frames : List (Frame b)} (h : Suspended start memo root q frames)
    (hnone : start.value? q = none) (hdone : ∀ s, start.Adds q s → (memo.find? s).isSome) :
    start.value? root = none ∧ ∀ s, start.Adds root s → (memo.find? s).isSome := by
  induction h with
  | root => exact ⟨hnone, hdone⟩
  | shifted hbase hmiss _ ih =>
      -- without a value on the left the predecessor above is not resolved at all
      have hvalue := value?_miss hbase hmiss
      rw [hnone, Option.bind_none] at hvalue
      refine ih hvalue ?_
      intro s hadds
      cases hadds with
      | self _ _ hv =>
          rw [hvalue] at hv
          cases hv
      | shifted _ _ hs => exact hdone s hs
      | column _ _ hleft _ =>
          rw [hnone] at hleft
          cases hleft
  | column hbase hmiss hleft _ ih =>
      -- the left one has been resolved before, and the memo still has what that added
      obtain ⟨hvalueLeft, hdoneLeft⟩ := hderived.held? hleft
      have hvalue := value?_miss hbase hmiss
      rw [hvalueLeft, Option.bind_some, hnone, Option.bind_none] at hvalue
      refine ih hvalue ?_
      intro s hadds
      cases hadds with
      | self _ _ hv =>
          rw [hvalue] at hv
          cases hv
      | shifted _ _ hs => exact hdoneLeft s hs
      | column _ _ _ hs => exact hdone s hs

/-! ## The invariant of a state -/

/-- What is known of a descent for `root` in each of its states. -/
def Sound (start memo : Memo b) (root : Pair) : Descent b → Prop
  | resolve q frames => Suspended start memo root q frames
  | resume v frames => ∃ q, Suspended start memo root q frames ∧ memo.held? q = some v
  | finished (.ok v) => memo.held? root = some v
  | finished (.error r) =>
    ∃ frames left above, Suspended start memo root r frames ∧
      Ready start memo r left above ∧ left.step r.m above = none

theorem Sound.mono (hgrows : memo.Grows later) {d : Descent b} (h : Sound start memo root d) :
    Sound start later root d := by
  match d with
  | resolve q frames => exact Suspended.mono hgrows h
  | resume v frames =>
      obtain ⟨q, hq, hv⟩ := h
      exact ⟨q, hq.mono hgrows, hgrows.held? hv⟩
  | finished (.ok v) => exact hgrows.held? h
  | finished (.error r) =>
      obtain ⟨frames, left, above, hr, hready, hstep⟩ := h
      exact ⟨frames, left, above, hr.mono hgrows, hready.mono hgrows, hstep⟩

/-- A transition leaves the memo alone, or stores the result of a step for which the memo holds
both operands; what goes on is the value that the memo then has for the pair. -/
theorem Sound.step (hgrows : start.Grows memo) {d : Descent b} (h : Sound start memo root d) :
    ((d.step memo).2.1 = memo ∧ Sound start memo root (d.step memo).1) ∨
    ∃ r frames left above v, Suspended start memo root r frames ∧
      Ready start memo r left above ∧ left.step r.m above = some v ∧
      (d.step memo).1 = resume (memo.getOrInsert r v).1 frames ∧
      (d.step memo).2.1 = (memo.getOrInsert r v).2 := by
  match d with
  | resolve q frames =>
      left
      rw [Descent.step]
      cases hbase : q.isBase with
      | true => exact ⟨rfl, q, h, held?_base hbase⟩
      | false =>
          rw [if_neg Bool.false_ne_true]
          cases hfind : memo.find? q with
          | some v => exact ⟨rfl, q, h, (held?_inner hbase).trans hfind⟩
          | none => exact ⟨rfl, .shifted hbase (hgrows.find?_eq_none hfind) h⟩
  | resume v [] =>
      left
      obtain ⟨q, hq, hv⟩ := h
      cases hq with
      | root => exact ⟨rfl, hv⟩
  | resume left (.shifted r :: frames) =>
      left
      obtain ⟨q, hq, hv⟩ := h
      cases hq with
      | shifted hbase hmiss hr => exact ⟨rfl, .column hbase hmiss hv hr⟩
  | resume above (.column r left :: frames) =>
      obtain ⟨q, hq, hv⟩ := h
      cases hq with
      | column hbase hmiss hleft hr =>
          -- the only transition that may store
          have hready : Ready start memo r left above := ⟨hbase, hmiss, hleft, hv⟩
          rw [Descent.step]
          cases hstep : left.step r.m above with
          | none => exact .inl ⟨rfl, frames, left, above, hr, hready, hstep⟩
          | some v => exact .inr ⟨r, frames, left, above, v, hr, hready, hstep, rfl, rfl⟩
  | finished result => exact .inl ⟨rfl, h⟩

theorem grows_step (d : Descent b) (memo : Memo b) : memo.Grows (d.step memo).2.1 := by
  match d with
  | resolve q frames =>
      rw [Descent.step]
      split
      · exact Grows.refl memo
      · split <;> exact Grows.refl memo
  | resume v [] => exact Grows.refl memo
  | resume v (.shifted r :: frames) => exact Grows.refl memo
  | resume above (.column r left :: frames) =>
      rw [Descent.step]
      split
      · exact Grows.refl memo
      · exact grows_getOrInsert memo r _
  | finished result => exact Grows.refl memo

theorem Sound.sound_step (hgrows : start.Grows memo) {d : Descent b}
    (h : Sound start memo root d) : Sound start (d.step memo).2.1 root (d.step memo).1 := by
  rcases h.step hgrows with ⟨hmemo, hsound⟩ | ⟨r, frames, left, above, v, hr, hready, -, hd, hmemo⟩
  · rw [hmemo]
    exact hsound
  · rw [hmemo, hd]
    refine ⟨r, hr.mono (grows_getOrInsert memo r v), ?_⟩
    rw [held?_inner hready.inner, find?_getOrInsert_self]

/-! ## What a finished descent has found -/

theorem outcome_eq_ofValue? (root : Pair) (result : Except Pair (Word b)) :
    outcome root result = .ofValue? root result.toOption := by
  cases result <;> rfl

/-- A finished descent has found the value that `start` determines for its root, or that there
is none, and the memo has everything that resolving the root adds. -/
theorem Sound.finished {roots : Pair → Prop} (hderived : Derived start roots memo)
    {result : Except Pair (Word b)} (h : Sound start memo root (finished result)) :
    start.value? root = result.toOption ∧ ∀ s, start.Adds root s → (memo.find? s).isSome := by
  match result with
  | .ok v => exact hderived.held? h
  | .error r =>
      obtain ⟨frames, left, above, hr, hready, hstep⟩ := h
      refine hr.refused hderived ((hready.value? hderived).trans hstep) ?_
      intro s hadds
      rcases hready.closed hderived hadds with ⟨-, v, hv⟩ | hthere
      · rw [hstep] at hv
        cases hv
      · exact hthere

end Descent

end StirlingTriangle
