import StirlingTriangle.Proofs.Memo.Journal

/-!
# Memo.Repetition

A request that is repeated, with any other requests in between. It is answered
as it was the first time, and stores nothing.

* `memo.Stepped q v`: the step of `q` gives `v` for what the memo holds for the
  predecessors of `q`;
* `memo.Extends later`: the memo has grown, and each entry that is new is
  stepped. Every request extends the memo (`extends_evaluate`);
* `Resolves.again`: on an extension of the memo that it has left, a resolution
  ends with the same result at once. A pair whose step was refused has no entry
  in an extension, nor has any pair that waited for it, since no step can have
  given them one. So the descent takes the same way to the same refusal.
-/

namespace StirlingTriangle

variable {b : Nat}

namespace Memo

variable {memo later last : Memo b} {p q : Pair} {v : Word b}
  {result : Except Pair (Word b)} {stores : List (Pair × Word b)}

/-! ## Extensions -/

/-- The step of `q` gives `v` for the values that the memo holds. -/
structure Stepped (memo : Memo b) (q : Pair) (v : Word b) : Prop where
  inner : q.isBase = false
  entry : ∃ x y, memo.held? q.shifted = some x ∧ memo.held? q.column = some y ∧
    x.step q.m y = some v

theorem Stepped.mono (h : memo.Stepped q v) (hgrows : memo.Grows later) : later.Stepped q v := by
  obtain ⟨x, y, hx, hy, hstep⟩ := h.entry
  exact ⟨h.inner, x, y, hgrows.held? hx, hgrows.held? hy, hstep⟩

/-- The memo has grown, and each new entry is what its step gives. -/
structure Extends (memo later : Memo b) : Prop where
  grows : memo.Grows later
  stepped : ∀ q v, memo.find? q = none → later.find? q = some v → later.Stepped q v

theorem Extends.refl (memo : Memo b) : memo.Extends memo where
  grows := .refl memo
  stepped := by
    intro q v hmiss hfind
    rw [hmiss] at hfind
    cases hfind

theorem Extends.trans (h : memo.Extends later) (h' : later.Extends last) : memo.Extends last where
  grows := h.grows.trans h'.grows
  stepped := by
    intro q v hmiss hfind
    cases hlater : later.find? q with
    | none => exact h'.stepped q v hlater hfind
    | some w =>
        obtain rfl : w = v := Option.some.inj ((h'.grows q w hlater).symm.trans hfind)
        exact (h.stepped q w hmiss hlater).mono h'.grows

/-- What extends a memo extends every memo on the way to it. -/
theorem Extends.of_grows {left : Memo b} (h : memo.Extends later) (hleft : memo.Grows left)
    (hlater : left.Grows later) : left.Extends later where
  grows := hlater
  stepped := fun q v hmiss => h.stepped q v (hleft.find?_eq_none hmiss)

/-- Storing the result of a step. -/
theorem extends_getOrInsert {x y : Word b} (hbase : p.isBase = false)
    (hx : memo.held? p.shifted = some x) (hy : memo.held? p.column = some y)
    (hstep : x.step p.m y = some v) : memo.Extends (memo.getOrInsert p v).2 where
  grows := grows_getOrInsert memo p v
  stepped := by
    intro q w hmiss hfind
    have hgrows := grows_getOrInsert memo p v
    rw [find?_getOrInsert] at hfind
    split at hfind
    · rename_i hq
      subst hq
      rw [hmiss] at hfind
      cases hfind
      exact ⟨hbase, x, y, hgrows.held? hx, hgrows.held? hy, hstep⟩
    · rw [hmiss] at hfind
      cases hfind

theorem Resolves.extends (h : memo.Resolves p result later stores) : memo.Extends later := by
  induction h with
  | border _ => exact .refl _
  | hit _ _ => exact .refl _
  | stopShifted _ _ _ ih => exact ih
  | stopColumn _ _ _ _ ih ih' => exact ih.trans ih'
  | refused _ _ _ _ _ ih ih' => exact ih.trans ih'
  | stored hbase _ hleft habove hstep ih ih' =>
      exact (ih.trans ih').trans
        (extends_getOrInsert hbase (ih'.grows.held? hleft.held?) habove.held? hstep)

theorem extends_evaluate (memo : Memo b) (n m : Int) :
    memo.Extends (memo.evaluate n m).memo := by
  cases hadmission : Admission.ofRequest b n m with
  | settled outcome =>
      rw [evaluate_settled hadmission]
      exact .refl memo
  | compute p =>
      obtain ⟨result, later, stores, h⟩ := memo.exists_resolves p
      rw [h.evaluate_eq hadmission]
      exact h.extends

/-! ## The same resolution again -/

/-- A stepped entry is found again from its predecessors, which are found at once. -/
theorem Stepped.resolves (h : memo.Stepped p v) :
    ∃ x y, memo.Resolves p.shifted (.ok x) memo [] ∧ memo.Resolves p.column (.ok y) memo [] ∧
      x.step p.m y = some v := by
  obtain ⟨x, y, hx, hy, hstep⟩ := h.entry
  exact ⟨x, y, resolves_of_held? hx, resolves_of_held? hy, hstep⟩

/-- A pair is missing as long as no step can have given it an entry. -/
theorem Extends.missing (h : memo.Extends later) (hmiss : memo.find? p = none)
    (hstepped : ∀ v, ¬ later.Stepped p v) : later.find? p = none := by
  cases hfind : later.find? p with
  | none => rfl
  | some v => exact absurd (h.stepped p v hmiss hfind) (hstepped v)

/-- A resolution ends with the same result at once on every memo that has grown from the one
that it has left, and extends the one that it began with. -/
theorem Resolves.again {left : Memo b} (h : memo.Resolves p result left stores)
    (hgrows : left.Grows later) (hextends : memo.Extends later) :
    later.Resolves p result later [] := by
  induction h with
  | border hbase => exact .border hbase
  | hit hbase hfind => exact .hit hbase (hgrows _ _ hfind)
  | stopShifted hbase hmiss _ ih =>
      have hleft := ih hgrows hextends
      refine .stopShifted hbase (hextends.missing hmiss ?_) hleft
      intro v hstepped
      obtain ⟨x, y, hx, -, -⟩ := hstepped.resolves
      cases (hleft.unique hx).1
  | @stopColumn memo left above p q x s t hbase hmiss hleft habove ih ih' =>
      have hextends' : left.Extends later :=
        hextends.of_grows hleft.extends.grows (habove.extends.grows.trans hgrows)
      have hcolumn := ih' hgrows hextends'
      refine .stopColumn hbase (hextends.missing hmiss ?_) (ih hextends'.grows hextends) hcolumn
      intro v hstepped
      obtain ⟨x, y, -, hy, -⟩ := hstepped.resolves
      cases (hcolumn.unique hy).1
  | @refused memo left above p x y s t hbase hmiss hleft habove hstep ih ih' =>
      have hextends' : left.Extends later :=
        hextends.of_grows hleft.extends.grows (habove.extends.grows.trans hgrows)
      have hshifted := ih hextends'.grows hextends
      have hcolumn := ih' hgrows hextends'
      refine .refused hbase (hextends.missing hmiss ?_) hshifted hcolumn hstep
      intro v hstepped
      obtain ⟨x', y', hx, hy, hv⟩ := hstepped.resolves
      cases (hshifted.unique hx).1
      cases (hcolumn.unique hy).1
      rw [hstep] at hv
      cases hv
  | stored hbase _ _ _ _ _ _ => exact .hit hbase (hgrows _ _ (find?_getOrInsert_self _ _ _))

/-! ## The same request again -/

/-- The memo that some requests leave, one after another. -/
def after (memo : Memo b) (requests : List (Int × Int)) : Memo b :=
  (Session.run memo (requests.map fun r => .recursive r.1 r.2)).2

theorem extends_after (memo : Memo b) (requests : List (Int × Int)) :
    memo.Extends (memo.after requests) := by
  induction requests generalizing memo with
  | nil => exact .refl memo
  | cons r requests ih => exact (memo.extends_evaluate r.1 r.2).trans (ih _)

/-- A request that is repeated after any others is answered as before, leaves the memo as it
is and stores nothing. Of the checked steps it only takes the one that was refused. -/
theorem evaluate_again (memo : Memo b) (n m : Int) (requests : List (Int × Int)) :
    let later := (memo.evaluate n m).memo.after requests
    (later.evaluate n m).outcome = (memo.evaluate n m).outcome ∧
      (later.evaluate n m).memo = later ∧
      Event.storedPairs (later.evaluate n m).journal = [] ∧
      ∀ p, Admission.ofRequest b n m = .compute p →
        (Descent.resolve p []).steps later =
          Descent.refused ((Descent.resolve p []).run memo []).value := by
  intro later
  cases hadmission : Admission.ofRequest b n m with
  | settled outcome =>
      rw [evaluate_settled hadmission, evaluate_settled hadmission]
      exact ⟨rfl, rfl, rfl, nofun⟩
  | compute p =>
      obtain ⟨result, first, stores, h⟩ := memo.exists_resolves p
      have hfirst : (memo.evaluate n m).memo = first := by rw [h.evaluate_eq hadmission]
      have hlater : (memo.evaluate n m).memo.Extends later := extends_after _ requests
      rw [hfirst] at hlater
      have hagain := h.again hlater.grows (h.extends.trans hlater)
      rw [hagain.evaluate_eq hadmission, h.evaluate_eq hadmission]
      refine ⟨rfl, rfl, rfl, ?_⟩
      rintro _ ⟨⟩
      rw [Descent.steps_resolve hagain, Descent.stepsAfter_nil, h.value_run]
      rfl

end Memo

end StirlingTriangle
