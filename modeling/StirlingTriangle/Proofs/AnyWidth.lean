import StirlingTriangle.Proofs.Agreement
import StirlingTriangle.Proofs.Memo.Resolution

/-!
# AnyWidth

Admission turns down a pair that is wider than a word without computing
anything. Here the same pair is computed nevertheless, and comes to the same.

* `Admission.ofAnyWidth` does not look at the width, which is all that
  distinguishes it from `Admission.ofRequest` (`Admission.ofRequest_eq`);
  `Window.evaluateAnyWidth` and `Memo.evaluateAnyWidth` are the two ways of
  evaluating with it;
* `Memo.Resolves.exact`: on a truthful memo a descent ends with the entry of the
  triangle, or it is refused and the entry does not fit, whatever the width;
* `evaluations_any_width` puts them together with the growth of the entries: the
  width is never looked at in vain, and never instead of the value.
-/

namespace StirlingTriangle

variable {b : Nat}

/-! ## Admission without the width -/

/-- What becomes of a request before anything is computed, if its width does not matter. -/
def Admission.ofAnyWidth (b : Nat) (n m : Int) : Admission b :=
  match Pair.ofInts? n m with
  | .error constraint => .settled (.error (.invalidArgument n m constraint))
  | .ok pair => if pair.isBase then .settled (.ok 1) else .compute pair

namespace Admission

variable {n m : Int} {pair : Pair}

/-- Looking at the width turns some pairs that would be computed into overflows, and changes
nothing else. -/
theorem ofRequest_eq (b : Nat) (n m : Int) :
    ofRequest b n m =
      match ofAnyWidth b n m with
      | .settled outcome => .settled outcome
      | .compute pair =>
        if b < pair.width then .settled (.error (.overflow pair b)) else .compute pair := by
  unfold ofRequest ofAnyWidth
  cases Pair.ofInts? n m with
  | error constraint => rfl
  | ok pair =>
      simp only
      by_cases hbase : pair.isBase
      · rw [if_pos hbase, if_pos hbase]
      · rw [if_neg hbase, if_neg hbase]

theorem ofRequest_of_anyWidth_settled {outcome : Outcome b}
    (h : ofAnyWidth b n m = .settled outcome) : ofRequest b n m = .settled outcome := by
  rw [ofRequest_eq, h]

/-- Without the width every pair off the borders has to be computed, and no other. -/
theorem of_anyWidth_compute (h : ofAnyWidth b n m = .compute pair) :
    Pair.ofInts? n m = .ok pair ∧ pair.isBase = false := by
  unfold ofAnyWidth at h
  split at h
  · cases h
  · rename_i p hp
    split at h
    · cases h
    · rename_i hbase
      cases h
      exact ⟨hp, Bool.eq_false_iff.2 hbase⟩

/-- A pair whose entry fits is not too wide. -/
theorem ofRequest_of_fits (hp : Pair.ofInts? n m = .ok pair)
    (hfits : stirling pair.n pair.m < Word.limit b) : ofRequest b n m = ofAnyWidth b n m := by
  rw [ofRequest_eq]
  cases h : ofAnyWidth b n m with
  | settled outcome => rfl
  | compute p =>
      obtain ⟨hp', hbase⟩ := of_anyWidth_compute h
      have hsame : pair = p := Except.ok.inj (hp.symm.trans hp')
      subst hsame
      have hwidth : ¬ b < pair.width := fun hwidth =>
        Nat.not_lt.2 (limit_le_of_lt_width hbase hwidth) hfits
      exact if_neg hwidth

end Admission

/-! ## Windows of any width -/

namespace Window

/-- A windowed evaluation that does not look at the width. -/
def evaluateAnyWidth (b : Nat) (n m : Int) : Evaluation b :=
  match Admission.ofAnyWidth b n m with
  | .settled outcome => { outcome, journal := [] }
  | .compute pair =>
    let (result, rows) := sweep b pair
    { outcome := outcome pair result
      journal := .sweepStarted pair pair.width :: rows }

theorem evaluateAnyWidth_eq_ofTriangle (hb : 0 < b) (n m : Int) :
    (evaluateAnyWidth b n m).outcome = .ofTriangle b n m := by
  unfold evaluateAnyWidth
  cases h : Admission.ofAnyWidth b n m with
  | settled outcome =>
      exact Admission.settled_eq_ofTriangle hb (Admission.ofRequest_of_anyWidth_settled h)
  | compute pair =>
      obtain ⟨hp, hbase⟩ := Admission.of_anyWidth_compute h
      rw [Outcome.ofTriangle_of_ok hp]
      exact outcome_sweep hb hbase

/-- A window that is too wide ends in an overflow. -/
theorem outcome_sweep_of_lt_width (hb : 0 < b) {p : Pair} (hbase : p.isBase = false)
    (hwidth : b < p.width) : outcome p (sweep b p).1 = .error (.overflow p b) := by
  rw [outcome_sweep hb hbase, Word.ofNat?_eq_none_iff.2 (limit_le_of_lt_width hbase hwidth)]
  rfl

end Window

/-! ## Descents of any width -/

namespace Memo

/-- A memoized evaluation that does not look at the width. -/
def evaluateAnyWidth (memo : Memo b) (n m : Int) : Evaluation b :=
  match Admission.ofAnyWidth b n m with
  | .settled outcome => { outcome, memo, journal := [] }
  | .compute pair =>
    let started := .descentStarted pair memo.size
    let result := (Descent.resolve pair []).run memo [started]
    { outcome := Descent.outcome pair result.value
      memo := result.memo
      journal := result.journal }

/-- The result of a descent for `p` as it ought to be: the entry of the triangle, or a refusal
if that does not fit. -/
def Exact (p : Pair) : Except Pair (Word b) → Prop
  | .ok v => v.toNat = stirling p.n p.m
  | .error _ => Word.limit b ≤ stirling p.n p.m

/-- On a truthful memo a descent has an exact result and leaves a truthful memo. -/
theorem Resolves.exact {memo later : Memo b} {p : Pair} {result : Except Pair (Word b)}
    {stores : List (Pair × Word b)} (h : Resolves memo p result later stores) (hb : 0 < b)
    (htruthful : memo.Truthful) : later.Truthful ∧ Exact p result := by
  induction h with
  | border hbase =>
      refine ⟨htruthful, ?_⟩
      rw [Exact, stirling_base hbase]
      exact Word.toNat_one hb
  | hit hbase hfind => exact ⟨htruthful, htruthful _ _ hfind hbase⟩
  | stopShifted hbase _ _ ih =>
      -- what depends on an entry that does not fit does not fit either
      obtain ⟨hleft, hlimit⟩ := ih htruthful
      exact ⟨hleft, Nat.le_trans hlimit (stirling_shifted_le hbase)⟩
  | stopColumn hbase _ _ _ ih ih' =>
      obtain ⟨habove, hlimit⟩ := ih' (ih htruthful).1
      exact ⟨habove, Nat.le_trans hlimit (stirling_column_le _)⟩
  | refused hbase _ _ _ hstep ih ih' =>
      obtain ⟨hleft, hx⟩ := ih htruthful
      obtain ⟨habove, hy⟩ := ih' hleft
      obtain ⟨hm, hn⟩ := Pair.isBase_eq_false_iff.1 hbase
      rw [Word.step_stirling hm hn hx hy, Word.ofNat?_eq_none_iff] at hstep
      exact ⟨habove, hstep⟩
  | @stored memo left above p x y v s t hbase _ _ _ hstep ih ih' =>
      obtain ⟨hleft, hx⟩ := ih htruthful
      obtain ⟨habove, hy⟩ := ih' hleft
      obtain ⟨hm, hn⟩ := Pair.isBase_eq_false_iff.1 hbase
      rw [Word.step_stirling hm hn hx hy, Word.ofNat?_eq_some_iff] at hstep
      have hstored := habove.getOrInsert (p := p) fun _ => hstep
      exact ⟨hstored, hstored p _ (find?_getOrInsert_self above p v) hbase⟩

theorem outcome_of_exact {p : Pair} {result : Except Pair (Word b)} (h : Exact p result) :
    Descent.outcome p result = .ofValue? p (Word.ofNat? b (stirling p.n p.m)) := by
  cases result with
  | ok v =>
      rw [Word.ofNat?_eq_some_iff.2 h]
      rfl
  | error q =>
      rw [Word.ofNat?_eq_none_iff.2 h]
      rfl

/-- The machine has an exact result too, whatever it has reported before. -/
theorem Truthful.exact_run {memo : Memo b} (h : memo.Truthful) (hb : 0 < b) (p : Pair)
    (journal : List (Event b)) :
    Exact p ((Descent.resolve p []).run memo journal).value := by
  obtain ⟨result, later, stores, hresolves⟩ := memo.exists_resolves p
  have hvalue : ((Descent.resolve p []).run memo journal).value = result := by
    rw [Descent.run_resolve, hresolves.resolve_eq]
    cases result <;> simp [Descent.proceed, Descent.run, Descent.step]
  rw [hvalue]
  exact (hresolves.exact hb h).2

theorem Truthful.evaluateAnyWidth_eq_ofTriangle {memo : Memo b} (h : memo.Truthful) (hb : 0 < b)
    (n m : Int) : (memo.evaluateAnyWidth n m).outcome = .ofTriangle b n m := by
  unfold evaluateAnyWidth
  cases hadmission : Admission.ofAnyWidth b n m with
  | settled outcome =>
      exact Admission.settled_eq_ofTriangle hb (Admission.ofRequest_of_anyWidth_settled hadmission)
  | compute pair =>
      rw [Outcome.ofTriangle_of_ok (Admission.of_anyWidth_compute hadmission).1]
      exact outcome_of_exact (h.exact_run hb pair _)

/-- A descent that is too wide is refused. -/
theorem Truthful.exists_refused_of_lt_width {memo : Memo b} (h : memo.Truthful) (hb : 0 < b)
    {p : Pair} (hbase : p.isBase = false) (hwidth : b < p.width) :
    ∃ q, ((Descent.resolve p []).run memo []).value = .error q := by
  have hexact := h.exact_run hb p []
  cases hvalue : ((Descent.resolve p []).run memo []).value with
  | error q => exact ⟨q, rfl⟩
  | ok v =>
      rw [hvalue] at hexact
      have hfits : stirling p.n p.m < Word.limit b := hexact ▸ v.toNat_lt_limit
      exact absurd hfits (Nat.not_lt.2 (limit_le_of_lt_width hbase hwidth))

end Memo

/-! ## The width is looked at rightly -/

/-- In column 2 the bound on an entry by its width is exact. -/
theorem stirling_eq_of_column_two {p : Pair} (hm : p.m = 2) (hn : p.m < p.n) :
    stirling p.n p.m = Word.limit p.width - 1 := by
  have htwo := stirling_column_two (p.n - p.m)
  rw [show p.n - p.m + 2 = p.n from by omega] at htwo
  rw [Pair.width, ← htwo, hm, Nat.add_sub_cancel]

/-- An entry off the borders is at least one less than two to the power of its width, which it
is in column 2. So a pair that is too wide overflows in both ways of evaluating, neither
answers otherwise for not looking at the width, and no pair whose entry fits is too wide. -/
theorem evaluations_any_width (hb : 0 < b) :
    (∀ p : Pair, 1 < p.m → p.m < p.n →
      Word.limit p.width - 1 ≤ stirling p.n p.m ∧
        (p.m = 2 → stirling p.n p.m = Word.limit p.width - 1)) ∧
    (∀ p : Pair, p.isBase = false → b < p.width →
      Window.outcome p (Window.sweep b p).1 = .error (.overflow p b) ∧
        ∀ memo : Memo b, memo.Truthful →
          ∃ q, ((Descent.resolve p []).run memo []).value = .error q) ∧
    (∀ n m : Int,
      (Window.evaluateAnyWidth b n m).outcome = (Window.evaluate b n m).outcome ∧
        ∀ memo : Memo b, memo.Truthful →
          (memo.evaluateAnyWidth n m).outcome = (memo.evaluate n m).outcome) ∧
    (∀ (n m : Int) (p : Pair), Pair.ofInts? n m = .ok p → stirling p.n p.m < Word.limit b →
      Admission.ofRequest b n m = Admission.ofAnyWidth b n m) := by
  refine ⟨?_, ?_, ?_, ?_⟩
  · intro p hm hn
    have hwidth := limit_width_le hm (Nat.le_of_lt hn)
    exact ⟨by omega, fun htwo => stirling_eq_of_column_two htwo hn⟩
  · intro p hbase hwidth
    exact ⟨Window.outcome_sweep_of_lt_width hb hbase hwidth,
      fun memo h => h.exists_refused_of_lt_width hb hbase hwidth⟩
  · intro n m
    refine ⟨?_, ?_⟩
    · rw [Window.evaluateAnyWidth_eq_ofTriangle hb, Window.evaluate_eq_ofTriangle hb]
    · intro memo h
      rw [h.evaluateAnyWidth_eq_ofTriangle hb, h.outcome_evaluate,
        Window.evaluate_eq_ofTriangle hb]
  · intro n m p hp hfits
    exact Admission.ofRequest_of_fits hp hfits

/-- The largest byte is in column 2 and eight wide. The pair below it overflows without its
width being looked at, also on a memo that has its predecessor and something on a border. -/
theorem evaluations_any_width_byte :
    Admission.ofRequest 8 9 2 = Admission.ofAnyWidth 8 9 2 ∧
    (Window.evaluateAnyWidth 8 10 2).outcome = .error (.overflow ⟨10, 2⟩ 8) ∧
    ∃ q, ((Descent.resolve ⟨10, 2⟩ []).run
      ((Memo.empty.getOrInsert ⟨9, 2⟩ (255 : Word 8)).2.getOrInsert ⟨9, 1⟩ 0).2 []).value =
        .error q := by
  obtain ⟨-, hwide, hagree, hnarrow⟩ := evaluations_any_width (b := 8) (by decide)
  have hmemo : ((Memo.empty.getOrInsert ⟨9, 2⟩ (255 : Word 8)).2.getOrInsert ⟨9, 1⟩ 0).2.Truthful :=
    (Memo.truthful_empty.getOrInsert fun _ => by decide).getOrInsert nofun
  refine ⟨hnarrow 9 2 ⟨9, 2⟩ rfl (by decide), ?_, ?_⟩
  · rw [(hagree 10 2).1]
    rfl
  · exact (hwide ⟨10, 2⟩ rfl (by decide)).2 _ hmemo

end StirlingTriangle
