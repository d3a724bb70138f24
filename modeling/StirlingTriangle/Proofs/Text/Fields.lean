import StirlingTriangle.Outcome
import StirlingTriangle.Proofs.Lists

/-!
# Text.Fields

Lines that each end in a line feed, and fields that stand two spaces apart.

* `Fields.lines` cuts a text into its lines and `Fields.split` a line into its
  fields. Each undoes what puts the pieces together, if no piece looks like a
  place to cut: `lines_flatMap`, `split_intercalate`;
* `Tight` is what a field has to be for that: no two spaces in a row, and none
  at the end. One space between two words does no harm;
* numbers and the texts of outcomes are such fields (`isField_text`).
-/

namespace StirlingTriangle

namespace Fields

/-! ## Lines -/

/-- The lines of a text. What comes after the last line feed is not a line. -/
def lines (text : List Char) : List (List Char) := (text.splitOn '\n').dropLast

/-- Lines without line feeds in them are found again. -/
theorem lines_flatMap {ls : List (List Char)} (h : ∀ l ∈ ls, '\n' ∉ l) :
    lines (ls.flatMap fun l => l ++ ['\n']) = ls := by
  rw [lines, List.splitOn_flatMap h, List.dropLast_concat]

/-! ## Fields -/

/-- Cuts a line wherever there are two spaces in a row, from the left. -/
def split : List Char → List (List Char)
  | [] => [[]]
  | ' ' :: ' ' :: rest => [] :: split rest
  | c :: rest => (split rest).modifyHead (c :: ·)

/-- There are no two spaces in a row, and none at the end; `afterSpace` says whether the text
follows a space. -/
def Tight (afterSpace : Bool) : List Char → Prop
  | [] => afterSpace = false
  | c :: rest => (c = ' ' → afterSpace = false) ∧ Tight (c == ' ') rest

theorem Tight.of_afterSpace {afterSpace : Bool} {cs : List Char} (h : Tight afterSpace cs) :
    Tight false cs := by
  cases cs with
  | nil => rfl
  | cons c cs => exact ⟨fun _ => rfl, h.2⟩

theorem Tight.tail {c : Char} {cs : List Char} (h : Tight false (c :: cs)) : Tight false cs :=
  h.2.of_afterSpace

/-- What follows a space in a tight text begins with something else. -/
theorem Tight.exists_cons {cs : List Char} (h : Tight true cs) :
    ∃ d ds, cs = d :: ds ∧ d ≠ ' ' := by
  cases cs with
  | nil => cases h
  | cons d ds =>
      refine ⟨d, ds, rfl, fun hd => ?_⟩
      cases h.1 hd

theorem split_cons {c : Char} {rest : List Char} (h : c = ' ' → ∀ ds, rest ≠ ' ' :: ds) :
    split (c :: rest) = (split rest).modifyHead (c :: ·) := by
  rw [split.eq_3]
  intro ds hc hrest
  exact h hc ds hrest

/-- The beginning of a tight text is not a place to cut, whatever follows the text. -/
theorem Tight.ne_space_append {c : Char} {cs : List Char} (h : Tight false (c :: cs))
    (hc : c = ' ') (rest ds : List Char) : cs ++ rest ≠ ' ' :: ds := by
  subst hc
  obtain ⟨d, ds', rfl, hd⟩ := h.2.exists_cons
  intro heq
  exact hd (List.cons.inj heq).1

/-- A tight text is the field before the first place to cut after it. -/
theorem Tight.split_append {cs : List Char} (h : Tight false cs) (rest : List Char) :
    split (cs ++ ' ' :: ' ' :: rest) = cs :: split rest := by
  induction cs with
  | nil => rw [List.nil_append, split]
  | cons c cs ih =>
      rw [List.cons_append, split_cons fun hc ds => h.ne_space_append hc _ ds, ih h.tail]
      rfl

theorem Tight.split_eq {cs : List Char} (h : Tight false cs) : split cs = [cs] := by
  induction cs with
  | nil => rfl
  | cons c cs ih =>
      have hcut : c = ' ' → ∀ ds, cs ≠ ' ' :: ds := by
        intro hc ds
        simpa using h.ne_space_append hc [] ds
      rw [split_cons hcut, ih h.tail]
      rfl

/-- Tight fields are found again. -/
theorem split_intercalate {fields : List (List Char)} (hne : fields ≠ [])
    (h : ∀ f ∈ fields, Tight false f) : split ([' ', ' '].intercalate fields) = fields := by
  induction fields with
  | nil => exact absurd rfl hne
  | cons f fields ih =>
      have hf := h f List.mem_cons_self
      have hrest : ∀ g ∈ fields, Tight false g := fun g hg => h g (List.mem_cons_of_mem f hg)
      cases fields with
      | nil =>
          rw [List.intercalate_singleton]
          exact hf.split_eq
      | cons g fields =>
          have hcut : [' ', ' '].intercalate (f :: g :: fields) =
              f ++ ' ' :: ' ' :: [' ', ' '].intercalate (g :: fields) := by
            rw [List.intercalate_cons_cons, List.append_assoc]
            rfl
          rw [hcut, hf.split_append, ih (List.cons_ne_nil g fields) hrest]

-- A single space is not a place to cut.
example : (split "1  overflow  Invalid argument for A(1, 2): n < m".toList).map String.ofList =
    ["1", "overflow", "Invalid argument for A(1, 2): n < m"] := by decide

/-! ## The texts of numbers -/

theorem toList_toString (k : Nat) : (toString k).toList = Nat.toDigits 10 k := by
  rw [Nat.toString_eq_ofList_toDigits, String.toList_ofList]

theorem isDigit_of_mem_toDigits {k : Nat} {c : Char} (h : c ∈ Nat.toDigits 10 k) : c.isDigit :=
  Nat.isDigit_of_mem_toDigits (by decide) (by decide) h

/-- At least one character, and only such as numbers are written with. -/
structure IsNumeral (cs : List Char) : Prop where
  nonempty : cs ≠ []
  digits : ∀ c ∈ cs, c.isDigit ∨ c = '-'

theorem isNumeral_nat (k : Nat) : IsNumeral (toString k).toList where
  nonempty := by
    rw [toList_toString]
    exact Nat.toDigits_ne_nil
  digits := by
    intro c hc
    rw [toList_toString] at hc
    exact .inl (isDigit_of_mem_toDigits hc)

theorem isNumeral_int (k : Int) : IsNumeral (toString k).toList := by
  rw [Int.toString_eq_repr, Int.repr_eq_if]
  split
  · exact isNumeral_nat _
  · have h := isNumeral_nat (-k).toNat
    refine ⟨by simp, fun c hc => ?_⟩
    rw [String.toList_append, List.mem_append] at hc
    rcases hc with hc | hc
    · right
      simpa using hc
    · exact h.digits c hc

theorem IsNumeral.notMem {cs : List Char} (h : IsNumeral cs) {c : Char} (hc : c.isDigit = false)
    (hminus : c ≠ '-') : c ∉ cs := by
  intro hmem
  rcases h.digits c hmem with hdigit | rfl
  · rw [hc] at hdigit
    cases hdigit
  · exact hminus rfl

theorem IsNumeral.forall_ne {cs : List Char} (h : IsNumeral cs) {c : Char}
    (hc : c.isDigit = false) (hminus : c ≠ '-') : ∀ d ∈ cs, decide (d ≠ c) = true := by
  intro d hd
  refine decide_eq_true ?_
  rintro rfl
  exact h.notMem hc hminus hd

/-- A number in a text leaves the rest of the text as tight as it is. -/
theorem IsNumeral.tight_append {cs : List Char} (h : IsNumeral cs) {afterSpace : Bool}
    {rest : List Char} : Tight afterSpace (cs ++ rest) ↔ Tight false rest := by
  obtain ⟨hne, hdigits⟩ := h
  induction cs generalizing afterSpace with
  | nil => exact absurd rfl hne
  | cons c cs ih =>
      have hc : c ≠ ' ' := by
        rintro rfl
        exact absurd (hdigits ' ' List.mem_cons_self) (by decide)
      have hspace : (c == ' ') = false := by simpa using hc
      rw [List.cons_append, Tight, hspace]
      cases cs with
      | nil => simp [hc]
      | cons d ds =>
          rw [ih (List.cons_ne_nil d ds) fun c' hc' => hdigits c' (List.mem_cons_of_mem c hc')]
          simp [hc]

/-! ## The texts of outcomes -/

/-- What can stand as a field in a line. -/
structure IsField (cs : List Char) : Prop where
  nonempty : cs ≠ []
  oneLine : '\n' ∉ cs
  tight : Tight false cs

theorem IsNumeral.isField {cs : List Char} (h : IsNumeral cs) : IsField cs where
  nonempty := h.nonempty
  oneLine := h.notMem (by decide) (by decide)
  tight := by
    rw [← List.append_nil cs]
    exact h.tight_append.2 rfl

/-- Two numbers with a comma between them can stand in a field, if what is around them can. -/
theorem isField_pair {before ns ms after : List Char} (hn : IsNumeral ns) (hm : IsNumeral ms)
    (hline : '\n' ∉ before ++ after)
    (hbefore : ∀ rest, Tight false rest → Tight false (before ++ rest))
    (hafter : Tight false after) :
    IsField (before ++ (ns ++ (", ".toList ++ (ms ++ after)))) where
  nonempty := by simp
  oneLine := by
    have hns : '\n' ∉ ns := hn.notMem (by decide) (by decide)
    have hms : '\n' ∉ ms := hm.notMem (by decide) (by decide)
    rw [List.mem_append, not_or] at hline
    simp [hns, hms, hline]
  tight := by
    refine hbefore _ (hn.tight_append.2 ?_)
    simpa [Tight, hm.tight_append] using hafter

theorem isField_invalidArgument (n m : Int) (constraint : Constraint) :
    IsField (EvalError.invalidArgument n m constraint).message.toList := by
  have htext : (EvalError.invalidArgument n m constraint).message.toList =
      "Invalid argument for A(".toList ++ ((toString n).toList ++ (", ".toList ++
        ((toString m).toList ++ ("): ".toList ++ constraint.text.toList)))) := by
    show ("Invalid argument for A(" ++ toString n ++ ", " ++ toString m ++ "): " ++
      constraint.text).toList = _
    simp only [String.toList_append, List.append_assoc]
  rw [htext]
  refine isField_pair (isNumeral_int n) (isNumeral_int m) ?_ (by simp [Tight]) ?_
  · cases constraint <;> decide
  · cases constraint <;> simp [Constraint.text, Tight]

theorem isField_brokenWindow (p : Pair) : IsField (EvalError.brokenWindow p).message.toList := by
  have htext : (EvalError.brokenWindow p).message.toList =
      "the window does not hold A(".toList ++ ((toString p.n).toList ++ (", ".toList ++
        ((toString p.m).toList ++ ")".toList))) := by
    show ("the window does not hold A(" ++ toString p.n ++ ", " ++ toString p.m ++ ")").toList = _
    simp only [String.toList_append, List.append_assoc]
  rw [htext]
  exact isField_pair (isNumeral_nat p.n) (isNumeral_nat p.m) (by decide) (by simp [Tight])
    (by simp [Tight])

/-- Whatever its outcome is, an entry is printed as a field. -/
theorem isField_text {b : Nat} (x : Outcome b) : IsField x.text.toList := by
  cases x with
  | ok value => exact (isNumeral_nat value.toNat).isField
  | error e =>
      cases e with
      | invalidArgument n m constraint => exact isField_invalidArgument n m constraint
      | overflow pair bits =>
          show IsField "overflow".toList
          exact ⟨by decide, by decide, by simp [Tight]⟩
      | brokenWindow pair => exact isField_brokenWindow pair

end Fields

end StirlingTriangle
