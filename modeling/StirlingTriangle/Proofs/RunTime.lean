import StirlingTriangle.Proofs.Rounding
import StirlingTriangle.Proofs.Text.Fields
import StirlingTriangle.RunTime

/-!
# RunTime

What is printed for a run time is close to it.

* `Spans.Documented` is what is relied on of spans of time, and `Spans.standard`
  is an instance of it (`documented_standard`). `Spans.text_eq` says that the text of
  a negative span is a minus sign before the text of its opposite;
* `Shows` says which number a text shows and in which unit. A text shows at most
  one (`Shows.unique`), and `RunTime.countText` shows one (`shows_countText`);
* `RoundedThrice` is how the hundredths that are printed come about.
  `RoundedThrice.abs_sub_le` adds up what the three roundings lose, and
  `RoundedThrice.mono` says that they keep the order;
* `RunTime.text_faithful` puts these together.
-/

namespace StirlingTriangle

/-! ## What is relied on -/

/-- The seconds are of 64 bits and the nanoseconds are less than one more. -/
structure RunTime.Proper (t : RunTime) : Prop where
  seconds_lt : t.seconds < 18446744073709551616
  nanoseconds_lt : t.nanoseconds < 1000000000

/-- The length of a span, in nanoseconds, is that of the run time it is made of, which has at most
`maxCount` milliseconds. Whole microseconds are counted towards zero, in 64 bits. -/
structure Spans.Documented {σ : Type} (spans : Spans σ) (length : σ → Int) : Prop where
  eq_none_iff : ∀ t : RunTime, t.Proper →
    (spans.ofRunTime? t = none ↔ RunTime.maxCount * 1000000 < t.toNanoseconds)
  length_eq : ∀ (t : RunTime) (span : σ), t.Proper → spans.ofRunTime? t = some span →
    length span = t.toNanoseconds
  microseconds_eq : ∀ span : σ, spans.microseconds? span =
    if -RunTime.maxCount - 1 ≤ (length span).tdiv 1000 ∧
        (length span).tdiv 1000 ≤ RunTime.maxCount then
      some ((length span).tdiv 1000)
    else none

theorem Spans.documented_standard : Spans.standard.Documented id where
  eq_none_iff := by
    intro t _
    rw [standard, ite_eq_right_iff, Nat.not_le.symm]
    simp
  length_eq := by
    intro t span _ h
    rw [standard, Option.ite_none_right_eq_some, Option.some.injEq] at h
    exact h.2.symm
  microseconds_eq := fun _ => rfl

/-- The text of a span as a recursion on its opposite. Since that has a positive number of
microseconds, the recursion ends there. -/
theorem Spans.text_eq {σ : Type} {spans : Spans σ} {length : σ → Int}
    (h : spans.Documented length) (hneg : ∀ span, length (spans.neg span) = -length span)
    (span : σ) :
    spans.text span =
      match spans.microseconds? span with
      | none => "N/A"
      | some count =>
        if count < 0 then "-" ++ spans.text (spans.neg span)
        else RunTime.countText count.toNat := by
  cases hcount : spans.microseconds? span with
  | none => rw [text, hcount]
  | some count =>
      simp only [text, hcount]
      split
      next hlt =>
        have hvalue : count = (length span).tdiv 1000 := by
          rw [h.microseconds_eq, Option.ite_none_right_eq_some] at hcount
          exact (Option.some.inj hcount.2).symm
        congr 1
        cases hopposite : spans.microseconds? (spans.neg span) with
        | none => rfl
        | some opposite =>
            rw [h.microseconds_eq, Option.ite_none_right_eq_some, hneg, Int.neg_tdiv] at hopposite
            have hpos := Option.some.inj hopposite.2
            exact (if_neg (by omega)).symm
      next => rfl

example : Spans.standard.text (-1125999) = "-1.12ms" := by decide +kernel

/-! ## What a text shows -/

inductive TimeUnit where
  | microsecond
  | millisecond
  | second
deriving DecidableEq, Repr

def TimeUnit.text : TimeUnit → String
  | microsecond => "µs"
  | millisecond => "ms"
  | second => "s"

/-- The text is a number of units: of microseconds a whole one, of the others one with two decimals,
which is given by its hundredths. -/
inductive Shows : String → TimeUnit → Nat → Prop where
  | whole (k : Nat) : Shows (toString k ++ TimeUnit.microsecond.text) .microsecond k
  | decimal {unit : TimeUnit} (h : unit ≠ .microsecond) (k : Nat) {tens ones : Nat}
      (htens : tens < 10) (hones : ones < 10) :
      Shows (s!"{k}.{tens}{ones}" ++ unit.text) unit (100 * k + 10 * tens + ones)

namespace Shows

/-- What a number is written with. -/
def isNumberChar (c : Char) : Bool := c.isDigit || c == '.'

/-- The number in front of a text, its point left out. -/
def number (text : String) : Nat :=
  Nat.ofDigitChars 10 ((text.toList.takeWhile isNumberChar).filter Char.isDigit) 0

/-- What follows the number. -/
def unitChars (text : String) : List Char := text.toList.dropWhile isNumberChar

theorem toList_digit {d : Nat} (h : d < 10) : (toString d).toList = [Nat.digitChar d] := by
  rw [Fields.toList_toString, Nat.toDigits_of_lt_base h]

theorem toList_decimal {k tens ones : Nat} (htens : tens < 10) (hones : ones < 10) :
    (s!"{k}.{tens}{ones}").toList =
      Nat.toDigits 10 k ++ ['.', Nat.digitChar tens, Nat.digitChar ones] := by
  show (toString k ++ "." ++ toString tens ++ toString ones).toList = _
  simp only [String.toList_append, toList_digit htens, toList_digit hones]
  rw [Fields.toList_toString, List.append_assoc, List.append_assoc]
  rfl

theorem isNumberChar_of_isDigit {c : Char} (h : c.isDigit) : isNumberChar c := by
  rw [isNumberChar, h, Bool.true_or]

theorem isDigit_digitChar {d : Nat} (h : d < 10) : (Nat.digitChar d).isDigit := by
  rw [Nat.isDigit_digitChar, decide_eq_true h]

/-- A text that begins with a number is cut after it. -/
theorem cut {text : String} {unit : TimeUnit} {cs : List Char}
    (htext : text.toList = cs ++ unit.text.toList) (h : ∀ c ∈ cs, isNumberChar c) :
    number text = Nat.ofDigitChars 10 (cs.filter Char.isDigit) 0 ∧
      unitChars text = unit.text.toList := by
  have hstop : ∀ c ∈ unit.text.toList.head?, isNumberChar c = false := by
    cases unit <;> simp [TimeUnit.text, isNumberChar]
  rw [number, unitChars, htext, List.takeWhile_append_stop h hstop,
    List.dropWhile_append_stop h hstop]
  exact ⟨rfl, rfl⟩

/-- What a text shows can be read off it. -/
theorem read {text : String} {unit : TimeUnit} {k : Nat} (h : Shows text unit k) :
    number text = k ∧ unitChars text = unit.text.toList := by
  have hfilter : ∀ k : Nat, (Nat.toDigits 10 k).filter Char.isDigit = Nat.toDigits 10 k :=
    fun k => List.filter_eq_self.2 fun c hc => Fields.isDigit_of_mem_toDigits hc
  cases h with
  | whole =>
      have htext : (toString k ++ TimeUnit.microsecond.text).toList =
          Nat.toDigits 10 k ++ TimeUnit.microsecond.text.toList := by
        rw [String.toList_append, Fields.toList_toString]
      obtain ⟨hnumber, hunit⟩ :=
        cut htext fun c hc => isNumberChar_of_isDigit (Fields.isDigit_of_mem_toDigits hc)
      refine ⟨?_, hunit⟩
      rw [hnumber, hfilter, Nat.ofDigitChars_ten_toDigits]
  | @decimal _ _ k tens ones htens hones =>
      have htext : (s!"{k}.{tens}{ones}" ++ unit.text).toList =
          Nat.toDigits 10 k ++ ['.', Nat.digitChar tens, Nat.digitChar ones] ++
            unit.text.toList := by
        rw [String.toList_append, toList_decimal htens hones]
      have hchars : ∀ c ∈ Nat.toDigits 10 k ++ ['.', Nat.digitChar tens, Nat.digitChar ones],
          isNumberChar c := by
        intro c hc
        simp only [List.mem_append, List.mem_cons, List.not_mem_nil, or_false] at hc
        rcases hc with hc | rfl | rfl | rfl
        · exact isNumberChar_of_isDigit (Fields.isDigit_of_mem_toDigits hc)
        · rfl
        · exact isNumberChar_of_isDigit (isDigit_digitChar htens)
        · exact isNumberChar_of_isDigit (isDigit_digitChar hones)
      have hdecimals : ['.', Nat.digitChar tens, Nat.digitChar ones].filter Char.isDigit =
          [Nat.digitChar tens, Nat.digitChar ones] := by
        simp [isDigit_digitChar htens, isDigit_digitChar hones]
      obtain ⟨hnumber, hunit⟩ := cut htext hchars
      refine ⟨?_, hunit⟩
      rw [hnumber, List.filter_append, hfilter, hdecimals, Nat.ofDigitChars_append,
        Nat.ofDigitChars_ten_toDigits, Nat.ofDigitChars_cons_digitChar_of_lt_ten htens,
        Nat.ofDigitChars_cons_digitChar_of_lt_ten hones, Nat.ofDigitChars_nil]
      omega

theorem unique {text : String} {unit unit' : TimeUnit} {k k' : Nat} (h : Shows text unit k)
    (h' : Shows text unit' k') : unit = unit' ∧ k = k' := by
  obtain ⟨hnumber, hunit⟩ := h.read
  obtain ⟨hnumber', hunit'⟩ := h'.read
  refine ⟨?_, hnumber.symm.trans hnumber'⟩
  have htexts := hunit.symm.trans hunit'
  cases unit <;> cases unit' <;> first | rfl | exact absurd htexts (by decide)

theorem ne_notAvailable {text : String} {unit : TimeUnit} {k : Nat} (h : Shows text unit k) :
    text ≠ "N/A" := by
  rintro rfl
  have htext := h.read.2
  cases unit <;> exact absurd htext (by decide)

end Shows

namespace RunTime

/-! ## Three roundings -/

/-- How the hundredths of `count / unit` come about. The integer is rounded to 53 binary digits,
then its quotient to as many, and what that denotes exactly to hundredths. -/
structure RoundedThrice (count unit : Nat) (double quotient : ℚ) (hundredths : Nat) : Prop where
  integer : RoundsTo 53 count double
  division : RoundsTo 53 (double / unit) quotient
  decimals : NearestEven (100 * quotient) hundredths

theorem exists_roundedThrice {count unit : Nat} (hpos : 0 < unit)
    (hunit : unit ≤ 9007199254740992) (h : unit ≤ count) :
    ∃ double quotient, RoundedThrice count unit double quotient (hundredths count unit) := by
  let double := Ratio.toBinary precision ⟨count, 1⟩
  let quotient : Ratio := ⟨double.num, double.den * unit⟩
  have hunit' : (0 : ℚ) < unit := by exact_mod_cast hpos
  have hcount : (unit : ℚ) ≤ count := by exact_mod_cast h
  have hdouble : RoundsTo 53 count double.value := by
    have hone : 1 ≤ Ratio.value ⟨count, 1⟩ := by
      rw [Ratio.value_natCast]
      exact_mod_cast hpos.trans_le h
    have hrounds := Ratio.roundsTo_toBinary Nat.one_pos hone precision
    rwa [Ratio.value_natCast] at hrounds
  have hvalue : quotient.value = double.value / unit := by
    show (double.num : ℚ) / (double.den * unit : ℕ) = double.num / double.den / unit
    rw [div_div, Nat.cast_mul]
  have hquotient : RoundsTo 53 quotient.value (quotient.toBinary precision).value := by
    refine Ratio.roundsTo_toBinary (Nat.mul_pos (Ratio.den_pos_toBinary _ _) hpos) ?_ precision
    -- the unit is not moved, so the rounded integer is not less
    rw [hvalue, le_div_iff₀ hunit', one_mul]
    exact (roundsTo_natCast (by decide) hpos hunit).mono (by decide) hunit' hdouble hcount
  rw [hvalue] at hquotient
  exact ⟨double.value, (quotient.toBinary precision).value, hdouble, hquotient,
    Ratio.nearestEven_hundredths (Ratio.den_pos_toBinary _ _)⟩

namespace RoundedThrice

variable {count count' unit d k k' : Nat} {double double' quotient quotient' lost weight : ℚ}

/-- More microseconds have no fewer hundredths. -/
theorem mono (hcount : 0 < count) (hunit : 0 < unit)
    (h : RoundedThrice count unit double quotient k)
    (h' : RoundedThrice count' unit double' quotient' k') (hle : count ≤ count') : k ≤ k' := by
  have hcount' : (0 : ℚ) < count := by exact_mod_cast hcount
  have hunit' : (0 : ℚ) < unit := by exact_mod_cast hunit
  have hpos : 0 < double := h.integer.pos (by decide) hcount'
  have hdoubles : double ≤ double' :=
    h.integer.mono (by decide) hcount' h'.integer (by exact_mod_cast hle)
  have hquotients : quotient ≤ quotient' :=
    h.division.mono (by decide) (div_pos hpos hunit') h'.division
      (div_le_div_of_nonneg_right hdoubles hunit'.le)
  exact h.decimals.mono h'.decimals (mul_le_mul_of_nonneg_left hquotients (by norm_num))

theorem double_eq (h : RoundedThrice count unit double quotient k) (hcount : 0 < count)
    (hle : count ≤ 9007199254740992) : double = count :=
  h.integer.unique (by decide) (by exact_mod_cast hcount) (roundsTo_natCast (by decide) hcount hle)

/-- What the three roundings lose together, for a unit of which a hundredth has `d` microseconds. -/
theorem abs_sub_le (hd : 0 < d) (h : RoundedThrice count (100 * d) double quotient k)
    (hlost : |double - count| ≤ lost) (hweight : quantum 53 (double / (100 * d : ℕ)) ≤ weight) :
    |(d : ℚ) * k - count| ≤ d / 2 + 50 * d * weight + lost := by
  have hd' : (0 : ℚ) < d := by exact_mod_cast hd
  have hdecimal : |(k : ℚ) - 100 * quotient| ≤ 1 / 2 := h.decimals.abs_sub_le
  have hdivision : |quotient - double / (100 * d)| ≤ weight / 2 := by
    have herror := h.division.abs_sub_le
    push_cast at herror hweight
    linarith
  have hsum : (d : ℚ) * k - count =
      d * (k - 100 * quotient) + 100 * d * (quotient - double / (100 * d)) + (double - count) := by
    field_simp
    ring
  calc |(d : ℚ) * k - count|
      ≤ |d * (k - 100 * quotient)| + |100 * d * (quotient - double / (100 * d))| +
          |double - count| := by
        rw [hsum]
        exact abs_add_three _ _ _
    _ ≤ d * (1 / 2) + 100 * d * (weight / 2) + lost := by
        rw [abs_mul, abs_mul, abs_of_pos hd', abs_of_pos (by positivity : (0 : ℚ) < 100 * d)]
        gcongr
    _ = d / 2 + 50 * d * weight + lost := by ring

/-- The same where the microseconds themselves are exact in binary. -/
theorem abs_sub_le_of_exact {e : Nat} (hd : 0 < d)
    (h : RoundedThrice count (100 * d) double quotient k) (hcount : 0 < count)
    (hle : count ≤ 9007199254740992) (hlt : count < 2 ^ (e + 1) * (100 * d)) :
    |(d : ℚ) * k - count| ≤ d / 2 + 50 * d * 2 ^ ((e : ℤ) + 1 - 53) := by
  have hdouble := h.double_eq hcount hle
  have hunit : (0 : ℚ) < (100 * d : ℕ) := by exact_mod_cast Nat.mul_pos (by decide) hd
  have hweight : quantum 53 (double / (100 * d : ℕ)) ≤ 2 ^ ((e : ℤ) + 1 - (53 : ℕ)) := by
    refine quantum_le (div_pos ?_ hunit) ?_ 53
    · rw [hdouble]
      exact_mod_cast hcount
    · rw [hdouble, div_lt_iff₀ hunit]
      exact_mod_cast hlt
  have hsum := h.abs_sub_le hd (show |double - count| ≤ 0 by rw [hdouble, sub_self, abs_zero])
    hweight
  rwa [add_zero] at hsum

theorem abs_milliseconds (h : RoundedThrice count 1000 double quotient k) (hcount : 0 < count)
    (hlt : count < 1000000) : |10 * (k : ℤ) - count| ≤ 5 := by
  have hsum := abs_sub_le_of_exact (d := 10) (e := 9) (by decide) h hcount (by omega) (by omega)
  have hbound : |((10 * (k : ℤ) - count : ℤ) : ℚ)| < 6 := by
    push_cast
    refine lt_of_le_of_lt hsum ?_
    norm_num
  exact Int.le_of_lt_add_one (by exact_mod_cast hbound)

theorem abs_seconds (h : RoundedThrice count 1000000 double quotient k) (hcount : 0 < count)
    (hle : count ≤ 9007199254740992) : |10000 * (k : ℤ) - count| ≤ 5000 := by
  have hsum := abs_sub_le_of_exact (d := 10000) (e := 33) (by decide) h hcount hle (by omega)
  have hbound : |((10000 * (k : ℤ) - count : ℤ) : ℚ)| < 5001 := by
    push_cast
    refine lt_of_le_of_lt hsum ?_
    norm_num
  exact Int.le_of_lt_add_one (by exact_mod_cast hbound)

/-- Also where the microseconds have too many binary digits. -/
theorem abs_seconds_lt (h : RoundedThrice count 1000000 double quotient k) (hcount : 0 < count)
    (hle : count ≤ maxCount) : |10000 * (k : ℤ) - count| < 10000 := by
  have hpos : (0 : ℚ) < count := by exact_mod_cast hcount
  have hlt : (count : ℚ) < 2 ^ ((62 : ℤ) + 1) := by
    have hle' : (count : ℚ) ≤ maxCount := by exact_mod_cast hle
    refine lt_of_le_of_lt hle' ?_
    norm_num [maxCount]
  have hlost : |double - count| ≤ 512 := by
    have hquantum : quantum 53 (count : ℚ) ≤ 1024 :=
      (quantum_le hpos hlt 53).trans (by norm_num)
    have herror := h.integer.abs_sub_le
    linarith
  have hdouble : double < 2 ^ ((43 : ℤ) + 1) * 1000000 := by
    have hupper := (abs_le.1 hlost).2
    calc double ≤ count + 512 := by linarith
      _ < 2 ^ ((62 : ℤ) + 1) + 512 := by linarith
      _ < 2 ^ ((43 : ℤ) + 1) * 1000000 := by norm_num
  have hweight : quantum 53 (double / (100 * 10000 : ℕ)) ≤ 2 ^ ((43 : ℤ) + 1 - (53 : ℕ)) := by
    refine quantum_le (div_pos (h.integer.pos (by decide) hpos) (by norm_num)) ?_ 53
    rw [div_lt_iff₀ (by norm_num)]
    exact_mod_cast hdouble
  have hsum := abs_sub_le (d := 10000) (by decide) h hlost hweight
  have hbound : |((10000 * (k : ℤ) - count : ℤ) : ℚ)| < 10000 := by
    push_cast
    refine lt_of_le_of_lt hsum ?_
    norm_num
  exact_mod_cast hbound

end RoundedThrice

theorem hundredths_mono {count count' unit : Nat} (hpos : 0 < unit)
    (hunit : unit ≤ 9007199254740992) (h : unit ≤ count) (hle : count ≤ count') :
    hundredths count unit ≤ hundredths count' unit := by
  obtain ⟨_, _, hrounded⟩ := exists_roundedThrice hpos hunit h
  obtain ⟨_, _, hrounded'⟩ := exists_roundedThrice hpos hunit (h.trans hle)
  exact hrounded.mono (hpos.trans_le h) hpos hrounded' hle

/-! ## Numbers of microseconds -/

/-- Below ten there is a leading zero. -/
theorem toList_decimals {decimals : Nat} (h : decimals < 100) :
    ((if decimals < 10 then "0" else "") ++ toString decimals).toList =
      [Nat.digitChar (decimals / 10), Nat.digitChar (decimals % 10)] := by
  rcases Nat.lt_or_ge decimals 10 with hlt | hge
  · rw [if_pos hlt, String.toList_append, Shows.toList_digit hlt, Nat.div_eq_of_lt hlt,
      Nat.mod_eq_of_lt hlt]
    rfl
  · rw [if_neg (Nat.not_lt.2 hge), String.empty_append, Fields.toList_toString,
      Nat.toDigits_of_base_le (by decide) hge, Nat.toDigits_of_lt_base (by omega)]
    rfl

theorem decimalText_eq (hundredths : Nat) :
    decimalText hundredths =
      s!"{hundredths / 100}.{hundredths % 100 / 10}{hundredths % 10}" := by
  have hones : hundredths % 100 % 10 = hundredths % 10 := by omega
  have hdecimals := toList_decimals (Nat.mod_lt hundredths (by decide : 100 > 0))
  rw [hones] at hdecimals
  refine String.toList_inj.1 ?_
  rw [Shows.toList_decimal (by omega) (by omega)]
  show (toString (hundredths / 100) ++ "." ++ (if hundredths % 100 < 10 then "0" else "") ++
    toString (hundredths % 100)).toList = _
  rw [String.append_assoc, String.toList_append, hdecimals, String.toList_append,
    Fields.toList_toString, List.append_assoc]
  rfl

/-- The unit in which a number of microseconds is shown. -/
def unitOf (count : Nat) : TimeUnit :=
  if count < 1000 then .microsecond else if count < 1000000 then .millisecond else .second

/-- The number that is shown for it. -/
def numberOf (count : Nat) : Nat :=
  if count < 1000 then count
  else if count < 1000000 then hundredths count 1000
  else hundredths count 1000000

theorem shows_decimalText (unit : TimeUnit) (h : unit ≠ .microsecond) (hundredths : Nat) :
    Shows (decimalText hundredths ++ unit.text) unit hundredths := by
  have hdigits : 100 * (hundredths / 100) + 10 * (hundredths % 100 / 10) + hundredths % 10 =
      hundredths := by omega
  have htens : hundredths % 100 / 10 < 10 := by omega
  have hones : hundredths % 10 < 10 := by omega
  have hshows := Shows.decimal h (hundredths / 100) htens hones
  rwa [hdigits, ← decimalText_eq] at hshows

theorem shows_countText (count : Nat) :
    Shows (countText count) (unitOf count) (numberOf count) := by
  rw [countText, unitOf, numberOf]
  split
  · exact .whole count
  split
  · exact shows_decimalText .millisecond nofun _
  · exact shows_decimalText .second nofun _

theorem numberOf_mono {count count' : Nat} (hunit : unitOf count = unitOf count')
    (h : count ≤ count') : numberOf count ≤ numberOf count' := by
  unfold unitOf at hunit
  unfold numberOf
  rcases Nat.lt_or_ge count 1000 with hmicro | hmicro
  · rw [if_pos hmicro] at hunit ⊢
    split at hunit
    · rwa [if_pos ‹_›]
    · split at hunit <;> cases hunit
  rcases Nat.lt_or_ge count 1000000 with hmilli | hmilli
  · rw [if_neg (by omega), if_pos hmilli] at hunit ⊢
    rw [if_neg (by omega)] at hunit ⊢
    split at hunit
    · rw [if_pos ‹_›]
      exact hundredths_mono (by decide) (by decide) hmicro h
    · cases hunit
  · rw [if_neg (by omega), if_neg (by omega), if_neg (by omega), if_neg (by omega)]
    exact hundredths_mono (by decide) (by decide) hmilli h

/-! ## Run times -/

variable {σ : Type} {spans : Spans σ} {length : σ → Int} {t : RunTime}

theorem microseconds_eq (t : RunTime) : t.microseconds = t.toNanoseconds / 1000 := by
  unfold microseconds toNanoseconds
  omega

/-- The microseconds of the span of a run time. -/
theorem microseconds?_ofRunTime? {span : σ} (h : spans.Documented length) (ht : t.Proper)
    (hspan : spans.ofRunTime? t = some span) :
    spans.microseconds? span =
      if t.microseconds ≤ maxCount then some (t.microseconds : Int) else none := by
  have hcount : (length span).tdiv 1000 = t.microseconds := by
    rw [h.length_eq t span ht hspan, microseconds_eq]
    rfl
  rw [h.microseconds_eq, hcount]
  refine if_congr ?_ rfl rfl
  omega

/-- A run time that is too long for a span has too many microseconds as well. -/
theorem lt_microseconds_of_eq_none (h : spans.Documented length) (ht : t.Proper)
    (hspan : spans.ofRunTime? t = none) : maxCount < t.microseconds := by
  have hlt := (h.eq_none_iff t ht).1 hspan
  rw [microseconds_eq]
  unfold maxCount at hlt ⊢
  omega

theorem textBy_eq (h : spans.Documented length) (ht : t.Proper) :
    t.textBy spans =
      if t.microseconds ≤ maxCount then countText t.microseconds else "N/A" := by
  rw [textBy]
  cases hspan : spans.ofRunTime? t with
  | none => rw [if_neg (Nat.not_le.2 (lt_microseconds_of_eq_none h ht hspan))]
  | some span =>
      show spans.text span = _
      rw [Spans.text, microseconds?_ofRunTime? h ht hspan]
      by_cases hle : t.microseconds ≤ maxCount
      · rw [if_pos hle, if_pos hle]
        exact if_neg (Int.not_lt.2 (Int.natCast_nonneg _))
      · rw [if_neg hle, if_neg hle]

/-- What is printed for a run time. The number has the unit that is written after it, and is given
by its hundredths if it has decimals. -/
structure Faithful (spans : Spans σ) (t : RunTime) : Prop where
  notAvailable_iff : t.textBy spans = "N/A" ↔ maxCount < t.microseconds
  /-- That there is no span never decides. -/
  limit_idle : spans.ofRunTime? t = none → maxCount < t.microseconds
  /-- No span of a run time is negative. -/
  nonneg : ∀ (span : σ) (count : Int), spans.ofRunTime? t = some span →
    spans.microseconds? span = some count → 0 ≤ count
  whole : t.microseconds < 1000 → Shows (t.textBy spans) .microsecond t.microseconds
  milliseconds : 1000 ≤ t.microseconds → t.microseconds < 1000000 →
    ∃ (double quotient : ℚ) (k : Nat), RoundedThrice t.microseconds 1000 double quotient k ∧
      Shows (t.textBy spans) .millisecond k ∧ |10 * (k : ℤ) - t.microseconds| ≤ 5
  seconds : 1000000 ≤ t.microseconds → t.microseconds ≤ maxCount →
    ∃ (double quotient : ℚ) (k : Nat), RoundedThrice t.microseconds 1000000 double quotient k ∧
      Shows (t.textBy spans) .second k ∧
      (t.microseconds ≤ 9007199254740992 → |10000 * (k : ℤ) - t.microseconds| ≤ 5000) ∧
      |10000 * (k : ℤ) - t.microseconds| < 10000

theorem faithful (h : spans.Documented length) (ht : t.Proper) : t.Faithful spans := by
  have htext := textBy_eq h ht
  have hshows : t.microseconds ≤ maxCount →
      Shows (t.textBy spans) (unitOf t.microseconds) (numberOf t.microseconds) := by
    intro hle
    rw [htext, if_pos hle]
    exact shows_countText t.microseconds
  refine ⟨⟨fun hna => ?_, fun hlt => ?_⟩, lt_microseconds_of_eq_none h ht, ?_, ?_, ?_, ?_⟩
  · by_contra hle
    exact (hshows (Nat.not_lt.1 hle)).ne_notAvailable hna
  · rw [htext, if_neg (Nat.not_le.2 hlt)]
  · intro span count hspan hcount
    rw [microseconds?_ofRunTime? h ht hspan, Option.ite_none_right_eq_some] at hcount
    rw [← Option.some.inj hcount.2]
    exact Int.natCast_nonneg _
  · intro hlt
    have hshown := hshows (by unfold maxCount; omega)
    rwa [unitOf, if_pos hlt, numberOf, if_pos hlt] at hshown
  · intro hge hlt
    have hshown := hshows (by unfold maxCount; omega)
    rw [unitOf, if_neg (by omega), if_pos hlt, numberOf, if_neg (by omega), if_pos hlt] at hshown
    obtain ⟨double, quotient, hrounded⟩ := exists_roundedThrice (by decide) (by decide) hge
    exact ⟨double, quotient, _, hrounded, hshown, hrounded.abs_milliseconds (by omega) hlt⟩
  · intro hge hle
    have hshown := hshows hle
    rw [unitOf, if_neg (by omega), if_neg (by omega), numberOf, if_neg (by omega),
      if_neg (by omega)] at hshown
    obtain ⟨double, quotient, hrounded⟩ := exists_roundedThrice (by decide) (by decide) hge
    exact ⟨double, quotient, _, hrounded, hshown, hrounded.abs_seconds (by omega),
      hrounded.abs_seconds_lt (by omega) hle⟩

/-- What shows a number is the text of a number of microseconds. -/
theorem shows_textBy {unit : TimeUnit} {k : Nat} (h : spans.Documented length) (ht : t.Proper)
    (hshows : Shows (t.textBy spans) unit k) :
    unit = unitOf t.microseconds ∧ k = numberOf t.microseconds := by
  rw [textBy_eq h ht] at hshows
  split at hshows
  · exact hshows.unique (shows_countText t.microseconds)
  · exact absurd rfl hshows.ne_notAvailable

/-- What is printed for a run time is faithful to it, for each of 64 bits of seconds. The text is
`"N/A"` exactly if there are more than `maxCount` microseconds; that a span has a limit of its own,
and may be negative, makes no difference. Below a millisecond the microseconds are shown exactly.
From then on the printed hundredths are off by at most half of one, up to as many microseconds as
are exact in binary, and beyond that by less than one. Within one unit a longer run time never
shows a smaller number. -/
theorem text_faithful {σ : Type} (spans : Spans σ) (length : σ → Int)
    (h : spans.Documented length) :
    (∀ t : RunTime, t.Proper → t.microseconds = t.toNanoseconds / 1000 ∧ t.Faithful spans) ∧
    ∀ t t' : RunTime, t.Proper → t'.Proper → t.toNanoseconds ≤ t'.toNanoseconds →
      ∀ (unit : TimeUnit) (k k' : Nat), Shows (t.textBy spans) unit k →
        Shows (t'.textBy spans) unit k' → k ≤ k' := by
  refine ⟨fun t ht => ⟨microseconds_eq t, faithful h ht⟩, ?_⟩
  intro t t' ht ht' hle unit k k' hshows hshows'
  obtain ⟨hunit, rfl⟩ := shows_textBy h ht hshows
  obtain ⟨hunit', rfl⟩ := shows_textBy h ht' hshows'
  refine numberOf_mono (hunit.symm.trans hunit') ?_
  rw [microseconds_eq, microseconds_eq]
  exact Nat.div_le_div_right hle

/-- A tie, the largest number of microseconds, and the next one. -/
theorem text_faithful_tie_and_largest :
    Spans.standard.Documented id ∧
    RunTime.textBy .standard ⟨0, 1125999⟩ = "1.12ms" ∧
    RunTime.textBy .standard ⟨9223372036854, 775807999⟩ = "9223372036854.78s" ∧
    RunTime.textBy .standard ⟨9223372036854, 775808000⟩ = "N/A" ∧
    RunTime.Faithful Spans.standard ⟨0, 1125999⟩ ∧
    RunTime.Faithful Spans.standard ⟨9223372036854, 775807999⟩ ∧
    RunTime.Faithful Spans.standard ⟨9223372036854, 775808000⟩ := by
  have h := (text_faithful Spans.standard id Spans.documented_standard).1
  exact ⟨Spans.documented_standard, by decide +kernel, by decide +kernel, by decide +kernel,
    (h ⟨0, 1125999⟩ ⟨by decide, by decide⟩).2,
    (h ⟨9223372036854, 775807999⟩ ⟨by decide, by decide⟩).2,
    (h ⟨9223372036854, 775808000⟩ ⟨by decide, by decide⟩).2⟩

end RunTime

end StirlingTriangle
