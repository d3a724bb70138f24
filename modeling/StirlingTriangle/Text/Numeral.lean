/-!
# Text.Numeral

Reading decimal integers, and the white space around them.

A numeral is a run of ASCII digits, at least one, leading zeros included; an
integer may have one sign in front. A reader takes the largest magnitude that
is allowed and stops at the first digit that leads past it, so a long text
costs no more than a short one.

`Blank.isBlank` is the Unicode property White_Space: 25 code points.

* `09`–`0D` (tab, line feed, vertical tab, form feed, carriage return), `20`;
* `85`, `A0`, `1680`, `2000`–`200A`, `2028`, `2029`, `202F`, `205F`, `3000`.
-/

namespace StirlingTriangle

/-! ## White space -/

namespace Blank

def isBlank (c : Char) : Bool :=
  let k := c.toNat
  (0x09 ≤ k && k ≤ 0x0D) || k == 0x20 || k == 0x85 || k == 0xA0 || k == 0x1680 ||
    (0x2000 ≤ k && k ≤ 0x200A) || k == 0x2028 || k == 0x2029 || k == 0x202F || k == 0x205F ||
    k == 0x3000

/-- Cuts the blanks off both ends. -/
def trim (text : List Char) : List Char :=
  ((text.dropWhile isBlank).reverse.dropWhile isBlank).reverse

end Blank

/-! ## Numerals -/

namespace Numeral

/-- Continues a numeral whose digits so far denote `value`. -/
def natFrom? (largest value : Nat) : List Char → Option Nat
  | [] => some value
  | c :: rest =>
    if c.isDigit then
      let value := 10 * value + (c.toNat - '0'.toNat)
      if value ≤ largest then natFrom? largest value rest else none
    else none

/-- The number that the digits denote, up to `largest`. -/
def nat? (largest : Nat) : List Char → Option Nat
  | [] => none
  | digits => natFrom? largest 0 digits

/-- A numeral that may have a plus sign. -/
def unsigned? (largest : Nat) : List Char → Option Nat
  | '+' :: digits => nat? largest digits
  | digits => nat? largest digits

/-- A numeral that may have a sign, denoting an integer from `-below` to `above`. -/
def signed? (below above : Nat) : List Char → Option Int
  | '-' :: digits => (nat? below digits).map fun k => -(k : Int)
  | digits => (unsigned? above digits).map fun k => (k : Int)

/-- A signed integer of 64 bits. -/
def int64? (text : List Char) : Option Int :=
  signed? 9223372036854775808 9223372036854775807 text

/-! ## What is read -/

theorem le_ofDigitChars (cs : List Char) (value : Nat) :
    value ≤ Nat.ofDigitChars 10 cs value := by
  rw [Nat.ofDigitChars_eq_ofDigitChars_zero]
  have := Nat.le_mul_of_pos_left value (Nat.pow_pos (show 0 < 10 by decide) : 0 < 10 ^ cs.length)
  omega

theorem natFrom?_eq_some_iff {largest value k : Nat} {cs : List Char} (h : value ≤ largest) :
    natFrom? largest value cs = some k ↔
      (∀ c ∈ cs, c.isDigit) ∧ Nat.ofDigitChars 10 cs value = k ∧ k ≤ largest := by
  induction cs generalizing value with
  | nil =>
    simp only [natFrom?, Option.some.injEq, List.not_mem_nil, false_implies, implies_true,
      Nat.ofDigitChars_nil, true_and]
    omega
  | cons c cs ih =>
    rw [natFrom?, Nat.ofDigitChars_cons]
    by_cases hc : c.isDigit
    · simp only [hc, if_true, List.forall_mem_cons, true_and]
      split
      · rename_i hle
        exact ih hle
      · rename_i hlt
        constructor
        · intro h; cases h
        · rintro ⟨_, rfl, hk⟩
          exact absurd (Nat.le_trans (le_ofDigitChars _ _) hk) hlt
    · simp [hc]

/-- A numeral is read exactly if it consists of digits, at least one, and denotes a number
that is allowed. -/
theorem nat?_eq_some_iff {largest k : Nat} {cs : List Char} :
    nat? largest cs = some k ↔
      cs ≠ [] ∧ (∀ c ∈ cs, c.isDigit) ∧ Nat.ofDigitChars 10 cs 0 = k ∧ k ≤ largest := by
  cases cs with
  | nil => simp [nat?]
  | cons c cs =>
    rw [nat?, natFrom?_eq_some_iff (Nat.zero_le largest)]
    · simp
    · simp

end Numeral

end StirlingTriangle
