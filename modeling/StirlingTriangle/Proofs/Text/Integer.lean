import Mathlib.Data.List.TakeWhile
import StirlingTriangle.Proofs.Text.Fields
import StirlingTriangle.Text.Numeral

/-!
# Text.Integer

Which integer a line of bytes supplies.

* `Utf8.bytes` is the encoding of a text, and bytes are UTF-8 if they are the
  encoding of one (`fromUTF8?_eq_some_iff`). Of all characters only the line feed
  has its byte in it (`lineFeed_notMem_bytes`);
* `Blank.trim` cuts off the blanks at both ends and nothing else
  (`exists_eq_trim`, `trim_append`);
* `Numeral.Denotes` says which integer a text denotes, and `int64?_eq_some_iff`
  that it is read exactly if it is in range;
* `Supplies` puts these together, and `supplies_bytes_iff` says that it is what the
  readers find.
-/

namespace StirlingTriangle

/-! ## UTF-8 -/

namespace Utf8

/-- The bytes of a text. -/
def bytes (text : List Char) : List UInt8 := text.flatMap String.utf8EncodeChar

theorem bytes_append (text text' : List Char) : bytes (text ++ text') = bytes text ++ bytes text' :=
  List.flatMap_append

theorem toByteArray_eq (text : String) : text.toByteArray = ⟨(bytes text.toList).toArray⟩ := by
  rw [← String.utf8Encode_toList, List.utf8Encode]
  exact ByteArray.ext List.data_toByteArray

theorem toByteArray_eq_iff {line : List UInt8} {text : String} :
    text.toByteArray = ⟨line.toArray⟩ ↔ line = bytes text.toList := by
  rw [toByteArray_eq, ByteArray.mk.injEq]
  exact ⟨fun h => (List.toArray_inj h).symm, fun h => congrArg List.toArray h.symm⟩

theorem fromUTF8?_eq_some_iff {line : List UInt8} {text : String} :
    String.fromUTF8? ⟨line.toArray⟩ = some text ↔ line = bytes text.toList := by
  rw [← toByteArray_eq_iff, String.fromUTF8?]
  constructor
  · intro h
    split at h
    · rw [← Option.some.inj h]
      rfl
    · cases h
  · intro h
    rw [dif_pos (h ▸ text.isValidUTF8)]
    exact congrArg some (String.toByteArray_inj.1 h.symm)

theorem fromUTF8?_eq_none_iff {line : List UInt8} :
    String.fromUTF8? ⟨line.toArray⟩ = none ↔ ∀ text, line ≠ bytes text := by
  rw [Option.eq_none_iff_forall_ne_some]
  constructor
  · intro h text htext
    refine h (String.ofList text) (fromUTF8?_eq_some_iff.2 ?_)
    rwa [String.toList_ofList]
  · intro h text htext
    exact h text.toList (fromUTF8?_eq_some_iff.1 htext)

theorem bytes_injective {text text' : List Char} (h : bytes text = bytes text') : text = text' := by
  have hbytes : (String.ofList text).toByteArray = (String.ofList text').toByteArray := by
    rw [toByteArray_eq, toByteArray_eq, String.toList_ofList, String.toList_ofList, h]
  exact String.ofList_injective (String.toByteArray_inj.1 hbytes)

theorem lineFeed_notMem_utf8EncodeChar {c : Char} (h : c ≠ '\n') :
    10 ∉ String.utf8EncodeChar c := by
  have hval : c.val.toNat ≠ 10 := by
    intro heq
    exact h (Char.ext (UInt32.toNat_inj.1 heq))
  have hbyte : ∀ k : Nat, k % 256 ≠ 10 → (10 : UInt8) ≠ UInt8.ofNat k := by
    intro k hne heq
    have htoNat := congrArg UInt8.toNat heq
    rw [UInt8.toNat_ofNat'] at htoNat
    exact hne htoNat.symm
  intro hmem
  simp only [String.utf8EncodeChar] at hmem
  -- every byte of a longer encoding is at least 128
  split at hmem
  · rw [List.mem_singleton] at hmem
    exact hbyte _ (by omega) hmem
  split at hmem
  · simp only [List.mem_cons, List.not_mem_nil, or_false] at hmem
    rcases hmem with hmem | hmem <;> exact hbyte _ (by omega) hmem
  split at hmem
  · simp only [List.mem_cons, List.not_mem_nil, or_false] at hmem
    rcases hmem with hmem | hmem | hmem <;> exact hbyte _ (by omega) hmem
  · simp only [List.mem_cons, List.not_mem_nil, or_false] at hmem
    rcases hmem with hmem | hmem | hmem | hmem <;> exact hbyte _ (by omega) hmem

/-- A text without line feeds has no byte that looks like one. -/
theorem lineFeed_notMem_bytes {text : List Char} (h : '\n' ∉ text) : 10 ∉ bytes text := by
  intro hmem
  obtain ⟨c, hc, hbyte⟩ := List.mem_flatMap.1 hmem
  refine lineFeed_notMem_utf8EncodeChar ?_ hbyte
  rintro rfl
  exact h hc

end Utf8

/-! ## Blanks at the ends -/

namespace Blank

theorem trim_append {front core back : List Char} (hfront : ∀ c ∈ front, isBlank c)
    (hback : ∀ c ∈ back, isBlank c) (hne : core ≠ []) (hcore : ∀ c ∈ core, isBlank c = false) :
    trim (front ++ core ++ back) = core := by
  have hkept : ∀ {cs : List Char} (rest : List Char), cs ≠ [] → (∀ c ∈ cs, isBlank c = false) →
      (cs ++ rest).dropWhile isBlank = cs ++ rest := by
    intro cs rest hne hcs
    obtain ⟨c, cs, rfl⟩ := List.exists_cons_of_ne_nil hne
    refine List.dropWhile_cons_of_neg ?_
    rw [hcs c List.mem_cons_self]
    decide
  have hreverse : ∀ c ∈ core.reverse, isBlank c = false :=
    fun c hc => hcore c (List.mem_reverse.1 hc)
  rw [trim, List.append_assoc, List.dropWhile_append_of_pos hfront, hkept back hne hcore,
    List.reverse_append, List.dropWhile_append_of_pos fun c hc => hback c (List.mem_reverse.1 hc),
    ← List.append_nil core.reverse, hkept [] (List.reverse_ne_nil_iff.2 hne) hreverse,
    List.append_nil, List.reverse_reverse]

/-- Only blanks are cut off. -/
theorem exists_eq_trim (text : List Char) :
    ∃ front back, text = front ++ trim text ++ back ∧ (∀ c ∈ front, isBlank c) ∧
      ∀ c ∈ back, isBlank c := by
  have hblank : ∀ cs : List Char, ∀ c ∈ cs.takeWhile isBlank, isBlank c :=
    fun cs c hc => List.mem_takeWhile_imp hc
  let tail := text.dropWhile isBlank
  refine ⟨text.takeWhile isBlank, (tail.reverse.takeWhile isBlank).reverse, ?_, hblank text,
    fun c hc => hblank _ c (List.mem_reverse.1 hc)⟩
  calc text = text.takeWhile isBlank ++ tail := List.takeWhile_append_dropWhile.symm
    _ = text.takeWhile isBlank ++ tail.reverse.reverse := by rw [List.reverse_reverse]
    _ = text.takeWhile isBlank ++ (trim text ++ (tail.reverse.takeWhile isBlank).reverse) := by
      rw [trim, ← List.reverse_append, List.takeWhile_append_dropWhile]
    _ = text.takeWhile isBlank ++ trim text ++ (tail.reverse.takeWhile isBlank).reverse :=
      (List.append_assoc _ _ _).symm

theorem isBlank_of_isDigit {c : Char} (h : c.isDigit) : isBlank c = false := by
  simp only [Char.isDigit, Bool.and_eq_true, decide_eq_true_eq] at h
  have hlow : 48 ≤ c.toNat := h.1
  have hhigh : c.toNat ≤ 57 := h.2
  simp only [isBlank, Bool.or_eq_false_iff, Bool.and_eq_false_iff, decide_eq_false_iff_not,
    beq_eq_false_iff_ne, ne_eq]
  omega

end Blank

/-! ## Integers -/

namespace Numeral

/-- At least one digit, leading zeros allowed, and the number that they denote. -/
structure IsNatural (cs : List Char) (k : Nat) : Prop where
  nonempty : cs ≠ []
  digits : ∀ c ∈ cs, c.isDigit
  value : Nat.ofDigitChars 10 cs 0 = k

/-- The text is digits after at most one sign, and denotes the integer. -/
inductive Denotes : List Char → Int → Prop where
  | unsigned {cs : List Char} {k : Nat} (h : IsNatural cs k) : Denotes cs k
  | plus {cs : List Char} {k : Nat} (h : IsNatural cs k) : Denotes ('+' :: cs) k
  | minus {cs : List Char} {k : Nat} (h : IsNatural cs k) : Denotes ('-' :: cs) (-k)

theorem nat?_eq_some_iff_isNatural {largest k : Nat} {cs : List Char} :
    nat? largest cs = some k ↔ IsNatural cs k ∧ k ≤ largest := by
  rw [nat?_eq_some_iff]
  constructor
  · rintro ⟨hne, hdigits, hvalue, hle⟩
    exact ⟨⟨hne, hdigits, hvalue⟩, hle⟩
  · rintro ⟨⟨hne, hdigits, hvalue⟩, hle⟩
    exact ⟨hne, hdigits, hvalue, hle⟩

section Signs

variable {below above : Nat} {cs : List Char}

theorem signed?_minus :
    signed? below above ('-' :: cs) = (nat? below cs).map fun k : Nat => -(k : Int) := by
  rw [signed?]
  cases nat? below cs <;> rfl

theorem signed?_of_ne_minus (h : ∀ rest, cs ≠ '-' :: rest) :
    signed? below above cs = (unsigned? above cs).map fun k : Nat => (k : Int) := by
  rw [signed?.eq_2 below above cs fun rest hrest => h rest hrest]
  cases unsigned? above cs <;> rfl

theorem signed?_plus :
    signed? below above ('+' :: cs) = (nat? above cs).map fun k : Nat => (k : Int) :=
  signed?_of_ne_minus nofun

theorem signed?_unsigned (hminus : ∀ rest, cs ≠ '-' :: rest) (hplus : ∀ rest, cs ≠ '+' :: rest) :
    signed? below above cs = (nat? above cs).map fun k : Nat => (k : Int) := by
  rw [signed?_of_ne_minus hminus, unsigned?.eq_2 above cs fun rest hrest => hplus rest hrest]

end Signs

theorem IsNatural.ne_cons {cs : List Char} {k : Nat} (h : IsNatural cs k) {c : Char}
    (hc : c.isDigit = false) (rest : List Char) : cs ≠ c :: rest := by
  rintro rfl
  rw [h.digits c List.mem_cons_self] at hc
  cases hc

theorem denotes_of_signed? {below above : Nat} {text : List Char} {v : Int}
    (h : signed? below above text = some v) : Denotes text v ∧ -(below : Int) ≤ v ∧ v ≤ above := by
  by_cases hminus : ∃ cs, text = '-' :: cs
  · obtain ⟨cs, rfl⟩ := hminus
    rw [signed?_minus] at h
    obtain ⟨k, hk, rfl⟩ := Option.map_eq_some_iff.1 h
    obtain ⟨hdigits, hle⟩ := nat?_eq_some_iff_isNatural.1 hk
    exact ⟨.minus hdigits, by omega, by omega⟩
  by_cases hplus : ∃ cs, text = '+' :: cs
  · obtain ⟨cs, rfl⟩ := hplus
    rw [signed?_plus] at h
    obtain ⟨k, hk, rfl⟩ := Option.map_eq_some_iff.1 h
    obtain ⟨hdigits, hle⟩ := nat?_eq_some_iff_isNatural.1 hk
    exact ⟨.plus hdigits, by omega, by omega⟩
  · rw [signed?_unsigned (not_exists.1 hminus) (not_exists.1 hplus)] at h
    obtain ⟨k, hk, rfl⟩ := Option.map_eq_some_iff.1 h
    obtain ⟨hdigits, hle⟩ := nat?_eq_some_iff_isNatural.1 hk
    exact ⟨.unsigned hdigits, by omega, by omega⟩

theorem Denotes.signed?_eq {below above : Nat} {text : List Char} {v : Int} (h : Denotes text v)
    (hlow : -(below : Int) ≤ v) (hhigh : v ≤ above) : signed? below above text = some v := by
  cases h with
  | unsigned h =>
      rw [signed?_unsigned (h.ne_cons (by decide)) (h.ne_cons (by decide)),
        nat?_eq_some_iff_isNatural.2 ⟨h, by omega⟩]
      rfl
  | plus h =>
      rw [signed?_plus, nat?_eq_some_iff_isNatural.2 ⟨h, by omega⟩]
      rfl
  | minus h =>
      rw [signed?_minus, nat?_eq_some_iff_isNatural.2 ⟨h, by omega⟩]
      rfl

/-- The integer is a signed one of 64 bits. -/
def IsInt64 (v : Int) : Prop := -9223372036854775808 ≤ v ∧ v ≤ 9223372036854775807

theorem int64?_eq_some_iff {text : List Char} {v : Int} :
    int64? text = some v ↔ Denotes text v ∧ IsInt64 v :=
  ⟨denotes_of_signed?, fun ⟨h, hlow, hhigh⟩ => h.signed?_eq hlow hhigh⟩

theorem Denotes.ne_nil {text : List Char} {v : Int} (h : Denotes text v) : text ≠ [] := by
  cases h with
  | unsigned h => exact h.nonempty
  | plus h => exact List.cons_ne_nil _ _
  | minus h => exact List.cons_ne_nil _ _

theorem Denotes.isBlank_eq_false {text : List Char} {v : Int} (h : Denotes text v) :
    ∀ c ∈ text, Blank.isBlank c = false := by
  have hdigits : ∀ {cs : List Char} {k : Nat}, IsNatural cs k → ∀ c ∈ cs, Blank.isBlank c = false :=
    fun h c hc => Blank.isBlank_of_isDigit (h.digits c hc)
  cases h with
  | unsigned h => exact hdigits h
  | plus h => exact List.forall_mem_cons.2 ⟨by decide, hdigits h⟩
  | minus h => exact List.forall_mem_cons.2 ⟨by decide, hdigits h⟩

theorem isNatural_toString (k : Nat) : IsNatural (toString k).toList k := by
  rw [Fields.toList_toString]
  exact ⟨Nat.toDigits_ne_nil, fun _ hc => Fields.isDigit_of_mem_toDigits hc,
    Nat.ofDigitChars_ten_toDigits⟩

/-- What is written denotes what it is the text of. -/
theorem denotes_toString (v : Int) : Denotes (toString v).toList v := by
  rw [Int.toString_eq_repr, Int.repr_eq_if]
  split
  · have h := Denotes.unsigned (isNatural_toString v.toNat)
    rwa [Int.toNat_of_nonneg ‹_›] at h
  · have h := Denotes.minus (isNatural_toString (-v).toNat)
    rw [Int.toNat_of_nonneg (by omega), Int.neg_neg] at h
    rwa [String.toList_append]

end Numeral

/-! ## Lines -/

/-- The line is UTF-8, and between blanks it denotes the integer, which is one of 64 bits. -/
structure Supplies (line : List UInt8) (v : Int) : Prop where
  exists_numeral : ∃ front numeral back : List Char,
    line = Utf8.bytes (front ++ numeral ++ back) ∧ Numeral.Denotes numeral v ∧
      (∀ c ∈ front, Blank.isBlank c) ∧ ∀ c ∈ back, Blank.isBlank c
  isInt64 : Numeral.IsInt64 v

theorem supplies_bytes_iff {text : List Char} {v : Int} :
    Supplies (Utf8.bytes text) v ↔ Numeral.int64? (Blank.trim text) = some v := by
  rw [Numeral.int64?_eq_some_iff]
  constructor
  · rintro ⟨⟨front, numeral, back, htext, hdenotes, hfront, hback⟩, hv⟩
    rw [Utf8.bytes_injective htext,
      Blank.trim_append hfront hback hdenotes.ne_nil hdenotes.isBlank_eq_false]
    exact ⟨hdenotes, hv⟩
  · rintro ⟨hdenotes, hv⟩
    obtain ⟨front, back, htext, hfront, hback⟩ := Blank.exists_eq_trim text
    exact ⟨⟨front, Blank.trim text, back, congrArg Utf8.bytes htext, hdenotes, hfront, hback⟩, hv⟩

theorem Supplies.exists_bytes {line : List UInt8} {v : Int} (h : Supplies line v) :
    ∃ text, line = Utf8.bytes text := by
  obtain ⟨front, numeral, back, hline, -⟩ := h.exists_numeral
  exact ⟨_, hline⟩

theorem not_supplies_nil (v : Int) : ¬ Supplies [] v := by
  intro h
  have hread := supplies_bytes_iff.1 (show Supplies (Utf8.bytes []) v from h)
  cases hread

end StirlingTriangle
