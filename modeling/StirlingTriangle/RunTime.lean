import StirlingTriangle.Rounding

/-!
# RunTime

How long an evaluation took, and the text that a report shows for it: whole
microseconds below a millisecond, then milliseconds and from a second on
seconds, with two decimals.

A run time is first made a signed span of time. What can be done with these is
given as `Spans`; `Spans.standard` counts their nanoseconds, and has the limits
that a span has on the real clock. A span that is too long has no text.

The decimals are those of a binary quotient of 53 digits: the microseconds
are rounded to it, divided in it, and what it then denotes exactly is rounded
to hundredths, each time a tie to the even neighbour. So 1125 µs are 1.12 ms,
and 999999 µs are 1000.00 ms.
-/

namespace StirlingTriangle

/-- A span of time, with fewer than a billion nanoseconds besides the seconds. -/
structure RunTime where
  seconds : Nat
  nanoseconds : Nat
deriving DecidableEq, Repr

namespace RunTime

def ofNanoseconds (k : Nat) : RunTime := ⟨k / 1000000000, k % 1000000000⟩

def toNanoseconds (t : RunTime) : Nat := t.seconds * 1000000000 + t.nanoseconds

/-- Whole microseconds. -/
def microseconds (t : RunTime) : Nat := t.seconds * 1000000 + t.nanoseconds / 1000

/-- The largest signed integer of 64 bits. -/
def maxCount : Nat := 9223372036854775807

/-! ## Numbers of microseconds -/

/-- Binary digits of a quotient. -/
def precision : Nat := 53

/-- The hundredths of `count / unit`, divided and rounded in binary. -/
def hundredths (count unit : Nat) : Nat :=
  let count := Ratio.toBinary precision ⟨count, 1⟩
  let quotient := Ratio.toBinary precision ⟨count.num, count.den * unit⟩
  quotient.hundredths

/-- A number of hundredths with its two decimals. -/
def decimalText (hundredths : Nat) : String :=
  let decimals := hundredths % 100
  s!"{hundredths / 100}." ++ (if decimals < 10 then "0" else "") ++ toString decimals

def countText (count : Nat) : String :=
  if count < 1000 then s!"{count}µs"
  else if count < 1000000 then decimalText (hundredths count 1000) ++ "ms"
  else decimalText (hundredths count 1000000) ++ "s"

end RunTime

/-! ## Signed spans of time -/

structure Spans (σ : Type) where
  /-- The span of a run time, unless that is too long. -/
  ofRunTime? : RunTime → Option σ
  /-- Whole microseconds, unless there are too many. -/
  microseconds? : σ → Option Int
  neg : σ → σ

namespace Spans

/-- Spans of at most `maxCount` milliseconds, by their nanoseconds. -/
def standard : Spans Int where
  ofRunTime? t :=
    if t.toNanoseconds ≤ RunTime.maxCount * 1000000 then some t.toNanoseconds else none
  microseconds? span :=
    let count := span.tdiv 1000
    if -RunTime.maxCount - 1 ≤ count ∧ count ≤ RunTime.maxCount then some count else none
  neg span := -span

variable {σ : Type}

/-- The text of the number of microseconds. That of a negative one is a minus sign and the text of
the opposite span. -/
def text (spans : Spans σ) (span : σ) : String :=
  match spans.microseconds? span with
  | none => "N/A"
  | some count =>
    if count < 0 then
      -- the opposite of a negative span is not negative, so this branch is not taken twice
      "-" ++ match spans.microseconds? (spans.neg span) with
        | none => "N/A"
        | some count => RunTime.countText count.toNat
    else RunTime.countText count.toNat

end Spans

namespace RunTime

/-- The text of a run time that is made a span first. -/
def textBy {σ : Type} (spans : Spans σ) (t : RunTime) : String :=
  match spans.ofRunTime? t with
  | none => "N/A"
  | some span => spans.text span

def text (t : RunTime) : String := t.textBy .standard

end RunTime

end StirlingTriangle
