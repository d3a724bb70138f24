import StirlingTriangle.Config
import StirlingTriangle.Proofs.Text.Integer

/-!
# Config

What a configuration is resolved to, and what has been asked for and read by then.

* `Console.NextLine` says what one line of the input is, and `nextLine_iff` that
  this is what is read;
* `Config.Index.Reads` says what comes of a line, `Config.Index.Finds` how an index
  is found, and `Config.Resolved` how a configuration. Each of them has one
  constructor for every way this can end, with the failure that is then reported;
* `Config.resolve_exact` says that there are no other ways.
-/

namespace StirlingTriangle

/-! ## Lines of the input -/

namespace Console

/-- A line ends with the first line feed, or with the input if there is none. -/
inductive NextLine : List UInt8 → List UInt8 → List UInt8 → Prop where
  | ended {line : List UInt8} (h : lineFeed ∉ line) (rest : List UInt8) :
      NextLine (line ++ lineFeed :: rest) (line ++ [lineFeed]) rest
  | unended {line : List UInt8} (h : lineFeed ∉ line) : NextLine line line []

variable {input line rest : List UInt8}

theorem forall_ne_lineFeed (h : lineFeed ∉ line) : ∀ x ∈ line, decide (x ≠ lineFeed) = true := by
  intro x hx
  refine decide_eq_true ?_
  rintro rfl
  exact h hx

theorem splitLine_ended (h : lineFeed ∉ line) (rest : List UInt8) :
    splitLine (line ++ lineFeed :: rest) = (line ++ [lineFeed], rest) := by
  have htake : (line ++ lineFeed :: rest).takeWhile (· ≠ lineFeed) = line := by
    exact List.takeWhile_append_stop (forall_ne_lineFeed h) (by simp)
  have hdrop : (line ++ lineFeed :: rest).dropWhile (· ≠ lineFeed) = lineFeed :: rest := by
    exact List.dropWhile_append_stop (forall_ne_lineFeed h) (by simp)
  rw [splitLine, hdrop, htake]

theorem splitLine_unended (h : lineFeed ∉ line) : splitLine line = (line, []) := by
  have htake : line.takeWhile (· ≠ lineFeed) = line :=
    List.takeWhile_eq_self_iff.2 (forall_ne_lineFeed h)
  have hdrop : line.dropWhile (· ≠ lineFeed) = [] :=
    List.dropWhile_eq_nil_iff.2 (forall_ne_lineFeed h)
  rw [splitLine, hdrop, htake]

theorem nextLine_iff : NextLine input line rest ↔ splitLine input = (line, rest) := by
  constructor
  · intro h
    cases h with
    | ended h rest => exact splitLine_ended h rest
    | unended h => exact splitLine_unended h
  · intro h
    by_cases hfeed : lineFeed ∈ input
    · obtain ⟨before, after, rfl, hbefore⟩ := List.eq_append_cons_of_mem hfeed
      rw [splitLine_ended hbefore, Prod.mk.injEq] at h
      obtain ⟨rfl, rfl⟩ := h
      exact .ended hbefore after
    · rw [splitLine_unended hfeed, Prod.mk.injEq] at h
      obtain ⟨rfl, rfl⟩ := h
      exact .unended hfeed

end Console

namespace Config

/-! ## An index -/

namespace Index

variable {index : Index} {line : List UInt8}

/-- What comes of a line that is read for an index. -/
inductive Reads (index : Index) : List UInt8 → Except Failure Int → Prop where
  | value {line : List UInt8} {v : Int} (h : Supplies line v) : Reads index line (.ok v)
  /-- Nothing is left of the input. -/
  | noValue : Reads index [] (.error (.configuration s!"No value given for `{index.text}`"))
  | notUtf8 {line : List UInt8} (h : ∀ text, line ≠ Utf8.bytes text) :
      Reads index line (.error (.reading "stream did not contain valid UTF-8"))
  | notInteger {line : List UInt8} {text : List Char} (hne : line ≠ [])
      (htext : line = Utf8.bytes text) (h : ∀ v, ¬ Supplies line v) :
      Reads index line (.error (.configuration s!"Invalid `{index.text}`: must be an integer"))

theorem ofLine_of_not_utf8 (h : ∀ text, line ≠ Utf8.bytes text) :
    index.ofLine line = .error .notUtf8 := by
  have hne : line.isEmpty = false := by
    refine List.isEmpty_eq_false_iff.2 fun hnil => h [] ?_
    rw [hnil]
    rfl
  rw [ofLine, hne, Utf8.fromUTF8?_eq_none_iff.2 h]
  rfl

theorem ofLine_bytes {text : List Char} (hne : Utf8.bytes text ≠ []) :
    index.ofLine (Utf8.bytes text) =
      match Numeral.int64? (Blank.trim text) with
      | some v => .ok v
      | none => .error (.notInteger index) := by
  have htext : String.fromUTF8? ⟨(Utf8.bytes text).toArray⟩ = some (String.ofList text) :=
    Utf8.fromUTF8?_eq_some_iff.2 (by rw [String.toList_ofList])
  rw [ofLine, List.isEmpty_eq_false_iff.2 hne, htext]
  simp only [String.toList_ofList]
  rfl

theorem ofLine_of_supplies {v : Int} (h : Supplies line v) : index.ofLine line = .ok v := by
  obtain ⟨text, rfl⟩ := h.exists_bytes
  have hne : Utf8.bytes text ≠ [] := by
    intro hnil
    exact not_supplies_nil v (hnil ▸ h)
  rw [ofLine_bytes hne, supplies_bytes_iff.1 h]

theorem ofLine_of_not_supplies {text : List Char} (hne : Utf8.bytes text ≠ [])
    (h : ∀ v, ¬ Supplies (Utf8.bytes text) v) :
    index.ofLine (Utf8.bytes text) = .error (.notInteger index) := by
  have hnone : Numeral.int64? (Blank.trim text) = none :=
    Option.eq_none_iff_forall_ne_some.2 fun v hv => h v (supplies_bytes_iff.2 hv)
  rw [ofLine_bytes hne, hnone]

/-- What comes of a line is what `Reads` says, and nothing else. -/
theorem reads_iff {result : Except Failure Int} :
    Reads index line result ↔ (index.ofLine line).mapError Fault.failure = result := by
  constructor
  · intro h
    cases h with
    | value h => rw [ofLine_of_supplies h]; rfl
    | noValue => rfl
    | notUtf8 h => rw [ofLine_of_not_utf8 h]; rfl
    | notInteger hne htext h =>
        subst htext
        rw [ofLine_of_not_supplies hne h]
        rfl
  · rintro rfl
    by_cases hutf8 : ∃ text, line = Utf8.bytes text
    · obtain ⟨text, rfl⟩ := hutf8
      by_cases hv : ∃ v, Supplies (Utf8.bytes text) v
      · obtain ⟨v, hv⟩ := hv
        rw [ofLine_of_supplies hv]
        exact .value hv
      by_cases hne : Utf8.bytes text = []
      · rw [hne]
        exact .noValue
      · rw [ofLine_of_not_supplies hne (not_exists.1 hv)]
        exact .notInteger hne rfl (not_exists.1 hv)
    · rw [ofLine_of_not_utf8 (not_exists.1 hutf8)]
      exact .notUtf8 (not_exists.1 hutf8)

/-- How an index is found, with the console before and after. One that is given is neither asked
for nor read; otherwise one question is printed and one line is read. -/
inductive Finds (index : Index) : Option Int → Console → Except Failure Int → Console → Prop where
  | given (v : Int) (console : Console) : Finds index (some v) console (.ok v) console
  | asked {input line rest : List UInt8} {result : Except Failure Int}
      (hline : Console.NextLine input line rest) (hresult : index.Reads line result)
      (printed : String) :
      Finds index none ⟨input, printed⟩ result
        ⟨rest, printed ++ s!"What is value `{index.text}`?\n>>> "⟩

theorem resolve_some (index : Index) (v : Int) (console : Console) :
    index.resolve Console.ask (some v) console = (.ok v, console) := rfl

theorem resolve_none (index : Index) {input rest : List UInt8}
    (h : Console.splitLine input = (line, rest)) (printed : String) :
    index.resolve Console.ask none ⟨input, printed⟩ =
      (index.ofLine line, ⟨rest, printed ++ index.question⟩) := by
  show (index.ofLine (Console.splitLine input).1,
    (⟨(Console.splitLine input).2, printed ++ index.question⟩ : Console)) = _
  rw [h]

theorem finds_iff {given : Option Int} {console after : Console} {result : Except Failure Int} :
    Finds index given console result after ↔
      ∃ found, index.resolve Console.ask given console = (found, after) ∧
        found.mapError Fault.failure = result := by
  constructor
  · intro h
    cases h with
    | given v console => exact ⟨_, resolve_some index v console, rfl⟩
    | asked hline hresult printed =>
        exact ⟨_, resolve_none index (Console.nextLine_iff.1 hline) printed, reads_iff.1 hresult⟩
  · rintro ⟨found, hfound, rfl⟩
    cases given with
    | some v =>
        rw [resolve_some, Prod.mk.injEq] at hfound
        obtain ⟨rfl, rfl⟩ := hfound
        exact .given v console
    | none =>
        obtain ⟨input, printed⟩ := console
        rw [resolve_none index rfl, Prod.mk.injEq] at hfound
        obtain ⟨rfl, rfl⟩ := hfound
        exact .asked (Console.nextLine_iff.2 rfl) (reads_iff.2 rfl) printed

theorem finds_ok_iff {given : Option Int} {console after : Console} {v : Int} :
    Finds index given console (.ok v) after ↔
      index.resolve Console.ask given console = (.ok v, after) := by
  rw [finds_iff]
  constructor
  · rintro ⟨found, hfound, hresult⟩
    cases found with
    | error fault => cases hresult
    | ok w =>
        cases hresult
        exact hfound
  · intro h
    exact ⟨_, h, rfl⟩

theorem finds_error_iff {given : Option Int} {console after : Console} {failure : Failure} :
    Finds index given console (.error failure) after ↔
      ∃ fault, index.resolve Console.ask given console = (.error fault, after) ∧
        fault.failure = failure := by
  rw [finds_iff]
  constructor
  · rintro ⟨found, hfound, hresult⟩
    cases found with
    | error fault => exact ⟨fault, hfound, Except.error.inj hresult⟩
    | ok w => cases hresult
  · rintro ⟨fault, hfound, rfl⟩
    exact ⟨_, hfound, rfl⟩

end Index

/-! ## A configuration -/

/-- How a configuration is resolved. The column is looked for only if the row has been found, and
the number of threads is looked at only if both have. -/
inductive Resolved (args : Arguments) (console : Console) :
    Except Failure Config → Console → Prop where
  | noRow {failure : Failure} {after : Console}
      (hrow : Index.row.Finds args.n console (.error failure) after) :
      Resolved args console (.error failure) after
  | noColumn {n : Int} {failure : Failure} {between after : Console}
      (hrow : Index.row.Finds args.n console (.ok n) between)
      (hcolumn : Index.column.Finds args.m between (.error failure) after) :
      Resolved args console (.error failure) after
  | noThreads {n m : Int} {between after : Console}
      (hrow : Index.row.Finds args.n console (.ok n) between)
      (hcolumn : Index.column.Finds args.m between (.ok m) after) (h : args.threads = some 0) :
      Resolved args console (.error (.configuration "Thread count must be at least 1")) after
  | known {n m : Int} {between after : Console}
      (hrow : Index.row.Finds args.n console (.ok n) between)
      (hcolumn : Index.column.Finds args.m between (.ok m) after) (h : args.threads ≠ some 0) :
      Resolved args console
        (.ok {
          n, m
          width := args.width.getD .bits64
          backend := args.backend.getD .sharded
          threads := args.threads
          parallelizeBy := args.parallelizeBy.getD .row
          table := !args.noTable
          maxTableRows := args.maxTableRows.getD 64
          quiet := args.quiet
          verbose := args.verbose })
        after

section Resolve

variable {args : Arguments} {console between after : Console}

theorem resolve_of_row_error {fault : Fault}
    (hrow : Index.row.resolve Console.ask args.n console = (.error fault, after)) :
    resolve Console.ask args console = (.error fault, after) := by
  simp only [resolve, bind, StateT.bind, hrow]
  rfl

theorem resolve_of_column_error {n : Int} {fault : Fault}
    (hrow : Index.row.resolve Console.ask args.n console = (.ok n, between))
    (hcolumn : Index.column.resolve Console.ask args.m between = (.error fault, after)) :
    resolve Console.ask args console = (.error fault, after) := by
  simp only [resolve, bind, StateT.bind, hrow, hcolumn]
  rfl

theorem resolve_of_ok {n m : Int}
    (hrow : Index.row.resolve Console.ask args.n console = (.ok n, between))
    (hcolumn : Index.column.resolve Console.ask args.m between = (.ok m, after)) :
    resolve Console.ask args console = (ofArguments args n m, after) := by
  simp only [resolve, bind, StateT.bind, hrow, hcolumn]
  rfl

end Resolve

/-- A configuration is resolved in one of the ways of `Resolved`, and each of them is taken. -/
theorem resolved_iff {args : Arguments} {console after : Console}
    {result : Except Failure Config} :
    Resolved args console result after ↔
      ∃ found, resolve Console.ask args console = (found, after) ∧
        found.mapError Fault.failure = result := by
  constructor
  · intro h
    cases h with
    | noRow hrow =>
        obtain ⟨fault, hfault, rfl⟩ := Index.finds_error_iff.1 hrow
        exact ⟨_, resolve_of_row_error hfault, rfl⟩
    | noColumn hrow hcolumn =>
        obtain ⟨fault, hfault, rfl⟩ := Index.finds_error_iff.1 hcolumn
        exact ⟨_, resolve_of_column_error (Index.finds_ok_iff.1 hrow) hfault, rfl⟩
    | noThreads hrow hcolumn h =>
        refine ⟨_, resolve_of_ok (Index.finds_ok_iff.1 hrow) (Index.finds_ok_iff.1 hcolumn), ?_⟩
        rw [ofArguments, if_pos h]
        rfl
    | known hrow hcolumn h =>
        refine ⟨_, resolve_of_ok (Index.finds_ok_iff.1 hrow) (Index.finds_ok_iff.1 hcolumn), ?_⟩
        rw [ofArguments, if_neg h]
        rfl
  · rintro ⟨found, hfound, rfl⟩
    rcases hrow : Index.row.resolve Console.ask args.n console with ⟨row, between⟩
    cases row with
    | error fault =>
        rw [resolve_of_row_error hrow, Prod.mk.injEq] at hfound
        obtain ⟨rfl, rfl⟩ := hfound
        exact .noRow (Index.finds_error_iff.2 ⟨fault, hrow, rfl⟩)
    | ok n =>
        rcases hcolumn : Index.column.resolve Console.ask args.m between with ⟨column, last⟩
        cases column with
        | error fault =>
            rw [resolve_of_column_error hrow hcolumn, Prod.mk.injEq] at hfound
            obtain ⟨rfl, rfl⟩ := hfound
            exact .noColumn (Index.finds_ok_iff.2 hrow)
              (Index.finds_error_iff.2 ⟨fault, hcolumn, rfl⟩)
        | ok m =>
            rw [resolve_of_ok hrow hcolumn, Prod.mk.injEq] at hfound
            obtain ⟨rfl, rfl⟩ := hfound
            rw [ofArguments]
            split
            · exact .noThreads (Index.finds_ok_iff.2 hrow) (Index.finds_ok_iff.2 hcolumn) ‹_›
            · exact .known (Index.finds_ok_iff.2 hrow) (Index.finds_ok_iff.2 hcolumn) ‹_›

/-! ## The texts of two integers -/

/-- The bytes of the text of an integer, with something before and after it. -/
def padded (front : List Char) (v : Int) (back : List Char) : List UInt8 :=
  Utf8.bytes (front ++ (toString v).toList ++ back)

/-- Only blanks, and none of them ends a line. -/
def IsPadding (text : List Char) : Prop := ∀ c ∈ text, Blank.isBlank c ∧ c ≠ '\n'

section Padding

variable {v : Int} {front back : List Char}

theorem lineFeed_notMem_padded (hfront : IsPadding front) (hback : IsPadding back) :
    Console.lineFeed ∉ padded front v back := by
  refine Utf8.lineFeed_notMem_bytes fun hmem => ?_
  rw [List.append_assoc, List.mem_append, List.mem_append] at hmem
  rcases hmem with hmem | hmem | hmem
  · exact (hfront _ hmem).2 rfl
  · exact (Fields.isNumeral_int v).notMem (by decide) (by decide) hmem
  · exact (hback _ hmem).2 rfl

theorem supplies_padded (hv : Numeral.IsInt64 v) (hfront : ∀ c ∈ front, Blank.isBlank c)
    (hback : ∀ c ∈ back, Blank.isBlank c) : Supplies (padded front v back) v :=
  ⟨⟨front, _, back, rfl, Numeral.denotes_toString v, hfront, hback⟩, hv⟩

/-- The text of an integer is a line that supplies it, also together with the line feed. -/
theorem exists_nextLine_padded {ending rest : List UInt8} (hv : Numeral.IsInt64 v)
    (hfront : IsPadding front) (hback : IsPadding back)
    (hending : ending = [Console.lineFeed] ∨ ending = [] ∧ rest = []) :
    ∃ line, Console.NextLine (padded front v back ++ ending ++ rest) line rest ∧
      Supplies line v := by
  have hblank : ∀ c ∈ front, Blank.isBlank c := fun c hc => (hfront c hc).1
  rcases hending with rfl | ⟨rfl, rfl⟩
  · refine ⟨padded front v back ++ [Console.lineFeed], ?_, ?_⟩
    · rw [List.append_assoc]
      exact .ended (lineFeed_notMem_padded hfront hback) rest
    · -- a line feed is a blank
      have hfeed : padded front v back ++ [Console.lineFeed] = padded front v (back ++ ['\n']) := by
        rw [padded, padded, ← List.append_assoc, Utf8.bytes_append _ ['\n']]
        rfl
      rw [hfeed]
      refine supplies_padded hv hblank (List.forall_mem_append.2 ⟨fun c hc => (hback c hc).1, ?_⟩)
      exact List.forall_mem_singleton.2 rfl
  · refine ⟨padded front v back, ?_, supplies_padded hv hblank fun c hc => (hback c hc).1⟩
    rw [List.append_nil, List.append_nil]
    exact .unended (lineFeed_notMem_padded hfront hback)

end Padding

/-- A configuration is resolved exactly as `Resolved` says, for any arguments and any input: there
is no other result, and no other console afterwards. In particular, any two integers of 64 bits can
be supplied on two lines, with any blanks around them that are not line feeds. They are then the row
and the column, both questions have been printed, and what follows the second line has not been
read. -/
theorem resolve_exact (args : Arguments) :
    (∀ (console after : Console) (result : Except Failure Config),
      Resolved args console result after ↔
        ∃ found, resolve Console.ask args console = (found, after) ∧
          found.mapError Fault.failure = result) ∧
    (args.n = none → args.m = none → args.threads ≠ some 0 →
      ∀ (n m : Int) (front back front' back' : List Char) (ending rest : List UInt8)
        (printed : String), Numeral.IsInt64 n → Numeral.IsInt64 m →
        IsPadding front → IsPadding back → IsPadding front' → IsPadding back' →
        (ending = [Console.lineFeed] ∨ ending = [] ∧ rest = []) →
        ∃ config : Config, config.n = n ∧ config.m = m ∧
          resolve Console.ask args
              ⟨padded front n back ++ [Console.lineFeed] ++
                (padded front' m back' ++ ending ++ rest), printed⟩ =
            (.ok config,
              ⟨rest, printed ++ "What is value `n`?\n>>> " ++ "What is value `m`?\n>>> "⟩)) := by
  refine ⟨fun _ _ _ => resolved_iff, ?_⟩
  intro hn hm hthreads n m front back front' back' ending rest printed hnrange hmrange
    hfront hback hfront' hback' hending
  -- the second line is what is left after the first
  obtain ⟨line, hline, hsupplies⟩ := exists_nextLine_padded hnrange hfront hback
    (.inl rfl : [Console.lineFeed] = [Console.lineFeed] ∨
      _ ∧ padded front' m back' ++ ending ++ rest = [])
  obtain ⟨line', hline', hsupplies'⟩ := exists_nextLine_padded hmrange hfront' hback' hending
  have hrow := Index.row.resolve_none (Console.nextLine_iff.1 hline) printed
  have hcolumn := Index.column.resolve_none (Console.nextLine_iff.1 hline')
    (printed ++ Index.row.question)
  rw [Index.ofLine_of_supplies hsupplies, ← hn] at hrow
  rw [Index.ofLine_of_supplies hsupplies', ← hm] at hcolumn
  rw [resolve_of_ok hrow hcolumn, ofArguments, if_neg hthreads]
  exact ⟨_, rfl, rfl, rfl⟩

/-- The least and the largest integer on two lines, the second one not ended; and bytes that are not
UTF-8, after which the rest stays unread. -/
theorem resolve_exact_extremes :
    (∃ config : Config, config.n = -9223372036854775808 ∧ config.m = 9223372036854775807 ∧
      resolve Console.ask {}
          ⟨padded ['\t'] (-9223372036854775808) ['\r'] ++ [10] ++
            (padded ['\u3000'] 9223372036854775807 [] ++ [] ++ []), ""⟩ =
        (.ok config, ⟨[], "What is value `n`?\n>>> What is value `m`?\n>>> "⟩)) ∧
    Resolved {} ⟨[49, 255, 10, 50, 10], ""⟩
      (.error (.reading "stream did not contain valid UTF-8"))
      ⟨[50, 10], "What is value `n`?\n>>> "⟩ := by
  have hpadding : ∀ c : Char, Blank.isBlank c → c ≠ '\n' → IsPadding [c] :=
    fun c hblank hne => List.forall_mem_singleton.2 ⟨hblank, hne⟩
  constructor
  · exact (resolve_exact {}).2 rfl rfl nofun _ _ _ _ _ _ [] [] "" ⟨by decide, by decide⟩
      ⟨by decide, by decide⟩ (hpadding '\t' (by decide) (by decide))
      (hpadding '\r' (by decide) (by decide)) (hpadding '\u3000' (by decide) (by decide)) nofun
      (.inr ⟨rfl, rfl⟩)
  · exact ((resolve_exact {}).1 _ _ _).2 ⟨.error .notUtf8, by rfl, rfl⟩

end Config

end StirlingTriangle
