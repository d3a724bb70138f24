import StirlingTriangle.Proofs.Page
import StirlingTriangle.Program

/-!
# Program

A run of the program from its arguments and its input to what is printed.

* on a console the configuration is found as the questions alone would find it,
  and nothing else that a run does can be seen there
  (`Program.runArguments_of_config`);
* `config.page` is what a configuration asks to be shown. The store, the number
  of threads, how the work is divided and how much is logged do not occur in it;
* `Program.transcript_page`: the page decides the exit code, what is printed
  after the questions, and the line that says what went wrong. How the arguments
  are read from words plays no part in it.
-/

namespace StirlingTriangle

theorem Width.bits_pos (width : Width) : 0 < width.bits := by
  cases width <;> decide

/-- What a configuration asks to be shown. -/
def Config.page (config : Config) : Page where
  bits := config.width.bits
  n := config.n
  m := config.m
  table := config.table && config.n ≤ config.maxTableRows
  quiet := config.quiet

/-- The end of a run that shows a page: the page, or why it has no value. -/
def Page.completion (page : Page) (time : String) : Completion :=
  match Outcome.ofTriangle page.bits page.n page.m with
  | .error e => .failed (.evaluation e)
  | .ok _ => .finished (page.text time)

namespace Page

variable (page : Page) (time : String)

theorem exitCode_completion_eq_zero_iff :
    (page.completion time).exitCode = 0 ↔
      1 ≤ page.m ∧ page.m ≤ page.n ∧ stirling page.n.toNat page.m.toNat < Word.limit page.bits := by
  rw [← Outcome.exists_ofTriangle_eq_ok_iff, completion]
  cases Outcome.ofTriangle page.bits page.n page.m <;> simp [Completion.exitCode]

theorem stdout_completion (h : (page.completion time).exitCode = 0) :
    (page.completion time).stdout = page.text time := by
  rw [completion] at h ⊢
  cases htrue : Outcome.ofTriangle page.bits page.n page.m with
  | error e =>
      rw [htrue] at h
      cases h
  | ok v => rfl

/-- A page without a value leaves nothing but its error line. -/
theorem completion_of_exitCode_ne_zero (h : (page.completion time).exitCode ≠ 0) :
    (page.completion time).exitCode = 1 ∧ (page.completion time).stdout = "" ∧
      (page.completion time).errorLine = some page.errorLine := by
  rw [completion] at h ⊢
  cases htrue : Outcome.ofTriangle page.bits page.n page.m with
  | error e => exact ⟨rfl, rfl, congrArg some (page.errorLine_eq htrue)⟩
  | ok v =>
      rw [htrue] at h
      exact absurd rfl h

end Page

namespace Program

variable (time : String)

/-! ## On a console -/

theorem bind_apply {σ α β : Type} (x : StateM σ α) (f : α → StateM σ β) (s : σ) :
    (x >>= f) s = f (x s).1 (x s).2 := rfl

/-- An index is found as on the console alone. -/
theorem resolve_index (index : Config.Index) (given : Option Int) (s : Recording) :
    index.resolve (terminal time).ask given s =
      ((index.resolve Console.ask given s.console).1,
        { s with console := (index.resolve Console.ask given s.console).2 }) := by
  cases given <;> rfl

/-- The configuration is found as on the console alone. -/
theorem resolve_terminal (args : Arguments) (s : Recording) :
    Config.resolve (terminal time).ask args s =
      ((Config.resolve Console.ask args s.console).1,
        { s with console := (Config.resolve Console.ask args s.console).2 }) := by
  rw [Config.resolve, Config.resolve, bind_apply, bind_apply, resolve_index]
  generalize Config.Index.row.resolve Console.ask args.n s.console = first
  obtain ⟨row, console⟩ := first
  cases row with
  | error fault => rfl
  | ok n =>
      simp only [bind_apply, resolve_index]
      generalize Config.Index.column.resolve Console.ask args.m console = second
      obtain ⟨column, console⟩ := second
      cases column <;> rfl

/-- Notices go to the log. -/
theorem forM_note (notices : List Notice) (s : Recording) :
    notices.forM (terminal time).note s = ((), { s with log := s.log ++ notices }) := by
  induction notices generalizing s with
  | nil =>
      rw [List.append_nil]
      rfl
  | cons notice notices ih =>
      rw [List.forM_eq_forM, List.forM_cons, bind_apply, ← List.forM_eq_forM, ih]
      simp [terminal]

/-- Whatever a configuration says besides its page, the page is what comes of it. -/
theorem answer_eq (config : Config) :
    answer (terminal time) config = pure (config.page.completion time) := by
  have hb := config.width.bits_pos
  have hresult : (checker config).result config.n config.m config.buildsTable time =
      ((Outcome.ofTriangle config.page.bits config.page.n config.page.m).mapError .evaluation).map
        fun _ => .exact config.page.bits config.page.n config.page.m config.page.table time
          config.page.cachedPairs :=
    Checker.result_of_empty config.page (checker config) hb rfl time
  rw [answer, Page.completion]
  simp only [terminal, pure_bind, Checker.executeTimed_stopped hb, hresult]
  cases htrue : Outcome.ofTriangle config.page.bits config.page.n config.page.m with
  | error e => rfl
  | ok v =>
      obtain ⟨-, hn, hfits⟩ := Outcome.exists_ofTriangle_eq_ok_iff.1 ⟨v, htrue⟩
      have hshown := Report.shown_exact config.page time hn hfits
      exact congrArg (fun text => pure (Completion.finished text)) hshown

/-- Once the configuration is known, a run shows its page. -/
theorem runArguments_of_config {args : Arguments} {config : Config} {console : Console}
    {s : Recording} (hconfig : Config.resolve Console.ask args s.console = (.ok config, console)) :
    runArguments (terminal time) args s =
      (config.page.completion time, { console, log := s.log ++ config.notices }) := by
  rw [runArguments]
  simp only [bind_apply, resolve_terminal, hconfig, forM_note, answer_eq]
  rfl

/-- A command line is read before anything else happens. -/
theorem transcript_of_read {words : List String} {args : Arguments}
    (h : CommandLine.read words = .ok args) (input : List UInt8) :
    transcript words input time = transcriptArguments args input time := by
  rw [transcript, run, h]
  rfl

/-- From its arguments on, a run with a configuration ends with exit code 0 exactly if the pair lies
in the triangle and its entry fits. It then has printed its questions and the page; otherwise it
has printed nothing but the questions, and the error line says why. Configurations with the same
page end the same, and so do checkers under any turns. Words that are read as the arguments make
the same run. -/
theorem transcript_page {args : Arguments} {input : List UInt8} {config : Config}
    {console : Console}
    (hconfig : Config.resolve Console.ask args { unread := input } = (.ok config, console)) :
    ((transcriptArguments args input time).completion.exitCode = 0 ↔
      1 ≤ config.m ∧ config.m ≤ config.n ∧
        stirling config.n.toNat config.m.toNat < Word.limit config.width.bits) ∧
    ((transcriptArguments args input time).completion.exitCode = 0 →
      (transcriptArguments args input time).stdout = console.printed ++ config.page.text time) ∧
    ((transcriptArguments args input time).completion.exitCode ≠ 0 →
      (transcriptArguments args input time).completion.exitCode = 1 ∧
      (transcriptArguments args input time).stdout = console.printed ∧
      (transcriptArguments args input time).completion.errorLine = some config.page.errorLine) ∧
    (∀ other : Config, other.page = config.page →
      answer (terminal time) other = answer (terminal time) config) ∧
    (∀ turns, ({ checker config with turns }.execute config.n config.m config.buildsTable).1 =
      ((checker config).execute config.n config.m config.buildsTable).1) ∧
    (∀ words, CommandLine.read words = .ok args →
      transcript words input time = transcriptArguments args input time) := by
  have htranscript : transcriptArguments args input time =
      { completion := config.page.completion time, console, log := config.notices } := by
    rw [transcriptArguments, record, runArguments_of_config time hconfig]
    rfl
  refine ⟨?_, ?_, ?_, ?_, ?_, fun words hwords => transcript_of_read time hwords input⟩
  · rw [htranscript]
    exact config.page.exitCode_completion_eq_zero_iff time
  · intro hzero
    rw [htranscript] at hzero ⊢
    rw [Transcript.stdout, config.page.stdout_completion time hzero]
  · intro hne
    rw [htranscript] at hne ⊢
    obtain ⟨hone, hstdout, herror⟩ := config.page.completion_of_exitCode_ne_zero time hne
    refine ⟨hone, ?_, herror⟩
    rw [Transcript.stdout, hstdout, String.append_empty]
  · intro other hpage
    rw [answer_eq, answer_eq, hpage]
  · intro turns
    have hb := config.width.bits_pos
    rw [Checker.fst_execute hb, Checker.fst_execute hb]
    -- both start with an empty memo
    exact (Checker.result_of_empty config.page { checker config with turns } hb rfl "").trans
      (Checker.result_of_empty config.page (checker config) hb rfl "").symm

/-- The column is asked for, and the input has it. -/
theorem transcript_page_asked :
    (transcript ["4", "-w", "u32"] [51, 10] "7µs").completion.exitCode = 0 ∧
    (transcript ["4", "-w", "u32"] [51, 10] "7µs").stdout =
      "What is value `m`?\n>>> A(4, 3) = 6\n" ++
      "\nCalculating with recursion:\nn=1: 1\nn=2: 1  1\nn=3: 1  3  1\nn=4: 1  7  6\n" ++
      "\nCalculating without recursion:\nn=1: 1\nn=2: 1  1\nn=3: 1  3  1\nn=4: 1  7  6\n" ++
      "\n--- Summary ---\nrecursive engine: 7µs\niterative engine: 7µs\nCached pairs: 3\n" ++
      "Engines agree on 10 values\nElapsed wall-clock time: 7µs\n" := by
  have hwords : CommandLine.read ["4", "-w", "u32"] =
      .ok { n := some 4, width := some .bits32 } := rfl
  have hconfig : Config.resolve Console.ask { n := some 4, width := some .bits32 }
      { unread := [51, 10] } =
        (.ok ⟨4, 3, .bits32, .sharded, none, .row, true, 64, false, false⟩,
          ⟨[], "What is value `m`?\n>>> "⟩) := rfl
  have hpage := transcript_page "7µs" hconfig
  have hread := hpage.2.2.2.2.2 _ hwords
  have hzero := hpage.1.2 (by decide)
  rw [hread]
  refine ⟨hzero, ?_⟩
  rw [hpage.2.1 hzero]
  set_option maxRecDepth 2000 in
  rfl

end Program

end StirlingTriangle
