import StirlingTriangle.CommandLine
import StirlingTriangle.Config
import StirlingTriangle.CrossCheck

/-!
# Program

A run of the program from the words of its command line to what it prints and
its exit code. Everything that a run does besides computing goes through a
`Terminal`: asking for an index, leaving a notice in the log, and measuring
time. `Program.run` is the run on any terminal, and `Program.transcript` the
one on a console with a known input, where nothing takes any time. From the
arguments on they are `Program.runArguments` and `Program.transcriptArguments`.

A run that fails prints nothing but its questions.
-/

namespace StirlingTriangle

/-! ## The log -/

/-- A line of the log. -/
inductive Notice where
  | configurationResolved (config : Config)
  /-- The triangles have more rows than the limit allows. -/
  | tableSkipped (n : Int) (maxTableRows : Nat)
deriving DecidableEq

def Notice.text : Notice → String
  | configurationResolved config =>
    s!"DEBUG configuration resolved n={config.n} m={config.m} width={config.width.text} " ++
      s!"backend={config.backend.text} parallelize_by={config.parallelizeBy.text}"
  | tableSkipped n maxTableRows =>
    "WARN triangles skipped past the row limit; raise --max-table-rows to print them " ++
      s!"n={n} max_table_rows={maxTableRows}"

/-- The notices of a run, as far as its log level lets them through. -/
def Config.notices (config : Config) : List Notice :=
  let resolved := if config.logLevel = some .debug then [.configurationResolved config] else []
  let skipped := if config.tableExceedsLimit && config.logLevel ≠ some .error
    then [.tableSkipped config.n config.maxTableRows] else []
  resolved ++ skipped

/-! ## How a run ends -/

inductive Completion where
  | refused (refusal : CommandLine.Refusal)
  | help
  | version
  | failed (failure : Failure)
  | finished (text : String)
deriving DecidableEq

namespace Completion

def exitCode : Completion → Nat
  | refused _ => 2
  | failed _ => 1
  | help | version | finished _ => 0

def versionText : String := "recurrence 0.1.0\n"

def helpText : String :=
  "Evaluate A(n, m) = A(n-1, m-1) + m*A(n-1, m) with both engines and cross-check them\n\n" ++
  "Usage: recurrence [OPTIONS] [N] [M]\n\n" ++
  "Arguments:\n" ++
  "  [N]  Row index n (prompted for if omitted)\n" ++
  "  [M]  Column index m (prompted for if omitted)\n\n" ++
  "Options:\n" ++
  "  -w, --width <WIDTH>                    Integer width: u32, u64 or u128 [default: u64]\n" ++
  "  -b, --backend <BACKEND>                Memo cache backend: dashmap or rwlock " ++
    "[default: dashmap]\n" ++
  "      --threads <THREADS>                Number of threads for parallel execution\n" ++
  "      --parallelize-by <PARALLELIZE_BY>  Parallelization level: sequential, row, or cell " ++
    "[default: row]\n" ++
  "      --no-table                         Only evaluate A(n, m); skip the triangles\n" ++
  "      --max-table-rows <MAX_TABLE_ROWS>  Largest n for which the triangles are computed " ++
    "[default: 64]\n" ++
  "  -q, --quiet                            Quiet mode - only output the value\n" ++
  "  -v, --verbose                          Verbose mode - debug logging on stderr\n" ++
  "  -h, --help                             Print help\n" ++
  "  -V, --version                          Print version\n"

/-- What is printed at the end. -/
def stdout : Completion → String
  | help => helpText
  | version => versionText
  | finished text => text
  | refused _ | failed _ => ""

/-- The line that says what went wrong. -/
def errorLine : Completion → Option String
  | refused refusal => some ("error: " ++ refusal.message)
  | failed failure => some ("Error: " ++ failure.message)
  | help | version | finished _ => none

end Completion

/-! ## The run -/

structure Terminal (μ : Type → Type) where
  /-- Prints a question and reads a line. -/
  ask : String → μ (List UInt8)
  note : Notice → μ Unit
  watch : Stopwatch μ
  /-- Starts measuring; what it gives back tells the time since then. -/
  start : μ (μ String)

namespace Program

/-- The turns that a job gets in the rotation before it runs to its end. -/
def rounds : Nat := 16

/-- What a run with this configuration works with. -/
def checker (config : Config) : Checker config.width.bits where
  parallelizeBy := config.parallelizeBy
  turns := Pool.rotation (config.threads.getD 1) rounds

/-- The result for a configuration. -/
def answer {μ : Type → Type} [Monad μ] (terminal : Terminal μ) (config : Config) :
    μ Completion := do
  let elapsed ← terminal.start
  let (result, _) ←
    (checker config).executeTimed terminal.watch config.n config.m config.buildsTable
  match result with
  | .error failure => return .failed failure
  | .ok report => return .finished (report.shown config.quiet (← elapsed))

/-- A run once its command line has been read. -/
def runArguments {μ : Type → Type} [Monad μ] (terminal : Terminal μ) (args : Arguments) :
    μ Completion := do
  match ← Config.resolve terminal.ask args with
  | .error fault => return .failed fault.failure
  | .ok config =>
    config.notices.forM terminal.note
    answer terminal config

def run {μ : Type → Type} [Monad μ] (terminal : Terminal μ) (words : List String) :
    μ Completion :=
  match CommandLine.read words with
  | .error (.refused refusal) => return .refused refusal
  | .error .help => return .help
  | .error .version => return .version
  | .ok args => runArguments terminal args

/-! ## The run on a console -/

/-- The console of a run, and its log. -/
structure Recording where
  console : Console
  log : List Notice := []

/-- A terminal on a console, where every time reads the same. -/
def terminal (time : String) : Terminal (StateM Recording) where
  ask question := fun s =>
    let (line, console) := Console.ask question s.console
    (line, { s with console })
  note notice := fun s => ((), { s with log := s.log ++ [notice] })
  watch := .stopped time
  start := pure (pure time)

/-- What a run leaves behind. -/
structure Transcript where
  completion : Completion
  console : Console
  log : List Notice

/-- What a run on this input leaves behind. -/
def record (run : StateM Recording Completion) (input : List UInt8) : Transcript :=
  let (completion, recording) := run { console := { unread := input } }
  { completion, console := recording.console, log := recording.log }

def transcriptArguments (args : Arguments) (input : List UInt8) (time : String) : Transcript :=
  record (runArguments (terminal time) args) input

def transcript (words : List String) (input : List UInt8) (time : String) : Transcript :=
  record (run (terminal time) words) input

/-- Everything printed to standard output. -/
def Transcript.stdout (t : Transcript) : String := t.console.printed ++ t.completion.stdout

end Program

end StirlingTriangle
