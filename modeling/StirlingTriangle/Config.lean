import StirlingTriangle.Arguments
import StirlingTriangle.Outcome
import StirlingTriangle.Text.Numeral

/-!
# Config

The arguments of a run once everything is known: indices that the command
line leaves out are asked for, first the row and then the column, one line of
input each, and what else it leaves out has its default.

A line gives an index if its bytes are UTF-8 and what is left of it between
blanks is a signed integer of 64 bits. A number of threads of 0 is refused,
but only once both indices are known.

A `Console` is what a program shows and reads when nobody watches: the input
is a list of bytes that is known from the start, and everything printed is
kept. A line of the input is everything up to and including the next line
feed, or what is left if there is none.
-/

namespace StirlingTriangle

/-! ## The console -/

structure Console where
  /-- The input that has not been read. -/
  unread : List UInt8
  printed : String := ""
deriving DecidableEq, Repr

namespace Console

def lineFeed : UInt8 := 10

/-- The next line of the input, and what follows it. -/
def splitLine (input : List UInt8) : List UInt8 × List UInt8 :=
  let line := input.takeWhile (· ≠ lineFeed)
  match input.dropWhile (· ≠ lineFeed) with
  | feed :: rest => (line ++ [feed], rest)
  | [] => (line, [])

/-- Prints a question and reads a line. -/
def ask (question : String) : StateM Console (List UInt8) := fun console =>
  let (line, rest) := splitLine console.unread
  (line, { unread := rest, printed := console.printed ++ question })

end Console

/-! ## The configuration -/

structure Config where
  n : Int
  m : Int
  width : Width
  backend : Backend
  /-- Absent if the number is left to the machine. -/
  threads : Option Nat
  parallelizeBy : ParallelizeBy
  /-- The triangles are asked for. -/
  table : Bool
  /-- The last row for which they are built. -/
  maxTableRows : Nat
  quiet : Bool
  verbose : Bool
deriving DecidableEq, Repr

/-- How much a run says about itself. -/
inductive LogLevel where
  | error
  | debug
deriving DecidableEq, Repr

namespace Config

/-! ## Asking for an index -/

inductive Index where
  | row
  | column
deriving DecidableEq, Repr

def Index.text : Index → String
  | row => "n"
  | column => "m"

def Index.question (index : Index) : String := s!"What is value `{index.text}`?\n>>> "

/-- Why a configuration is not usable. -/
inductive Fault where
  | noValue (index : Index)
  | notUtf8
  | notInteger (index : Index)
  | noThreads
deriving DecidableEq, Repr

def Fault.failure : Fault → Failure
  | noValue index => .configuration s!"No value given for `{index.text}`"
  | notUtf8 => .reading "stream did not contain valid UTF-8"
  | notInteger index => .configuration s!"Invalid `{index.text}`: must be an integer"
  | noThreads => .configuration "Thread count must be at least 1"

/-- The index that a line of input gives; the line is empty only at the end of the input. -/
def Index.ofLine (index : Index) (line : List UInt8) : Except Fault Int :=
  if line.isEmpty then .error (.noValue index)
  else match String.fromUTF8? ⟨line.toArray⟩ with
    | none => .error .notUtf8
    | some text =>
      match Numeral.int64? (Blank.trim text.toList) with
      | some value => .ok value
      | none => .error (.notInteger index)

/-- The index as given, or as asked for. -/
def Index.resolve {μ : Type → Type} [Monad μ] (ask : String → μ (List UInt8)) (index : Index) :
    Option Int → μ (Except Fault Int)
  | some value => return .ok value
  | none => return index.ofLine (← ask index.question)

/-! ## Resolving -/

/-- The configuration of two indices, with defaults for what the arguments leave out. -/
def ofArguments (args : Arguments) (n m : Int) : Except Fault Config :=
  if args.threads = some 0 then .error .noThreads
  else .ok {
    n, m
    width := args.width.getD .bits64
    backend := args.backend.getD .sharded
    threads := args.threads
    parallelizeBy := args.parallelizeBy.getD .row
    table := !args.noTable
    maxTableRows := args.maxTableRows.getD 64
    quiet := args.quiet
    verbose := args.verbose }

/-- Asks for what is missing. -/
def resolve {μ : Type → Type} [Monad μ] (ask : String → μ (List UInt8)) (args : Arguments) :
    μ (Except Fault Config) := do
  match ← Index.row.resolve ask args.n with
  | .error fault => return .error fault
  | .ok n =>
    match ← Index.column.resolve ask args.m with
    | .error fault => return .error fault
    | .ok m => return ofArguments args n m

/-! ## What follows from it -/

def buildsTable (config : Config) : Bool := config.table && config.n ≤ config.maxTableRows

/-- The triangles are asked for, but have too many rows. -/
def tableExceedsLimit (config : Config) : Bool := config.table && !config.buildsTable

def logLevel (config : Config) : Option LogLevel :=
  if config.quiet then some .error else if config.verbose then some .debug else none

end Config

end StirlingTriangle
