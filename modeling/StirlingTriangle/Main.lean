import StirlingTriangle.Program
import StirlingTriangle.RunTime

/-!
# Main

The program on the real terminal: questions and results on standard output,
the log and what went wrong on standard error.
-/

namespace StirlingTriangle

/-- Reads bytes up to and including the next line feed, or to the end of the input. -/
partial def readLine (input : IO.FS.Stream) (line : Array UInt8) : IO (List UInt8) := do
  let bytes ← input.read 1
  match bytes.toList with
  | [] => return line.toList
  | byte :: _ =>
    if byte = Console.lineFeed then return (line.push byte).toList
    else readLine input (line.push byte)

/-- The text of the time since a reading of the clock. -/
def elapsedSince (start : Nat) : IO String := do
  return (RunTime.ofNanoseconds ((← IO.monoNanosNow) - start)).text

def stopwatch : Stopwatch IO where
  time work := do
    let start ← IO.monoNanosNow
    let result ← IO.lazyPure work
    return (result, ← elapsedSince start)

def terminal : Terminal IO where
  ask question := do
    let output ← IO.getStdout
    output.putStr question
    output.flush
    readLine (← IO.getStdin) #[]
  note notice := IO.eprintln notice.text
  watch := stopwatch
  start := do return elapsedSince (← IO.monoNanosNow)

end StirlingTriangle

def main (words : List String) : IO UInt32 := do
  let completion ← StirlingTriangle.Program.run StirlingTriangle.terminal words
  IO.print completion.stdout
  if let some line := completion.errorLine then
    IO.eprintln line
  return completion.exitCode.toUInt32
