import StirlingTriangle.Triangle

/-!
# Arguments

What a command line may say: the two indices, the width of the integers, the
store, the number of threads, how the work is divided, and what is shown. Each
is present at most once and absent unless given.
-/

namespace StirlingTriangle

/-- The width of the integers. -/
inductive Width where
  | bits32
  | bits64
  | bits128
deriving DecidableEq, Repr

/-- How the memo is kept. The answers do not depend on it. -/
inductive Backend where
  /-- In shards, each with a lock of its own. -/
  | sharded
  /-- In one piece behind one lock. -/
  | locked
deriving DecidableEq, Repr

namespace Width

def bits : Width → Nat
  | bits32 => 32
  | bits64 => 64
  | bits128 => 128

def text : Width → String
  | bits32 => "u32"
  | bits64 => "u64"
  | bits128 => "u128"

def ofText? (s : String) : Option Width := [bits32, bits64, bits128].find? (·.text == s)

end Width

namespace Backend

def text : Backend → String
  | sharded => "dashmap"
  | locked => "rwlock"

def ofText? (s : String) : Option Backend := [sharded, locked].find? (·.text == s)

end Backend

namespace ParallelizeBy

def text : ParallelizeBy → String
  | sequential => "sequential"
  | row => "row"
  | cell => "cell"

def ofText? (s : String) : Option ParallelizeBy := [sequential, row, cell].find? (·.text == s)

end ParallelizeBy

structure Arguments where
  n : Option Int := none
  m : Option Int := none
  width : Option Width := none
  backend : Option Backend := none
  threads : Option Nat := none
  parallelizeBy : Option ParallelizeBy := none
  maxTableRows : Option Nat := none
  noTable : Bool := false
  quiet : Bool := false
  verbose : Bool := false
deriving DecidableEq, Repr

end StirlingTriangle
