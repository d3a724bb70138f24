import StirlingTriangle.Arguments
import StirlingTriangle.Text.Numeral

/-!
# CommandLine

Reading a list of words as `Arguments`, from left to right.

* `--name value`, `--name=value`, `-x value`, `-xvalue` and `-x=value` give a
  setting its value; switches may share one dash;
* `--` makes every word after it an index;
* a dash and a number, such as `-5`, is a value as long as an index is still
  to come;
* any other word is the value that a setting waits for, or else the next
  index.

An argument is *open* from where it is met until the next one is met. Only
then is it settled: refused if its value is missing, if it was given before,
or if its value cannot be read. What cannot be understood at all (an unknown
option, one index too many, a value for a switch) is refused on the spot, and
so before the argument that is open. The first refusal ends the reading; that
`--quiet` and `--verbose` exclude each other is checked last.
-/

namespace StirlingTriangle.CommandLine

/-! ## What can be given -/

/-- An argument that has a value: an index or a setting. -/
inductive Target where
  | n
  | m
  | width
  | backend
  | threads
  | parallelizeBy
  | maxTableRows
deriving DecidableEq, Repr

/-- An argument that has none. -/
inductive Switch where
  | noTable
  | quiet
  | verbose
  | help
  | version
deriving DecidableEq, Repr

/-- What an option names. -/
inductive Key where
  | setting (target : Target)
  | switch (switch : Switch)
deriving DecidableEq, Repr

def Target.text : Target → String
  | n => "[N]"
  | m => "[M]"
  | width => "--width"
  | backend => "--backend"
  | threads => "--threads"
  | parallelizeBy => "--parallelize-by"
  | maxTableRows => "--max-table-rows"

def Switch.text : Switch → String
  | noTable => "--no-table"
  | quiet => "--quiet"
  | verbose => "--verbose"
  | help => "--help"
  | version => "--version"

/-- The option with a long name, given without its dashes. -/
def Key.ofLong? : String → Option Key
  | "width" => some (.setting .width)
  | "backend" => some (.setting .backend)
  | "threads" => some (.setting .threads)
  | "parallelize-by" => some (.setting .parallelizeBy)
  | "max-table-rows" => some (.setting .maxTableRows)
  | "no-table" => some (.switch .noTable)
  | "quiet" => some (.switch .quiet)
  | "verbose" => some (.switch .verbose)
  | "help" => some (.switch .help)
  | "version" => some (.switch .version)
  | _ => none

/-- The option with a name of one letter. -/
def Key.ofShort? : Char → Option Key
  | 'w' => some (.setting .width)
  | 'b' => some (.setting .backend)
  | 'q' => some (.switch .quiet)
  | 'v' => some (.switch .verbose)
  | 'h' => some (.switch .help)
  | 'V' => some (.switch .version)
  | _ => none

/-! ## Refusals -/

inductive Refusal where
  | unknown (word : String)
  | missingValue (target : Target)
  /-- The value is none of those that the setting has. -/
  | badChoice (target : Target) (value : String)
  /-- The value is no number, or out of range. -/
  | badNumber (target : Target) (value : String)
  | unwantedValue (switch : Switch)
  | repeatedTarget (target : Target)
  | repeatedSwitch (switch : Switch)
  | quietAndVerbose
deriving DecidableEq, Repr

def Refusal.message : Refusal → String
  | unknown word => s!"unexpected argument '{word}' found"
  | missingValue target => s!"a value is required for '{target.text}' but none was supplied"
  | badChoice target value => s!"invalid value '{value}' for '{target.text}'"
  | badNumber target value => s!"invalid value '{value}' for '{target.text}'"
  | unwantedValue switch => s!"no value is allowed for '{switch.text}'"
  | repeatedTarget target => s!"the argument '{target.text}' cannot be used multiple times"
  | repeatedSwitch switch => s!"the argument '{switch.text}' cannot be used multiple times"
  | quietAndVerbose => "the argument '--quiet' cannot be used with '--verbose'"

/-- Why reading ends without arguments. -/
inductive Stop where
  | refused (refusal : Refusal)
  | help
  | version
deriving DecidableEq, Repr

/-! ## Storing -/

/-- Puts in a value that was read, or refuses one that was not. -/
def put {α : Type} (refusal : Refusal) (value : Option α) (store : α → Arguments) :
    Except Stop Arguments :=
  match value with
  | some value => .ok (store value)
  | none => .error (.refused refusal)

/-- Refuses an argument that was given before. -/
def once {α : Type} (refusal : Refusal) (given : Option α) : Except Stop Unit :=
  if given.isSome then .error (.refused refusal) else .ok ()

/-- Reads a value and stores it. -/
def store (args : Arguments) (target : Target) (value : String) : Except Stop Arguments := do
  let repeated := Refusal.repeatedTarget target
  let badNumber := Refusal.badNumber target value
  let badChoice := Refusal.badChoice target value
  match target with
  | .n =>
    once repeated args.n
    put badNumber (Numeral.int64? value.toList) fun k => { args with n := some k }
  | .m =>
    once repeated args.m
    put badNumber (Numeral.int64? value.toList) fun k => { args with m := some k }
  | .width =>
    once repeated args.width
    put badChoice (Width.ofText? value) fun w => { args with width := some w }
  | .backend =>
    once repeated args.backend
    put badChoice (Backend.ofText? value) fun x => { args with backend := some x }
  | .threads =>
    once repeated args.threads
    put badNumber (Numeral.unsigned? 18446744073709551615 value.toList) fun k =>
      { args with threads := some k }
  | .parallelizeBy =>
    once repeated args.parallelizeBy
    put badChoice (ParallelizeBy.ofText? value) fun x => { args with parallelizeBy := some x }
  | .maxTableRows =>
    once repeated args.maxTableRows
    put badNumber (Numeral.signed? 0 4294967295 value.toList) fun k =>
      { args with maxTableRows := some k.toNat }

/-- Turns a switch on; help and version end the reading. -/
def raise (args : Arguments) (switch : Switch) : Except Stop Arguments :=
  let repeated : Except Stop Arguments := .error (.refused (.repeatedSwitch switch))
  match switch with
  | .help => .error .help
  | .version => .error .version
  | .noTable => if args.noTable then repeated else .ok { args with noTable := true }
  | .quiet => if args.quiet then repeated else .ok { args with quiet := true }
  | .verbose => if args.verbose then repeated else .ok { args with verbose := true }

/-! ## The reading so far -/

structure Reading where
  args : Arguments := {}
  /-- The argument that is open, with its value if it has been met. -/
  opened : Option (Target × Option String) := none
  /-- How many indices have been met. -/
  indices : Nat := 0
  /-- The word `--` has been met. -/
  indicesOnly : Bool := false

namespace Reading

/-- Reads the value of the argument that is open. -/
def settle (r : Reading) : Except Stop Reading :=
  match r.opened with
  | none => .ok r
  | some (target, none) => .error (.refused (.missingValue target))
  | some (target, some value) => do
    let args ← store r.args target value
    return { r with args, opened := none }

/-- The word is the next index. -/
def index (r : Reading) (word : String) : Except Stop Reading := do
  let target ← match r.indices with
    | 0 => .ok Target.n
    | 1 => .ok Target.m
    | _ => .error (.refused (.unknown word))
  let r ← r.settle
  return { r with opened := some (target, some word), indices := r.indices + 1 }

/-- The word is the value that a setting waits for, or else the next index. -/
def value (r : Reading) (word : String) : Except Stop Reading :=
  match r.opened with
  | some (target, none) => .ok { r with opened := some (target, some word) }
  | _ => r.index word

/-- A setting with its value, or one that waits for it. -/
def setting (r : Reading) (target : Target) (attached : Option String) : Except Stop Reading := do
  let r ← r.settle
  match attached with
  | some value =>
    let args ← store r.args target value
    return { r with args }
  | none => return { r with opened := some (target, none) }

def switch (r : Reading) (s : Switch) : Except Stop Reading := do
  let r ← r.settle
  let args ← raise r.args s
  return { r with args }

/-- A word with two dashes, which are not part of `body`. -/
def long (r : Reading) (word : String) (body : List Char) : Except Stop Reading :=
  let name := String.ofList (body.takeWhile (· ≠ '='))
  let attached := match body.dropWhile (· ≠ '=') with
    | '=' :: value => some (String.ofList value)
    | _ => none
  match Key.ofLong? name with
  | none => .error (.refused (.unknown word))
  | some (.setting target) => r.setting target attached
  | some (.switch s) => if attached.isSome then .error (.refused (.unwantedValue s)) else r.switch s

/-- The letters after one dash: switches, or a setting with the rest as its value. -/
def cluster (r : Reading) (word : String) : List Char → Except Stop Reading
  | [] => .ok r
  | letter :: rest =>
    match Key.ofShort? letter with
    | none => .error (.refused (.unknown word))
    | some (.switch s) => do
      let r ← r.switch s
      r.cluster word rest
    | some (.setting target) =>
      r.setting target <| match rest with
        | [] => none
        | '=' :: value => some (String.ofList value)
        | value => some (String.ofList value)

/-- Digits, perhaps a point after them, more digits, and perhaps an exponent. -/
def isNumber (body : List Char) : Bool :=
  let digits := body.takeWhile Char.isDigit
  let rest := match body.dropWhile Char.isDigit with
    | '.' :: rest => rest.dropWhile Char.isDigit
    | rest => rest
  !digits.isEmpty && match rest with
    | [] => true
    | c :: exponent => (c == 'e' || c == 'E') && !exponent.isEmpty && exponent.all Char.isDigit

def word (r : Reading) (word : String) : Except Stop Reading :=
  if r.indicesOnly then r.index word
  else match word.toList with
    | ['-', '-'] => .ok { r with indicesOnly := true }
    | '-' :: '-' :: body => r.long word body
    | '-' :: letter :: rest =>
      if r.indices < 2 && isNumber (letter :: rest) then r.value word
      else r.cluster word (letter :: rest)
    | _ => r.value word

end Reading

/-- The arguments that the words give. -/
def read (words : List String) : Except Stop Arguments := do
  let r ← words.foldlM Reading.word {}
  let r ← r.settle
  if r.args.quiet && r.args.verbose then throw (.refused .quietAndVerbose)
  return r.args

end StirlingTriangle.CommandLine
