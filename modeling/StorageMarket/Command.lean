import StorageMarket.Decimal

/-!
# The command line

    replay --input FILE [--step-seconds N]
    follow --input FILE [--poll-interval-seconds N] [--finality-lag-seconds N]
    --version

`replay` runs through a recording in steps and prints the resulting state; `follow`
keeps up with a recording as the clock goes on. A value follows its option as the
next argument or after an equals sign, and each option may be given once. Numbers
have at most 64 bits. Whoever asks for the version first gets it, whatever follows.
-/

namespace StorageMarket

inductive Command where
  | version
  | replay (input : String) (stepSeconds : Nat)
  | follow (input : String) (intervalSeconds lagSeconds : Nat)
deriving DecidableEq

namespace Command

/-- Whether an argument asks for the version, by name or by letter. What follows the letter is not
looked at. -/
def asksVersion (argument : String) : Bool :=
  argument = "--version" || ['-', 'V'].isPrefixOf argument.toList

/-! ## Options -/

structure Options where
  /-- The path of the recording. -/
  input : Option String
  /-- The numbers, by the names of their options. -/
  numbers : List (String × Nat)

namespace Options

def empty : Options := ⟨none, []⟩

/-- One more option, if there is an option of this name, it is not given yet, and the value is of
its kind. Besides the path there are the numbers of the given names. -/
def add? (options : Options) (names : List String) (name value : String) : Option Options :=
  if name = "--input" then
    if options.input.isNone && !value.isEmpty then some { options with input := some value }
    else none
  else if names.contains name && (options.numbers.lookup name).isNone then
    match Decimal.read UInt64.size (by decide) value.toList with
    | .ok n => some { options with numbers := (name, n) :: options.numbers }
    | .error _ => none
  else none

def number (options : Options) (name : String) (default : Nat) : Nat :=
  (options.numbers.lookup name).getD default

end Options

/-- Whether an argument may be the value of the option before it. -/
def isValue (argument : String) : Bool :=
  argument = "-" || argument.toList.head? ≠ some '-'

/-- Splits an argument at its first equals sign. -/
def splitValue (argument : String) : String × Option String :=
  let cs := argument.toList
  let name := cs.takeWhile fun c => c ≠ '='
  match cs.dropWhile fun c => c ≠ '=' with
  | [] => (argument, none)
  | _ :: value => (String.ofList name, some (String.ofList value))

/-- Reads the arguments of a command that takes the numbers of the given names. A lone pair of
dashes ends them, and nothing may follow it. -/
def readOptions (names : List String) : List String → Options → Option Options
  | [], options => some options
  | ["--"], options => some options
  | argument :: rest, options =>
      let (name, value) := splitValue argument
      match value, rest with
      | some value, rest =>
          (options.add? names name value).bind fun options => readOptions names rest options
      | none, value :: rest =>
          if isValue value then
            (options.add? names name value).bind fun options => readOptions names rest options
          else none
      | none, [] => none

/-! ## Commands -/

def ofArguments : List String → Option Command
  | "replay" :: arguments => do
      let options ← readOptions ["--step-seconds"] arguments .empty
      let input ← options.input
      return .replay input (options.number "--step-seconds" 60)
  | "follow" :: arguments => do
      let options ← readOptions ["--poll-interval-seconds", "--finality-lag-seconds"]
        arguments .empty
      let input ← options.input
      return .follow input (options.number "--poll-interval-seconds" 10)
        (options.number "--finality-lag-seconds" 60)
  | argument :: _ => if asksVersion argument then some .version else none
  | [] => none

example : ofArguments ["replay", "--step-seconds=5", "--input", "a"] = some (.replay "a" 5) := by
  decide +kernel
example : ofArguments ["replay"] = none := by decide +kernel
example : ofArguments ["replay", "--input", "a", "--step-seconds", "-1"] = none := by
  decide +kernel

end Command

end StorageMarket
