import Straightline.Source.Decimal

/-!
# Arguments of the command line

One or more inputs, and options by long or short names. The value of an option is the next argument,
or follows the name after `=`; a short name may be followed by its value at once, and short options
without a value may be written together. After `--` everything is an input, as is a lone `-`.

A value that follows is only looked at when the next option or input comes, or at the end. So an
option that does not exist is told before a bad value in front of it, and every other fault in the
order of the arguments. An argument that begins with `-` is never taken as a value.
-/

set_option autoImplicit false

namespace Straightline.CommandLine

/-- Why arguments are refused, or that they ask for something else than to compile. -/
inductive UsageError where
  | missingRequired
  | invalidValue
  | unknownArgument
  | valueValidation
  | argumentConflict
  | tooManyValues
  | help
  | version
deriving DecidableEq, Repr

/-- The options that take a value. Each may be given once. -/
inductive Setting where
  | output
  | emit
  | name
  | stackPages
  | run
deriving DecidableEq, Repr

/-- What an option is. -/
inductive OptionKind where
  | setting (setting : Setting)
  | verbose
  | help
  | version
deriving DecidableEq, Repr

namespace OptionKind

def ofLong? (name : String) : Option OptionKind :=
  [("output", setting .output), ("emit", setting .emit), ("name", setting .name),
    ("stack-pages", setting .stackPages), ("run", setting .run), ("verbose", verbose),
    ("help", help), ("version", version)].lookup name

def ofShort? (letter : Char) : Option OptionKind :=
  [('o', setting .output), ('v', verbose), ('h', help), ('V', version)].lookup letter

end OptionKind

/-- What a run of the program is asked to do. -/
structure Invocation where
  inputs : List String
  output : String
  format : String
  name : String
  stackPages : Nat
  run : Option String
  /-- How often more detail was asked for. -/
  verbosity : Nat
deriving DecidableEq, Repr

/-- Values that have been read and not yet been looked at. -/
inductive Waiting where
  | value (setting : Setting) (given : Option String)
  | inputs (given : List String)
deriving DecidableEq, Repr

/-- The arguments taken so far. -/
structure Taken where
  inputs : List String := []
  settings : List (Setting × String) := []
  stackPages : Option Nat := none
  verbosity : Nat := 0
  waiting : Option Waiting := none
  /-- Whether `--` has been met. -/
  escaped : Bool := false
deriving DecidableEq, Repr

/-- A number of pages: below 2^32, perhaps after a plus sign; after a minus sign, zero only. -/
def pages? (text : String) : Option Nat :=
  match text.toList with
  | '-' :: digits => (Decimal.ofDigits? digits).filter (· = 0)
  | '+' :: digits => (Decimal.ofDigits? digits).filter (· < UInt32.size)
  | digits => (Decimal.ofDigits? digits).filter (· < UInt32.size)

namespace Taken

/-- Takes the value of an option. A path may not be empty, and pages are a number. -/
def assign (t : Taken) (setting : Setting) (value : String) : Except UsageError Taken := do
  if (t.settings.lookup setting).isSome then throw .argumentConflict
  let t := { t with settings := t.settings ++ [(setting, value)] }
  match setting with
  | .output => if value.isEmpty then throw .invalidValue else return t
  | .stackPages =>
    match pages? value with
    | some n => return { t with stackPages := some n }
    | none => throw .valueValidation
  | .emit | .name | .run => return t

/-- Looks at the values that are waiting. -/
def settle (t : Taken) : Except UsageError Taken :=
  let rest := { t with waiting := none }
  match t.waiting with
  | none => .ok rest
  | some (.value _ none) => .error .invalidValue
  | some (.value setting (some value)) => rest.assign setting value
  | some (.inputs given) =>
    if given.any String.isEmpty then .error .invalidValue
    else .ok { rest with inputs := t.inputs ++ given }

/-- Takes an input. -/
def input (t : Taken) (value : String) : Except UsageError Taken :=
  match t.waiting with
  | some (.inputs given) => .ok { t with waiting := some (.inputs (given ++ [value])) }
  | _ => do
    let t ← t.settle
    return { t with waiting := some (.inputs [value]) }

/-- Takes an argument that is neither an option nor the end of the options: the value of the option
before it, or an input. -/
def plain (t : Taken) (value : String) : Except UsageError Taken :=
  match t.waiting with
  | some (.value setting none) => .ok { t with waiting := some (.value setting (some value)) }
  | _ => t.input value

/-- Takes an option without a value. -/
def flag (t : Taken) (kind : OptionKind) : Except UsageError Taken := do
  let t ← t.settle
  match kind with
  | .verbose => return { t with verbosity := t.verbosity + 1 }
  | .help => throw .help
  | .version => throw .version
  | .setting _ => return t

/-- Takes an option with its value, or without if that is still to come. -/
def option (t : Taken) (setting : Setting) (value : Option String) : Except UsageError Taken := do
  let t ← t.settle
  match value with
  | some value => t.assign setting value
  | none => return { t with waiting := some (.value setting none) }

/-- Takes `--name` or `--name=value`, given what stands after the dashes. -/
def long (t : Taken) (text : List Char) : Except UsageError Taken :=
  let name := String.ofList (text.takeWhile (· ≠ '='))
  let value :=
    match text.dropWhile (· ≠ '=') with
    | [] => none
    | _ :: value => some (String.ofList value)
  match OptionKind.ofLong? name with
  | none => .error .unknownArgument
  | some (.setting setting) => t.option setting value
  | some kind => if value.isSome then .error .tooManyValues else t.flag kind

/-- Takes the letters after a single dash. -/
def short (t : Taken) : List Char → Except UsageError Taken
  | [] => .ok t
  | letter :: rest =>
    match OptionKind.ofShort? letter with
    | none => .error .unknownArgument
    | some (.setting setting) =>
      t.option setting <|
        match rest with
        | [] => none
        | '=' :: value => some (String.ofList value)
        | value => some (String.ofList value)
    | some kind => do
      let t ← t.flag kind
      t.short rest

/-- Takes one argument. -/
def argument (t : Taken) (arg : String) : Except UsageError Taken :=
  if t.escaped then t.input arg
  else
    match arg.toList with
    | ['-', '-'] => .ok { t with escaped := true }
    | '-' :: '-' :: text => t.long text
    | ['-'] => t.plain arg
    | '-' :: letters => t.short letters
    | _ => t.plain arg

/-- What all arguments together ask for. -/
def invocation (t : Taken) : Except UsageError Invocation :=
  match t.inputs, t.settings.lookup .output with
  | [], _ | _, none => .error .missingRequired
  | inputs, some output =>
    .ok {
      inputs
      output
      format := (t.settings.lookup .emit).getD "wasm"
      name := (t.settings.lookup .name).getD "main"
      stackPages := t.stackPages.getD 16
      run := t.settings.lookup .run
      verbosity := t.verbosity }

end Taken

/-- Reads the arguments after the program's name. -/
def parse (args : List String) : Except UsageError Invocation := do
  let taken ← args.foldlM Taken.argument {}
  let taken ← taken.settle
  taken.invocation

end Straightline.CommandLine
