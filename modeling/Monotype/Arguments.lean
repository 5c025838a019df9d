import Monotype.Check

namespace Monotype

/-!
The arguments of the command.

Options may stand before and after the file.  Every argument that is not
understood is reported, in order.  A lone `-` stands for the standard input; it
also takes back a file named before it.
-/

/-- The options that were given; the others are left to their defaults. -/
structure Choices where
  format : Option Format := none
  evaluate : Option Bool := none
  verbose : Option Bool := none
  comparison : Option Comparison := none
  deriving DecidableEq

namespace Choices

/-- All options, with defaults for those that were not given. -/
def options (choices : Choices) : Options :=
  let defaults : Options := {}
  { format := choices.format.getD defaults.format
    evaluate := choices.evaluate.getD defaults.evaluate
    verbose := choices.verbose.getD defaults.verbose
    comparison := choices.comparison.getD defaults.comparison }

end Choices

namespace Format

def ofText? (name : Text) : Option Format :=
  if name = ("report" : Text) then some report
  else if name = ("json" : Text) then some json
  else if name = ("inline" : Text) then some inline
  else none

end Format

namespace Comparison

def ofText? (name : Text) : Option Comparison :=
  if name = ("int" : Text) then some int
  else if name = ("same" : Text) then some same
  else none

end Comparison

namespace Arguments

/-- Why an argument is not understood. -/
inductive Fault where
  | unknownFormat (name : Text)
  | unknownComparison (name : Text)
  | unknownOption (argument : Text)
  | unexpected (argument : Text)
  deriving DecidableEq

def Fault.message : Fault -> Text
  | unknownFormat name => "Unknown format " ++ Text.quoted name
  | unknownComparison name => "Unknown comparison mode " ++ Text.quoted name
  | unknownOption argument => "Unknown option " ++ Text.quoted argument
  | unexpected argument => "Unexpected argument " ++ Text.quoted argument

end Arguments

/-- What the arguments ask for.  Without a file the program is read from the
standard input. -/
structure Arguments where
  file : Option Text := none
  choices : Choices := {}
  help : Bool := false
  faults : List Arguments.Fault := []
  deriving DecidableEq

namespace Arguments

/-- What one argument says. -/
inductive Item where
  | help
  | evaluate
  | verbose
  | format (name : Text)
  | comparison (name : Text)
  | standardInput
  | unknown (argument : Text)
  | file (name : Text)

/-- Read one argument by itself. -/
def item (argument : Text) : Item :=
  if argument = ("--help" : Text) ∨ argument = ("-h" : Text) then .help
  else if argument = ("--eval" : Text) then .evaluate
  else if argument = ("--verbose" : Text) then .verbose
  else
    match Text.after? "--format=" argument with
    | some name => .format name
    | none =>
        match Text.after? "--comparison=" argument with
        | some name => .comparison name
        | none =>
            if argument = ("-" : Text) then .standardInput
            else if argument.head? = some '-' then .unknown argument
            else .file argument

/-- Report an argument that is not understood. -/
def complain (arguments : Arguments) (fault : Fault) : Arguments :=
  { arguments with faults := arguments.faults ++ [fault] }

/-- Take one more argument into account. -/
def add (arguments : Arguments) (argument : Text) : Arguments :=
  match item argument with
  | .help => { arguments with help := true }
  | .evaluate => { arguments with choices := { arguments.choices with evaluate := some true } }
  | .verbose => { arguments with choices := { arguments.choices with verbose := some true } }
  | .format name =>
      match Format.ofText? name with
      | some format =>
          { arguments with choices := { arguments.choices with format := some format } }
      | none => arguments.complain (.unknownFormat name)
  | .comparison name =>
      match Comparison.ofText? name with
      | some rule =>
          { arguments with choices := { arguments.choices with comparison := some rule } }
      | none => arguments.complain (.unknownComparison name)
  | .standardInput => { arguments with file := none }
  | .unknown argument => arguments.complain (.unknownOption argument)
  | .file name =>
      match arguments.file with
      | none => { arguments with file := some name }
      | some _ => arguments.complain (.unexpected name)

/-- Read all arguments from left to right. -/
def parse (argv : List Text) : Arguments :=
  argv.foldl add {}

def usage : Text :=
  Text.unlines [
    "Usage: npm run infer -- [file] [options]",
    "",
    "Reads the program from [file], or from stdin when no file is given.",
    "",
    "Options:",
    "  --format=report   Program type and one line per let binder (default)",
    "  --format=json     Machine-readable JSON output",
    "  --format=inline   Source code with inline type comments",
    "  --comparison=int  Operands of < <= > >= must be int (default)",
    "  --comparison=same Operands of < <= > >= must share a type, like =",
    "  --eval            Evaluate the program after it type-checks",
    "  --verbose         Print constraints and equivalence classes on stderr",
    "  --help            Show this message"]

end Arguments

end Monotype
