import Monotype.Arguments
import Monotype.FileTree

namespace Monotype
namespace CommandLine

/-!
The command as a function of its arguments and of what it reads.

The arguments are looked at first: a request for help is answered whatever else
they say, and an argument that is not understood ends the command.  Otherwise
the program is read and checked.
-/

/-- What the arguments lead to: an answer at once, or a check of a file or of
the standard input. -/
inductive Request where
  | answer (output : Output)
  | check (file : Option Text) (choices : Choices)

def complaint (fault : Arguments.Fault) : Text :=
  "Error: " ++ fault.message

/-- What the arguments lead to. -/
def request (argv : List Text) : Request :=
  let arguments := Arguments.parse argv
  if arguments.help then .answer { stdout := [Arguments.usage] }
  else if arguments.faults = [] then .check arguments.file arguments.choices
  else
    .answer {
      stderr := arguments.faults.map complaint ++ [[], Arguments.usage]
      exitCode := 2 }

def unreadable (path : Path) (fault : ReadFault) : Output where
  stderr := ["Error: Could not read " ++ path.text ++ ": " ++ fault.message path]
  exitCode := 2

def checked (file : Option Text) (choices : Choices) (source : Text) : Output :=
  let heading :=
    if choices.verbose = some true then ["Checking " ++ file.getD "stdin" ++ "..."] else []
  match Check.run source choices.options with
  | .ok output => { output with stderr := heading ++ output.stderr }
  | .error failure => { stderr := heading ++ [failure.message], exitCode := 1 }

/-- Run the command on files that are given as data. -/
def run (tree : FileTree) (standardInput : Text) (argv : List Text) : Output :=
  match request argv with
  | .answer output => output
  | .check none choices => checked none choices standardInput
  | .check (some file) choices =>
      let path := tree.directory.resolve file
      match tree.read path with
      | .ok source => checked (some file) choices source
      | .error fault => unreadable path fault

/-- Lines as they are written to a stream, each with a line feed behind it. -/
def written (lines : List Text) : Text :=
  lines.flatMap (fun line => line ++ ("\n" : Text))

end CommandLine
end Monotype
