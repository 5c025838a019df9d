import Monotype.CommandLine

namespace Monotype
namespace CommandLine

/-!
The command itself: read the arguments and the program, write the output.
-/

/-- All that a stream still holds. -/
partial def readAll (stream : IO.FS.Stream) (before : ByteArray) : IO ByteArray := do
  let chunk ← stream.read 65536
  if chunk.isEmpty then return before else readAll stream (before ++ chunk)

/-- The text of bytes in UTF-8, and the empty text for any other bytes. -/
def textOfBytes (bytes : ByteArray) : Text :=
  Text.ofString ((String.fromUTF8? bytes).getD "")

def isDirectory (name : String) : IO Bool := do
  try
    let found ← IO.FS.realPath name
    found.isDir
  catch _ => return false

def readFile (path : Path) : IO (Except ReadFault Text) := do
  let name := Text.toString path.text
  try
    return .ok (Text.ofString (← IO.FS.readFile name))
  catch error =>
    match error with
    | .noFileOrDirectory .. => return .error .missing
    | _ =>
        if ← isDirectory name then return .error .directory
        else
          match error with
          | .inappropriateType .. => return .error .insideFile
          | other => return .error (.other (Text.ofString (ToString.toString other)))

/-- Write the lines of an output and give its exit status. -/
def emit (output : Output) : IO UInt32 := do
  (← IO.getStderr).putStr (Text.toString (written output.stderr))
  (← IO.getStdout).putStr (Text.toString (written output.stdout))
  return output.exitCode.toUInt32

/-- Run the command on the files of the machine. -/
def execute (argv : List Text) : IO UInt32 := do
  match request argv with
  | .answer output => emit output
  | .check none choices =>
      let bytes ← readAll (← IO.getStdin) ByteArray.empty
      emit (checked none choices (textOfBytes bytes))
  | .check (some file) choices =>
      let directory := Path.resolve {} (Text.ofString (← IO.currentDir).toString)
      let path := directory.resolve file
      match ← readFile path with
      | .ok source => emit (checked (some file) choices source)
      | .error fault => emit (unreadable path fault)

end CommandLine
end Monotype

def main (arguments : List String) : IO UInt32 :=
  Monotype.CommandLine.execute (arguments.map Monotype.Text.ofString)
