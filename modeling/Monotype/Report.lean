import Monotype.Inference
import Monotype.Json

namespace Monotype
namespace Inference

/-!
The outcome of inference in words.

There are three formats: lines of text, JSON, and the source with a comment for
each binder on the line where the binder stands.  A program without types gets
the same two words in each of them.
-/

/-- The type of the program on the first line, then a line for each binder. -/
def report (inference : Inference) : Text :=
  match inference.typing with
  | .error _ => typeError
  | .ok typing =>
      let line (binder : TypedBinder) : Text :=
        "Type(" ++ binder.display ++ "): " ++ binder.type.name
      Text.unlines (("Type: " ++ typing.type.name) :: typing.binders.map line)

def toJson (inference : Inference) : Json :=
  match inference.typing with
  | .error _ => .object [("success", .bool false), ("error", .string typeError)]
  | .ok typing =>
      let member (binder : TypedBinder) : Text × Json :=
        (binder.display, .string binder.type.name)
      .object [("success", .bool true), ("type", .string typing.type.name),
        ("bindings", Json.record (typing.binders.map member))]

/-- The width of the indentation in JSON text, unless another is asked for. -/
def jsonWidth : Int := 2

def json (inference : Inference) (width : Int) : Text :=
  inference.toJson.write (Json.indentOf width)

def comment (binder : TypedBinder) : Text :=
  "(* " ++ binder.display ++ ": " ++ binder.type.name ++ " *)"

/-- The comments for the binders on a line, in order. -/
def commentsOn (binders : List TypedBinder) (line : Nat) : List Text :=
  (binders.filter (fun binder => binder.place.map Position.line = some line)).map comment

/-- A line of source with its comments behind it. -/
def annotate (binders : List TypedBinder) (line : Nat) (text : Text) : Text :=
  match commentsOn binders line with
  | [] => text
  | comments => text ++ " " ++ Text.join " " comments

/-- The source with a comment for each binder. -/
def inline (inference : Inference) (source : Text) : Text :=
  match inference.typing with
  | .error _ => typeError
  | .ok typing =>
      Text.unlines ((Text.lines source).mapIdx
        (fun earlier text => annotate typing.binders (earlier + 1) text))

end Inference
end Monotype
