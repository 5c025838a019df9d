import Monotype.Evaluation
import Monotype.Report
import Monotype.Scoping
import Monotype.Source

namespace Monotype

/-!
Checking the text of a program, from reading it to showing its value.

A check passes through four gates: the text is a program, its names have
meanings, it has types, and, if asked for, it has a value.  The first gate that
does not open ends the check.
-/

/-- How the outcome of inference is shown. -/
inductive Format where
  | report | json | inline
  deriving DecidableEq

/-- What a check is to do. -/
structure Options where
  format : Format := .report
  evaluate : Bool := false
  verbose : Bool := false
  comparison : Comparison := .int
  deriving DecidableEq

/-- The lines for the two output streams and the exit status. -/
structure Output where
  stdout : List Text := []
  stderr : List Text := []
  exitCode : Nat := 0
  deriving DecidableEq

namespace Check

def parseError : Text := "Parse error"

def scopeError : Text := "Def error"

/-- Where and why a text is refused. -/
def locate (diagnostic : Diagnostic) : Text :=
  "  line " ++ Text.ofNat diagnostic.position.line
    ++ ", column " ++ Text.ofNat diagnostic.position.column
    ++ ": " ++ diagnostic.message

def refused (diagnostics : List Diagnostic) : Output where
  stdout := [parseError]
  stderr := diagnostics.map locate
  exitCode := 1

def unscoped (options : Options) (names : List Text) : Output where
  stdout := [scopeError]
  stderr := if options.verbose then ["Undefined variables: " ++ Text.join ", " names] else []
  exitCode := 1

/-- The lines of a text, indented; an empty text has none. -/
def indented (text : Text) : List Text :=
  if text = [] then [] else (Text.lines text).map (fun line => "  " ++ line)

/-- The sort and the wording of the fault that has kept a program from having
types, if there is one. -/
def complaint (inference : Inference) : List Text :=
  match inference.typing with
  | .ok _ => []
  | .error fault => [fault.kind ++ ": " ++ fault.message]

/-- How the types were found, step by step. -/
def trace (inference : Inference) : List Text :=
  let count := "Generated " ++ Text.ofNat inference.constraints.length ++ " constraints:"
  let heading : Text := "Equivalence classes:"
  let constraints := Equation.displayAll (Inference.equations inference.constraints)
  count :: indented constraints
    ++ heading :: indented inference.classes.display
    ++ complaint inference

/-- The outcome of inference in the chosen format. -/
def shown (format : Format) (source : Text) (inference : Inference) : Text :=
  match format with
  | .report => inference.report
  | .json => inference.json Inference.jsonWidth
  | .inline => inference.inline source

/-- The output for a program whose types have been looked for. -/
def inferred (options : Options) (source : Text) (e : Expr) (inference : Inference) : Output :=
  let output : Output := {
    stdout := [shown options.format source inference]
    stderr := if options.verbose then trace inference else [] }
  match inference.typing with
  | .error _ => { output with exitCode := 1 }
  | .ok _ =>
      if options.evaluate then
        match e.evaluate [] with
        | .ok value => { output with stdout := output.stdout ++ ["Value is " ++ value.text] }
        | .error fault =>
            { output with
              stderr := output.stderr ++ ["Evaluation error: " ++ fault.message]
              exitCode := 1 }
      else output

def run (source : Text) (options : Options) : Except Inference.Failure Output :=
  match Source.parse source with
  | .error diagnostics => .ok (refused diagnostics)
  | .ok e =>
      match e.undefinedNames [] with
      | [] =>
          match e.infer options.comparison with
          | .error failure => .error failure
          | .ok inference => .ok (inferred options source e inference)
      | names => .ok (unscoped options names)

end Check

end Monotype
