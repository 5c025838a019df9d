import Monotype.Token.Scan
import Monotype.Expr.Parser

namespace Monotype
namespace Source

/-!
Program text read as an expression.

Faults of the text itself are reported all together and before any attempt to
read an expression; a text without such faults is either an expression or is
refused with one diagnostic.
-/

/-- The expression of a program text, or what is wrong with the text. -/
def parse (text : Text) : Except (List Diagnostic) Expr :=
  let scan := Scan.run text
  if scan.diagnostics = [] then
    match ((Parser.ofTokens scan.tokens).program).1 with
    | .ok program => .ok program
    | .error (.refused diagnostic) => .error [diagnostic]
    | .error _ => .error []
  else .error scan.diagnostics

/-- One sentence about a text that is no program: the first of its diagnostics. -/
def refusal (diagnostics : List Diagnostic) : Text :=
  match diagnostics with
  | [] => "Failed to parse expression"
  | first :: _ =>
      "Failed to parse expression: " ++ first.message
        ++ " (line " ++ Text.ofNat first.position.line
        ++ ", column " ++ Text.ofNat first.position.column ++ ")"

end Source
end Monotype
