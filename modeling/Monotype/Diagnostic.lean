import Monotype.Token

namespace Monotype

/-!
Complaints about a text.

A text that is no program is refused with diagnostics: each has a cause and the
place where it was noticed.  The first three causes are found while the text is
cut into tokens, the last three while the tokens are read as an expression; an
invalid numeral can be found at either time.
-/

/-- Why a text or a list of tokens is no program. -/
inductive Fault where
  | unexpectedUnit (unit : CodeUnit)
  | unterminatedComment
  | invalidNumeral (text : Text)
  | unexpected (found : Token.Kind)
  | expected (wanted found : Token.Kind)
  deriving DecidableEq

namespace Fault

def message : Fault -> Text
  | unexpectedUnit unit => "Unexpected character " ++ Text.quoted [unit]
  | unterminatedComment => "Unterminated block comment"
  | invalidNumeral text => "Invalid number literal " ++ Text.quoted text
  | unexpected found => "Unexpected " ++ found.description
  | expected wanted found =>
      "Expected " ++ wanted.description ++ " but found " ++ found.description

end Fault

structure Diagnostic where
  fault : Fault
  position : Position
  deriving DecidableEq

namespace Diagnostic

def message (diagnostic : Diagnostic) : Text :=
  diagnostic.fault.message

end Diagnostic

end Monotype
