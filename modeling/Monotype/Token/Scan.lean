import Monotype.Lexeme

namespace Monotype

/-!
From lexemes to placed tokens.

Scanning a text gives its tokens and its lexical diagnostics, each in order and
each at the place where its lexeme starts, and one token for the end of the
input.  A scan may be asked to finish again: nothing is left to read by then, so
only a further end token is added.
-/

namespace Lexeme

/-- Lexemes with the places where they start, when the first starts at `place`. -/
def placed (place : Position) : List Lexeme -> List (Position × Lexeme)
  | [] => []
  | lexeme :: rest => (place, lexeme) :: placed (place.after lexeme.text) rest

def token? (place : Position) (lexeme : Lexeme) : Option Token :=
  match lexeme.role with
  | .token kind => some ⟨kind, lexeme.text, place⟩
  | _ => none

def diagnostic? (place : Position) (lexeme : Lexeme) : Option Diagnostic :=
  match lexeme.role with
  | .fault fault => some ⟨fault, place⟩
  | _ => none

end Lexeme

/-- The progress of cutting a text into tokens. -/
structure Scan where
  rest : Text
  position : Position := .start
  tokens : List Token := []
  diagnostics : List Diagnostic := []

namespace Scan

def ofText (text : Text) : Scan where
  rest := text

/-- Read all that is left and mark the end of the input. -/
def finish (scan : Scan) : Scan :=
  let pieces := Lexeme.placed scan.position (Lexeme.split scan.rest)
  let last := scan.position.after scan.rest
  { rest := []
    position := last
    tokens := scan.tokens ++ pieces.filterMap (fun piece => piece.2.token? piece.1)
      ++ [Token.finish last]
    diagnostics := scan.diagnostics
      ++ pieces.filterMap (fun piece => piece.2.diagnostic? piece.1) }

/-- The tokens and lexical diagnostics of a text. -/
def run (text : Text) : Scan :=
  (ofText text).finish

end Scan

end Monotype
