import Monotype.Expr.Reading

namespace Monotype

/-!
Reading whole programs from a list of tokens.

A program is one expression followed by the end of the input.  A parser keeps
what is left of its tokens, so that it can be asked for another program, and the
number of bindings that earlier, failed attempts have left open.  A failed
attempt leaves the refused token in front, except a numeral that is no literal:
that has been read by then.

A list of tokens should finish with an end token, which is never passed.  If it
does not, its last token is taken to be repeated for ever.  A repeated token that
opens no frame closes one at least every time but the first three, or ends the
reading; so when three repetitions more than there are open frames have not
decided the matter, no number of them will.
-/

/-- The tokens that are left, the last of all tokens, and the number of
bindings left open by earlier attempts. -/
structure Parser where
  rest : List Token
  last : Option Token
  openBindings : Nat := 0

namespace Parser

inductive Failure where
  | refused (diagnostic : Diagnostic)
  | noTokens
  | endless
  deriving DecidableEq

def Failure.message : Failure -> Text
  | refused diagnostic => diagnostic.message
  | noTokens => "Token stream must end with an eof token"
  | endless => "Token stream never ends the expression"

/-- What reading a list of tokens comes to. -/
inductive Outcome where
  | accepted (program : Expr) (rest : List Token)
  | refused (diagnostic : Diagnostic) (rest : List Token) (openBindings : Nat)
  | unfinished (reading : Reading)

/-- Read tokens until the expression is complete, a token is refused or no
token is left. -/
def read (outer : Nat) : Reading -> List Token -> Outcome
  | reading, [] => .unfinished reading
  | reading, token :: rest =>
      match reading.step outer token with
      | .shift next => read outer next rest
      | .accept program => .accepted program (token :: rest)
      | .refuse fault consumed =>
          .refused ⟨fault, token.position⟩ (if consumed then rest else token :: rest)
            (Frame.openBindings outer reading.frames)

def ofTokens (tokens : List Token) : Parser where
  rest := tokens
  last := tokens.getLast?

/-- Read a program from the tokens that are left. -/
def program (parser : Parser) : Except Failure Expr × Parser :=
  match parser.last with
  | none => (.error .noTokens, parser)
  | some last =>
      match read parser.openBindings {} parser.rest with
      | .accepted program rest => (.ok program, { parser with rest := rest })
      | .refused diagnostic rest stillOpen =>
          (.error (.refused diagnostic), { parser with rest := rest, openBindings := stillOpen })
      | .unfinished reading =>
          let repeated := List.replicate (reading.frames.length + 3) last
          match read parser.openBindings reading repeated with
          | .accepted program _ => (.ok program, { parser with rest := [] })
          | .refused diagnostic _ stillOpen =>
              (.error (.refused diagnostic), { parser with rest := [], openBindings := stillOpen })
          | .unfinished stuck =>
              (.error .endless,
                { parser with
                  rest := []
                  openBindings := Frame.openBindings parser.openBindings stuck.frames })

end Parser

end Monotype
