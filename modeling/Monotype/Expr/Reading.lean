import Monotype.Numeral
import Monotype.Diagnostic
import Monotype.Expr

namespace Monotype

/-!
One step of reading an expression from tokens.

A reading is a stack of frames, innermost first, and a statement of what may
come next.  Each frame is a construct that has been begun and still has a hole:
the right operand of an operator, the body of a binding, a branch of a
conditional.  A token either fits, and there is a next reading, or it completes
the whole expression, or it is refused.

Three rules settle what the plain grammar leaves open.

* An operator extends the expression in front of it if it binds tighter than
  the operator on whose right that expression stands (`floor`).
* A conditional where a whole expression is wanted is that whole expression: no
  operator may follow it.  A conditional that is an operand may be followed by
  operators, but its last branch takes them first.
* The word `end` closes the innermost open binding.  It closes a conditional
  only where no binding is open.
-/

/-- A construct that has been begun, with a hole for the expression that is
being read.  `start` is the place of its first token.  A conditional is `whole`
if it stands where a whole expression is wanted. -/
inductive Frame where
  | operand (op : UnaryOp) (start : Position)
  | rightOf (op : BinaryOp) (left : Expr) (start : Position)
  | paren
  | bound (name : Text) (start : Position)
  | body (name : Text) (bound : Expr) (start : Position)
  | condition (whole : Bool) (start : Position)
  | consequent (whole : Bool) (condition : Expr) (start : Position)
  | alternate (whole : Bool) (condition consequent : Expr) (start : Position)

namespace Frame

/-- Whether the frame is a binding, whose `end` is still to come. -/
def isBinding : Frame -> Bool
  | bound _ _ => true
  | body _ _ _ => true
  | _ => false

/-- The number of bindings whose `end` is still to come, when `outer` of them
were open before the frames. -/
def openBindings (outer : Nat) (frames : List Frame) : Nat :=
  outer + frames.countP isBinding

/-- The least level of an operator that extends the expression in the hole of
the innermost frame. -/
def floor : List Frame -> Nat
  | operand _ _ :: _ => BinaryOp.levels
  | rightOf op _ _ :: _ => op.level + 1
  | _ => 0

end Frame

/-- What the next token may be.  After a complete expression, `closed` says
that no operator may extend it. -/
inductive Awaited where
  | expression
  | operand
  | binder (start : Position)
  | arrow (name : Text) (start : Position)
  | continuation (finished : Expr) (closed : Bool)

/-- The constructs that are open and what may come next. -/
structure Reading where
  frames : List Frame := []
  awaited : Awaited := .expression

namespace Reading

/-- The effect of one token.  A refused token is left unread unless it was
`consumed`. -/
inductive Step where
  | shift (next : Reading)
  | accept (whole : Expr)
  | refuse (fault : Fault) (consumed : Bool)

/-- A token of exactly one kind is wanted. -/
def demand (wanted : Token.Kind) (token : Token) (next : Reading) : Step :=
  if token.kind = wanted then .shift next else .refuse (.expected wanted token.kind) false

/-- The reading after an operator that extends the finished expression; `none`
if the token is no such operator. -/
def extend? (token : Token) (frames : List Frame) (finished : Expr) (closed : Bool) :
    Option Reading :=
  match BinaryOp.ofKind? token.kind with
  | none => none
  | some op =>
      if closed = false ∧ Frame.floor frames ≤ op.level then
        some {
          frames := .rightOf op finished (finished.place.getD token.position) :: frames
          awaited := .operand }
      else none

/-- Extend the finished expression if the token is an operator that does so, and
otherwise do something else. -/
def extendOr (token : Token) (frames : List Frame) (finished : Expr) (closed : Bool)
    (otherwise : Unit -> Step) : Step :=
  match extend? token frames finished closed with
  | some next => .shift next
  | none => otherwise ()

/-- A token behind a complete expression.  Frames that the token does not belong
to are filled and left, from the inside out, until one takes or refuses it. -/
def settle (outer : Nat) (token : Token) : List Frame -> Expr -> Bool -> Step
  | [], finished, closed =>
      extendOr token [] finished closed (fun _ =>
        if token.kind = .endOfInput then .accept finished
        else .refuse (.expected .endOfInput token.kind) false)
  | .operand op start :: rest, finished, closed =>
      extendOr token (.operand op start :: rest) finished closed (fun _ =>
        settle outer token rest (.unary op finished (some start)) false)
  | .rightOf op left start :: rest, finished, closed =>
      extendOr token (.rightOf op left start :: rest) finished closed (fun _ =>
        settle outer token rest (.binary op left finished (some start)) false)
  | .paren :: rest, finished, closed =>
      extendOr token (.paren :: rest) finished closed (fun _ =>
        demand (.symbol .rightParen) token ⟨rest, .continuation finished false⟩)
  | .bound name start :: rest, finished, closed =>
      extendOr token (.bound name start :: rest) finished closed (fun _ =>
        demand (.keyword .inWord) token ⟨.body name finished start :: rest, .expression⟩)
  | .body name bound start :: rest, finished, closed =>
      extendOr token (.body name bound start :: rest) finished closed (fun _ =>
        demand (.keyword .endWord) token
          ⟨rest, .continuation (.letIn name bound finished (some start)) false⟩)
  | .condition whole start :: rest, finished, closed =>
      extendOr token (.condition whole start :: rest) finished closed (fun _ =>
        demand (.keyword .thenWord) token
          ⟨.consequent whole finished start :: rest, .expression⟩)
  | .consequent whole condition start :: rest, finished, closed =>
      extendOr token (.consequent whole condition start :: rest) finished closed (fun _ =>
        demand (.keyword .elseWord) token
          ⟨.alternate whole condition finished start :: rest, .expression⟩)
  | .alternate whole condition consequent start :: rest, finished, closed =>
      extendOr token (.alternate whole condition consequent start :: rest) finished closed
        (fun _ =>
          if Frame.openBindings outer rest = 0 ∧ token.kind = .keyword .endWord then
            .shift ⟨rest, .continuation (.ite condition consequent finished (some start)) whole⟩
          else
            settle outer token rest (.ite condition consequent finished (some start)) whole)

/-- A token where an expression or, if not `whole`, an operand begins. -/
def begin (token : Token) (frames : List Frame) (whole : Bool) : Step :=
  let leaf (e : Expr) : Step := .shift ⟨frames, .continuation e false⟩
  match token.kind with
  | .number =>
      match Numeral.value? token.text with
      | some value => leaf (.int value (some token.position))
      | none => .refuse (.invalidNumeral token.text) true
  | .identifier => leaf (.var token.text (some token.position))
  | .keyword .trueWord => leaf (.bool true (some token.position))
  | .keyword .falseWord => leaf (.bool false (some token.position))
  | .keyword .notWord => .shift ⟨.operand .not token.position :: frames, .operand⟩
  | .keyword .letWord => .shift ⟨frames, .binder token.position⟩
  | .keyword .ifWord => .shift ⟨.condition whole token.position :: frames, .expression⟩
  | .symbol .tilde => .shift ⟨.operand .neg token.position :: frames, .operand⟩
  | .symbol .leftParen => .shift ⟨.paren :: frames, .expression⟩
  | found => .refuse (.unexpected found) false

def step (outer : Nat) (reading : Reading) (token : Token) : Step :=
  match reading.awaited with
  | .expression => begin token reading.frames true
  | .operand => begin token reading.frames false
  | .binder start =>
      demand .identifier token ⟨reading.frames, .arrow token.text start⟩
  | .arrow name start =>
      demand (.symbol .assign) token ⟨.bound name start :: reading.frames, .expression⟩
  | .continuation finished closed => settle outer token reading.frames finished closed

end Reading

end Monotype
