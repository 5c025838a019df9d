import Monotype.Token

namespace Monotype

/-!
Expressions of the language.

An expression is a literal, a name, a binding, a conditional or an operator
applied to operands.  Each node may carry the place where it starts in a text;
trees that were not read from a text carry none.

A node is referred to by its number in a walk that visits a node before its
children and the children from left to right.  When a tree is numbered from
`first`, its root has the number `first` and its first child the next one; the
size of a child tells where its right neighbour begins.
-/

inductive UnaryOp where
  | neg | not
  deriving DecidableEq

inductive BinaryOp where
  | add | sub | mul | div
  | and | or
  | eql
  | lt | le | gt | ge
  deriving DecidableEq

namespace UnaryOp

def sign : UnaryOp -> Text
  | neg => "~"
  | not => "not"

def name : UnaryOp -> Text
  | neg => "neg"
  | not => "not"

end UnaryOp

namespace BinaryOp

/-- Operators of one family treat the types of their operands alike. -/
inductive Family where
  | arithmetic | logical | equality | ordering
  deriving DecidableEq

def family : BinaryOp -> Family
  | add | sub | mul | div => .arithmetic
  | and | or => .logical
  | eql => .equality
  | lt | le | gt | ge => .ordering

/-- How tightly an operator binds; the loosest has level zero. -/
def level : BinaryOp -> Nat
  | or => 0
  | and => 1
  | eql => 2
  | lt | le | gt | ge => 3
  | add | sub => 4
  | mul | div => 5

/-- The number of levels; operands of unary operators bind tighter than all. -/
def levels : Nat := 6

def sign : BinaryOp -> Text
  | add => "+"
  | sub => "-"
  | mul => "*"
  | div => "/"
  | and => "and"
  | or => "or"
  | eql => "="
  | lt => "<"
  | le => "<="
  | gt => ">"
  | ge => ">="

def name : BinaryOp -> Text
  | add => "add"
  | sub => "sub"
  | mul => "mul"
  | div => "div"
  | and => "and"
  | or => "or"
  | eql => "eql"
  | lt => "lt"
  | le => "le"
  | gt => "gt"
  | ge => "ge"

/-- The operator that a token stands for between two operands. -/
def ofKind? : Token.Kind -> Option BinaryOp
  | .keyword .orWord => some or
  | .keyword .andWord => some and
  | .symbol .equal => some eql
  | .symbol .less => some lt
  | .symbol .lessEqual => some le
  | .symbol .greater => some gt
  | .symbol .greaterEqual => some ge
  | .symbol .plus => some add
  | .symbol .minus => some sub
  | .symbol .star => some mul
  | .symbol .slash => some div
  | _ => none

theorem level_lt_levels (op : BinaryOp) : op.level < levels := by
  cases op <;> decide

end BinaryOp

/-- An expression; `place` is where a node starts, if that is known. -/
inductive Expr where
  | int (value : Int) (place : Option Position)
  | bool (value : Bool) (place : Option Position)
  | var (name : Text) (place : Option Position)
  | letIn (name : Text) (bound body : Expr) (place : Option Position)
  | ite (condition consequent alternate : Expr) (place : Option Position)
  | unary (op : UnaryOp) (operand : Expr) (place : Option Position)
  | binary (op : BinaryOp) (left right : Expr) (place : Option Position)
  deriving DecidableEq

namespace Expr

def place : Expr -> Option Position
  | int _ place => place
  | bool _ place => place
  | var _ place => place
  | letIn _ _ _ place => place
  | ite _ _ _ place => place
  | unary _ _ place => place
  | binary _ _ _ place => place

def size : Expr -> Nat
  | int _ _ => 1
  | bool _ _ => 1
  | var _ _ => 1
  | letIn _ bound body _ => 1 + bound.size + body.size
  | ite condition consequent alternate _ =>
      1 + condition.size + consequent.size + alternate.size
  | unary _ operand _ => 1 + operand.size
  | binary _ left right _ => 1 + left.size + right.size

theorem size_pos (e : Expr) : 0 < e.size := by
  cases e <;> simp only [size] <;> omega

/-- The same tree without places. -/
def bare : Expr -> Expr
  | int value _ => int value none
  | bool value _ => bool value none
  | var name _ => var name none
  | letIn name bound body _ => letIn name bound.bare body.bare none
  | ite condition consequent alternate _ =>
      ite condition.bare consequent.bare alternate.bare none
  | unary op operand _ => unary op operand.bare none
  | binary op left right _ => binary op left.bare right.bare none

end Expr

end Monotype
