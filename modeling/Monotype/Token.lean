import Monotype.Text

namespace Monotype

/-!
Tokens and the places where they stand.

The kinds of tokens are the reserved words, the punctuation marks, numerals,
names and the end of the input.  The wording by which messages mention a kind
is fixed here once, in `Token.Kind.description`.
-/

/-- A place in a text: lines count from one, columns from zero and in code
units. -/
structure Position where
  line : Nat
  column : Nat
  deriving DecidableEq

namespace Position

def start : Position where
  line := 1
  column := 0

def step (position : Position) (u : CodeUnit) : Position :=
  if u = '\n' then ⟨position.line + 1, 0⟩ else ⟨position.line, position.column + 1⟩

/-- The place behind a text that starts at the given place. -/
def after (position : Position) (text : Text) : Position :=
  text.foldl step position

theorem after_append (position : Position) (first second : Text) :
    position.after (first ++ second) = (position.after first).after second :=
  List.foldl_append

end Position

inductive Keyword where
  | letWord | inWord | endWord
  | ifWord | thenWord | elseWord
  | trueWord | falseWord
  | notWord | andWord | orWord
  deriving DecidableEq

namespace Keyword

/-- Every reserved word once. -/
def all : List Keyword :=
  [letWord, inWord, endWord, ifWord, thenWord, elseWord, trueWord, falseWord,
    notWord, andWord, orWord]

def spelling : Keyword -> Text
  | letWord => "let"
  | inWord => "in"
  | endWord => "end"
  | ifWord => "if"
  | thenWord => "then"
  | elseWord => "else"
  | trueWord => "true"
  | falseWord => "false"
  | notWord => "not"
  | andWord => "and"
  | orWord => "or"

/-- The reserved word that a text spells, if it spells one. -/
def ofText? (text : Text) : Option Keyword :=
  all.find? (fun word => word.spelling = text)

theorem mem_all (word : Keyword) : word ∈ all := by
  cases word <;> decide

/-- Reading a spelling gives the word back. -/
theorem ofText?_spelling (word : Keyword) : ofText? word.spelling = some word := by
  cases word <;> decide

end Keyword

/-- The punctuation marks and operator signs. -/
inductive Symbol where
  | assign
  | plus | minus | star | slash
  | equal | less | lessEqual | greater | greaterEqual
  | tilde
  | leftParen | rightParen
  deriving DecidableEq

namespace Symbol

/-- The usual way to write a sign; `equal` may also be written doubled. -/
def spelling : Symbol -> Text
  | assign => "<-"
  | plus => "+"
  | minus => "-"
  | star => "*"
  | slash => "/"
  | equal => "="
  | less => "<"
  | lessEqual => "<="
  | greater => ">"
  | greaterEqual => ">="
  | tilde => "~"
  | leftParen => "("
  | rightParen => ")"

def ofPair? (u v : CodeUnit) : Option Symbol :=
  if u = '<' ∧ v = '-' then some assign
  else if u = '<' ∧ v = '=' then some lessEqual
  else if u = '>' ∧ v = '=' then some greaterEqual
  else if u = '=' ∧ v = '=' then some equal
  else none

def ofUnit? (u : CodeUnit) : Option Symbol :=
  if u = '+' then some plus
  else if u = '-' then some minus
  else if u = '*' then some star
  else if u = '/' then some slash
  else if u = '=' then some equal
  else if u = '<' then some less
  else if u = '>' then some greater
  else if u = '~' then some tilde
  else if u = '(' then some leftParen
  else if u = ')' then some rightParen
  else none

end Symbol

namespace Token

/-- What a token is, apart from its text and place. -/
inductive Kind where
  | number
  | identifier
  | keyword (word : Keyword)
  | symbol (sign : Symbol)
  | endOfInput
  deriving DecidableEq

/-- How messages mention a kind of token. -/
def Kind.description : Kind -> Text
  | .number => "a number"
  | .identifier => "an identifier"
  | .keyword word => Text.quoted word.spelling
  | .symbol sign => Text.quoted sign.spelling
  | .endOfInput => "end of input"

end Token

/-- A token with its text and the place of its first unit. -/
structure Token where
  kind : Token.Kind
  text : Text
  position : Position
  deriving DecidableEq

namespace Token

/-- The token that stands behind all others. -/
def finish (position : Position) : Token where
  kind := .endOfInput
  text := []
  position := position

end Token

end Monotype
