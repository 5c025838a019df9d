import Monotype.Numeral
import Monotype.Table

namespace Monotype

/-!
JSON values and their text.

Only what reports need is here: truth values, strings and objects.  The members
of an object are written in order, on one line or indented.  `Json.record`
collects members by key in the order that readers of such objects expect: keys
that are numbers come first and ascending, the others follow in the order in
which they arrived, and a key that arrives again takes the new value in its old
place.
-/

inductive Json where
  | bool (value : Bool)
  | string (text : Text)
  | object (members : List (Text × Json))

namespace Json

def hexDigit (n : Nat) : CodeUnit :=
  CodeUnit.ofChar (Nat.digitChar n)

/-- How a unit is written inside a string: quotes, backslashes and control
characters are escaped. -/
def escaped (u : CodeUnit) : Text :=
  if u = '"' then "\\\""
  else if u = '\\' then "\\\\"
  else if u = 8 then "\\b"
  else if u = 12 then "\\f"
  else if u = '\n' then "\\n"
  else if u = '\r' then "\\r"
  else if u = '\t' then "\\t"
  else if u < 32 then "\\u00" ++ [hexDigit (u.toNat / 16), hexDigit (u.toNat % 16)]
  else [u]

def quote (text : Text) : Text :=
  "\"" ++ text.flatMap escaped ++ "\""

/-- How far members are indented below their object; zero keeps all on one
line. -/
abbrev Indent := Nat

def maxIndent : Indent := 10

def indentOf (width : Int) : Indent :=
  if width < 1 then 0 else min maxIndent width.toNat

/-- The break before a member that stands `depth` objects deep. -/
def lineBreak (indent : Indent) (depth : Nat) : Text :=
  if indent = 0 then [] else '\n' :: List.replicate (indent * depth) (CodeUnit.ofChar ' ')

/-- What stands between a key and its value. -/
def colon (indent : Indent) : Text :=
  if indent = 0 then ":" else ": "

/-- Written members between braces. -/
def braced (indent : Indent) (depth : Nat) (members : List Text) : Text :=
  if members.isEmpty then "\x7b\x7d"
  else
    "\x7b" ++ lineBreak indent (depth + 1)
      ++ Text.join ("," ++ lineBreak indent (depth + 1)) members
      ++ lineBreak indent depth ++ "\x7d"

mutual

/-- The text of a value that stands `depth` objects deep. -/
def writeAt (indent : Indent) (depth : Nat) : Json -> Text
  | bool true => "true"
  | bool false => "false"
  | string text => quote text
  | object members => braced indent depth (writeMembers indent (depth + 1) members)

def writeMembers (indent : Indent) (depth : Nat) : List (Text × Json) -> List Text
  | [] => []
  | (key, value) :: rest =>
      (quote key ++ colon indent ++ writeAt indent depth value)
        :: writeMembers indent depth rest

end

def write (indent : Indent) (value : Json) : Text :=
  writeAt indent 0 value

/-- The number that a key spells, if it is one of the numbers that come first:
decimal, without leading zeros, and below 2^32 - 1. -/
def index? (key : Text) : Option Nat :=
  match Numeral.positional? 10 key with
  | none => none
  | some n => if Text.ofNat n = key ∧ n < 4294967295 then some n else none

/-- The key that is never stored. -/
def reserved : Text := "__proto__"

/-- The members of an object in the order in which they are listed. -/
def listed (members : Table Text Json) : List (Text × Json) :=
  let numbered := members.entries.filterMap
    (fun member => (index? member.1).map (fun n => (n, member)))
  let named := members.entries.filter (fun member => (index? member.1).isNone)
  (numbered.mergeSort (fun a b => a.1 ≤ b.1)).map Prod.snd ++ named

/-- The object that holds the given members. -/
def record (members : List (Text × Json)) : Json :=
  object (listed (Table.ofList (members.filter (fun member => member.1 ≠ reserved))))

end Json

end Monotype
