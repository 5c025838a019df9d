namespace Monotype

/-!
Text as the language measures it.

A text is a list of 16-bit code units.  A character outside the basic plane
takes two units, its leading and its trailing half, and both are counted: a
column is a number of units, and a faulty character of two units is two faults.
Because a fault may name one half alone, messages are texts as well, and only
`render` decides what an unpaired half looks like to a reader.
-/

abbrev CodeUnit := UInt16

/-- A sequence of 16-bit code units; halves of a pair may stand alone. -/
abbrev Text := List CodeUnit

namespace CodeUnit

/-- The unit of a character of the basic plane.  It is used for literals, all
of which are ASCII characters. -/
def ofChar (c : Char) : CodeUnit :=
  c.toNat.toUInt16

instance : Coe Char CodeUnit :=
  ⟨ofChar⟩

/-- A leading half opens a pair. -/
def isLeading (u : CodeUnit) : Bool :=
  0xD800 ≤ u && u < 0xDC00

/-- A trailing half closes a pair. -/
def isTrailing (u : CodeUnit) : Bool :=
  0xDC00 ≤ u && u < 0xE000

/-- The character that a leading and a trailing half denote together. -/
def pair (leading trailing : CodeUnit) : Char :=
  Char.ofNat (0x10000 + (leading.toNat - 0xD800) * 0x400 + (trailing.toNat - 0xDC00))

/-- Space, tab, carriage return and line feed. -/
def isBlank (u : CodeUnit) : Bool :=
  u == ' ' || u == '\t' || u == '\r' || u == '\n'

def isDigit (u : CodeUnit) : Bool :=
  '0' ≤ u && u ≤ '9'

/-- The ASCII letters of either case. -/
def isLetter (u : CodeUnit) : Bool :=
  ('a' ≤ u && u ≤ 'z') || ('A' ≤ u && u ≤ 'Z')

/-- The units that continue a word: letters, digits and the underscore. -/
def isWordUnit (u : CodeUnit) : Bool :=
  isLetter u || isDigit u || u == '_'

end CodeUnit

namespace Text

/-- The one or two units of a character. -/
def ofChar (c : Char) : Text :=
  if c.toNat < 0x10000 then
    [c.toNat.toUInt16]
  else
    [(0xD800 + (c.toNat - 0x10000) / 0x400).toUInt16,
      (0xDC00 + (c.toNat - 0x10000) % 0x400).toUInt16]

/-- The units of a string, character by character. -/
def ofString (s : String) : Text :=
  s.toList.flatMap ofChar

instance : Coe String Text :=
  ⟨ofString⟩

/-- The decimal digits of a natural number, without leading zeros. -/
def ofNat (n : Nat) : Text :=
  (Nat.toDigits 10 n).map CodeUnit.ofChar

/-- The decimal digits of an integer, after a minus sign when it is negative. -/
def ofInt : Int -> Text
  | .ofNat n => ofNat n
  | .negSucc n => '-' :: ofNat (n + 1)

def quoted (t : Text) : Text :=
  "'" ++ t ++ "'"

/-- Texts one after the other, with a separator between neighbours. -/
def join (separator : Text) (parts : List Text) : Text :=
  separator.intercalate parts

/-- What follows a given opening of a text; `none` if the text opens otherwise. -/
def after? : (opening : Text) -> Text -> Option Text
  | [], t => some t
  | _ :: _, [] => none
  | u :: opening, v :: t => if u = v then after? opening t else none

/-- Put a unit in front of the first of several parts. -/
def consFirst (u : CodeUnit) : List Text -> List Text
  | [] => [[u]]
  | part :: rest => (u :: part) :: rest

/-- The parts of a text between separators.  There is always one part more than
there are separators. -/
def splitOn (separator : CodeUnit) : Text -> List Text
  | [] => [[]]
  | u :: rest =>
      if u = separator then [] :: splitOn separator rest
      else consFirst u (splitOn separator rest)

/-- The lines of a text, which line feeds separate. -/
def lines (t : Text) : List Text :=
  splitOn '\n' t

/-- Lines one after the other, with a line feed between neighbours. -/
def unlines (parts : List Text) : Text :=
  join "\n" parts

/-- The characters of a text.  Each unpaired half is shown as `lone` says. -/
def characters (lone : CodeUnit -> List Char) : Text -> List Char
  | [] => []
  | [u] =>
      if u.isLeading || u.isTrailing then lone u else [Char.ofNat u.toNat]
  | u :: v :: rest =>
      if u.isLeading && v.isTrailing then
        u.pair v :: characters lone rest
      else if u.isLeading || u.isTrailing then
        lone u ++ characters lone (v :: rest)
      else
        Char.ofNat u.toNat :: characters lone (v :: rest)

/-- A text as a string, with each unpaired half shown as `lone` says. -/
def render (lone : CodeUnit -> String) (t : Text) : String :=
  String.ofList (characters (fun u => (lone u).toList) t)

/-- A text as a string, with the replacement character for each unpaired half. -/
def toString (t : Text) : String :=
  render (fun _ => "�") t

theorem after?_eq_some_iff (opening t rest : Text) :
    after? opening t = some rest ↔ t = opening ++ rest := by
  induction opening generalizing t with
  | nil => simp [after?]
  | cons u opening ih =>
      cases t with
      | nil => simp [after?]
      | cons v t =>
          by_cases same : u = v
          · simp [after?, same, ih]
          · have different : v ≠ u := fun equal => same equal.symm
            simp [after?, same, different]

theorem splitOn_ne_nil (separator : CodeUnit) (t : Text) : splitOn separator t ≠ [] := by
  cases t with
  | nil => simp [splitOn]
  | cons u rest =>
      simp only [splitOn]
      split
      · simp
      · cases splitOn separator rest <;> simp [consFirst]

end Text

end Monotype
