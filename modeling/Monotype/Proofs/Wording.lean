import Monotype.Check
import Monotype.Proofs.Presentation

namespace Monotype

/-!
# The wording of results

What is shown of a program with types is put together from a few words: the type of the program and,
for each binder, the name it goes by, its type and its line.  `Check.typesShown` says for each format
how these words stand in the text, without objects, writers and escapes in between.  This is what a
check shows, because names and types are words in which nothing has to be escaped.
-/

/-! ## Words for types and values -/

inductive Ground.Word : Ground -> Text -> Prop where
  | int : Word .int "int"
  | bool : Word .bool "bool"

theorem Ground.word_name (type : Ground) : type.Word type.name := by
  cases type with
  | int => exact .int
  | bool => exact .bool

/-- How a value is written: an integer by its decimal digits, with a minus sign in front if it is
negative, and a truth value by its name. -/
inductive Value.Written : Value -> Text -> Prop where
  | natural (n : Nat) : Written (.int n) ((Nat.toDigits 10 n).map CodeUnit.ofChar)
  | negative (n : Nat) :
      Written (.int (-(n + 1))) ('-' :: (Nat.toDigits 10 (n + 1)).map CodeUnit.ofChar)
  | truth : Written (.bool true) "true"
  | falsehood : Written (.bool false) "false"

theorem Value.written_text (value : Value) : value.Written value.text := by
  cases value with
  | int number =>
      cases number with
      | ofNat n => exact .natural n
      | negSucc n => exact .negative n
  | bool truth =>
      cases truth with
      | true => exact .truth
      | false => exact .falsehood

/-! ## Words that need no escapes -/

theorem CodeUnit.le_of_isWordUnit {u : CodeUnit} (wordUnit : u.isWordUnit = true) : 48 ≤ u.toNat := by
  simp only [isWordUnit, isLetter, isDigit, Bool.or_eq_true, Bool.and_eq_true, decide_eq_true_eq,
    UInt16.le_iff_toNat_le, beq_iff_eq] at wordUnit
  have small : (ofChar 'a').toNat = 97 := rfl
  have capital : (ofChar 'A').toNat = 65 := rfl
  have digit : (ofChar '0').toNat = 48 := rfl
  rcases wordUnit with (letter | inDigits) | rfl
  · omega
  · omega
  · decide

namespace Json

theorem escaped_of_isWordUnit {u : CodeUnit} (plain : u.isWordUnit = true ∨ u = '#') :
    escaped u = [u] := by
  rcases plain with wordUnit | rfl
  · have high := CodeUnit.le_of_isWordUnit wordUnit
    have notControl : ¬ u < 32 := by
      rw [UInt16.lt_iff_toNat_lt]
      change ¬ u.toNat < 32
      omega
    have other (v : CodeUnit) (notWord : v.isWordUnit = false) : u ≠ v := by
      rintro rfl
      rw [wordUnit] at notWord
      cases notWord
    rw [escaped, if_neg (other _ (by decide)), if_neg (other _ (by decide)), if_neg (other _ (by decide)),
      if_neg (other _ (by decide)), if_neg (other _ (by decide)), if_neg (other _ (by decide)),
      if_neg (other _ (by decide)), if_neg notControl]
  · decide

theorem quote_of_units {text : Text} (plain : forall u, u ∈ text -> u.isWordUnit = true ∨ u = '#') :
    quote text = "\"" ++ text ++ "\"" := by
  have kept : text.flatMap escaped = text.flatMap (fun u => [u]) := by
    apply List.flatMap_congr
    intro u member
    exact escaped_of_isWordUnit (plain u member)
  rw [quote, kept, List.flatMap_singleton']

theorem quote_name (type : Ground) : quote type.name = "\"" ++ type.name ++ "\"" := by
  cases type <;> decide +kernel

theorem writeMembers_strings {A : Type} (indent : Indent) (depth : Nat) (key value : A -> Text)
    (items : List A) :
    writeMembers indent depth (items.map (fun item => (key item, .string (value item)))) =
      items.map (fun item => quote (key item) ++ colon indent ++ quote (value item)) := by
  induction items with
  | nil => rw [List.map_nil, writeMembers, List.map_nil]
  | cons item rest ih => rw [List.map_cons, writeMembers, writeAt, ih, List.map_cons]

end Json

/-! ## Words in their places -/

namespace Check

/-- What is told of a binder: the name it goes by, the word for its type, and the number of its line. -/
structure Entry where
  label : Text
  type : Text
  line : Nat

/-- The entry tells what holds of the binder.  The first binder of a name goes by this name, and a
later one by the name and a number. -/
structure Entry.Tells (entry : Entry) (binder : TypedBinder) : Prop where
  label : exists index : Nat, binder.term = .binder binder.name index ∧
    entry.label = if index = 0 then binder.name
      else binder.name ++ "#" ++ (Nat.toDigits 10 index).map CodeUnit.ofChar
  type : binder.type.Word entry.type
  line : binder.place.map Position.line = some entry.line

namespace Entry

def reported (entry : Entry) : Text :=
  "Type(" ++ entry.label ++ "): " ++ entry.type

/-- The entry as the member of an object. -/
def member (entry : Entry) : Text :=
  "\"" ++ entry.label ++ "\": \"" ++ entry.type ++ "\""

/-- The entry in a comment behind a line. -/
def remarked (entry : Entry) : Text :=
  " (* " ++ entry.label ++ ": " ++ entry.type ++ " *)"

/-- The entries as an object that is itself a member. -/
def object : List Entry -> Text
  | [] => "\x7b\x7d"
  | first :: rest => "\x7b\n    "
      ++ List.intercalate (",\n    " : Text) ((first :: rest).map member) ++ "\n  \x7d"

end Entry

/-- What is to be shown of a program with types, given the word for its type and the entries of its
binders. -/
def typesShown (source type : Text) (entries : List Entry) : Format -> Text
  | .report => List.intercalate ("\n" : Text) (("Type: " ++ type) :: entries.map Entry.reported)
  | .json => "\x7b\n  \"success\": true,\n  \"type\": \"" ++ type ++ "\",\n  \"bindings\": "
      ++ Entry.object entries ++ "\n\x7d"
  | .inline => List.intercalate ("\n" : Text)
      ((List.splitOn (CodeUnit.ofChar '\n') source).mapIdx (fun index line =>
        line ++ (entries.filter (fun entry => entry.line = index + 1)).flatMap Entry.remarked))

/-- The text is what is to be shown of the program with the typing.  There is an entry for each binding
of the program, numbered among those of its name. -/
inductive Shows (source : Text) (e : Expr) (typing : Typing) (format : Format) : Text -> Prop where
  | intro {type : Text} {entries : List Entry} (word : typing.type.Word type)
      (numbered : typing.binders.map TypedBinder.toBinder = Binder.entered [] (e.bindings 0))
      (located : Inference.Located source e typing.binders)
      (told : List.Forall₂ Entry.Tells entries typing.binders) :
      Shows source e typing format (typesShown source type entries format)

/-! ## What is shown -/

def entryOf (binder : TypedBinder) : Entry where
  label := binder.display
  type := binder.type.name
  line := (binder.place.map Position.line).getD 0

theorem tells_entryOf {binder : TypedBinder} {index : Nat}
    (isTerm : binder.term = .binder binder.name index) {place : Position}
    (isPlace : binder.place = some place) : (entryOf binder).Tells binder where
  label := by
    refine ⟨index, isTerm, ?_⟩
    rw [entryOf, TypedBinder.display, isTerm, Term.display]
    simp only [Int.natCast_eq_zero]
    rfl
  type := binder.type.word_name
  line := by
    rw [entryOf, isPlace]
    rfl

theorem forall₂_tells {source : Text} {e : Expr} {binders : List TypedBinder}
    (named : Inference.Named binders) (located : Inference.Located source e binders) :
    List.Forall₂ Entry.Tells (binders.map entryOf) binders := by
  rw [List.forall₂_map_left_iff, List.forall₂_same]
  intro binder listed
  rcases named.identified binder listed with ⟨index, isTerm, _⟩
  rcases located.starts binder listed with ⟨place, isPlace, _⟩
  exact tells_entryOf isTerm isPlace

/-- The object of the binders is written without escapes. -/
theorem write_object {binders : List TypedBinder} (named : Inference.Named binders) :
    Json.writeAt 2 1 (.object (binders.map
      (fun binder => (binder.display, .string binder.type.name)))) =
        Entry.object (binders.map entryOf) := by
  have written : binders.map (fun binder => Json.quote binder.display ++ Json.colon 2 ++
      Json.quote binder.type.name) = (binders.map entryOf).map Entry.member := by
    rw [List.map_map]
    apply List.map_congr_left
    intro binder listed
    have between : ("\": \"" : Text) = "\"" ++ Json.colon 2 ++ "\"" := by decide +kernel
    rw [Json.quote_of_units (named.units binder listed), Json.quote_name]
    simp only [Function.comp_apply, Entry.member, entryOf, between, List.append_assoc]
  rw [Json.writeAt, Json.writeMembers_strings, written]
  cases binders with
  | nil => rfl
  | cons first rest =>
      have opening : ("\x7b" : Text) ++ Json.lineBreak 2 2 = "\x7b\n    " := by decide +kernel
      have between : ("," : Text) ++ Json.lineBreak 2 2 = ",\n    " := by decide +kernel
      have closing : Json.lineBreak 2 1 ++ ("\x7d" : Text) = "\n  \x7d" := by decide +kernel
      rw [Json.braced, if_neg (by simp), Text.join, opening, between, List.append_assoc, closing]
      rfl

theorem json_shown {inference : Inference} {typing : Typing} (named : Inference.Named typing.binders)
    (succeeded : inference.typing = .ok typing) (source : Text) :
    inference.json Inference.jsonWidth =
      typesShown source typing.type.name (typing.binders.map entryOf) .json := by
  have opening : ("\x7b\n  \"success\": true,\n  \"type\": \"" : Text) = "\x7b" ++ Json.lineBreak 2 1 ++
      (Json.quote "success" ++ Json.colon 2 ++ "true") ++ ("," ++ Json.lineBreak 2 1) ++
      (Json.quote "type" ++ Json.colon 2 ++ "\"") := by
    decide +kernel
  have between : ("\",\n  \"bindings\": " : Text) =
      "\"" ++ ("," ++ Json.lineBreak 2 1) ++ (Json.quote "bindings" ++ Json.colon 2) := by
    decide +kernel
  have closing : ("\n\x7d" : Text) = Json.lineBreak 2 0 ++ "\x7d" := by decide +kernel
  have width : Json.indentOf Inference.jsonWidth = 2 := by decide
  rw [named.json_eq succeeded, width, typesShown, ← write_object named, opening, between, closing]
  generalize Json.object (typing.binders.map
    (fun binder => (binder.display, .string binder.type.name))) = bindings
  simp only [Json.write, Json.writeAt, Json.writeMembers, Json.quote_name, Json.braced,
    List.isEmpty_cons, Bool.false_eq_true, if_false, Text.join, List.intercalate_cons_cons,
    List.intercalate_singleton, List.append_assoc]

theorem addition_eq (binders : List TypedBinder) (index : Nat) :
    Inference.addition binders (index + 1) =
      ((binders.map entryOf).filter (fun entry => entry.line = index + 1)).flatMap Entry.remarked := by
  have onLine (binder : TypedBinder) :
      binder.place.map Position.line = some (index + 1) ↔ (entryOf binder).line = index + 1 := by
    rw [entryOf]
    cases binder.place.map Position.line <;> simp
  rw [Inference.addition, Inference.commentsOn, List.flatMap_map, List.filter_map, List.flatMap_map]
  simp only [onLine]
  rfl

theorem shown_of_typing {inference : Inference} {typing : Typing}
    (named : Inference.Named typing.binders) (succeeded : inference.typing = .ok typing)
    (format : Format) (source : Text) : shown format source inference =
      typesShown source typing.type.name (typing.binders.map entryOf) format := by
  cases format with
  | report =>
      simp only [shown, Inference.report, succeeded, typesShown, List.map_map]
      rfl
  | json => exact json_shown named succeeded source
  | inline =>
      simp only [shown, Inference.inline, succeeded, typesShown, ← addition_eq, Inference.annotate_eq,
        Text.lines_eq_splitOn]
      rfl

/-- What a check shows of a program with types is what is to be shown of it. -/
theorem shows_shown {source : Text} {e : Expr} (parsed : Source.parse source = .ok e)
    (wellScoped : e.isWellScoped = true) {comparison : Comparison} {inference : Inference}
    (inferred : e.infer comparison = .ok inference) {typing : Typing}
    (succeeded : inference.typing = .ok typing) (format : Format) :
    Shows source e typing format (shown format source inference) := by
  have named := Inference.named_of_infer (Source.writable_of_parse parsed) wellScoped inferred succeeded
  have located := Inference.located_of_infer parsed wellScoped inferred succeeded
  rw [shown_of_typing named succeeded]
  exact .intro typing.type.word_name (Inference.binders_eq wellScoped inferred succeeded) located
    (forall₂_tells named located)

end Check

end Monotype
