import Monotype.Proofs.Annotation
import Monotype.Proofs.Binders
import Monotype.Proofs.Table
import Monotype.Proofs.Whereabouts
import Mathlib.Data.List.Perm.Basic

namespace Monotype

/-!
# Every binder in every format

The binders of a program are shown by different names.  As a name is an identifier with at most a
number behind it, it is one word: it breaks no line, it is no number that an object would list first,
and it ends no comment.  So each format has one entry for each binder, in the order of the binders.
In the source the entry is on the line where the `let` of the binder starts, because the place of a
token counts the line feeds before it and lines are what line feeds separate.
-/

/-! ## Names that are shown -/

theorem Text.IsIdentifier.hash_not_mem {name : Text} (identifier : name.IsIdentifier) :
    CodeUnit.ofChar '#' ∉ name := by
  intro member
  exact absurd (identifier.isWordUnit member) (by decide)

/-- Names without number signs and their indices can be told from what is shown. -/
theorem Term.binder_of_display {name other : Text} (plain : CodeUnit.ofChar '#' ∉ name)
    (otherPlain : CodeUnit.ofChar '#' ∉ other) {index otherIndex : Int}
    (same : (binder name index).display = (binder other otherIndex).display) :
    binder name index = binder other otherIndex := by
  have numbered (name : Text) {index : Int} (later : index ≠ 0) :
      (binder name index).display = name ++ CodeUnit.ofChar '#' :: Text.ofInt index := by
    rw [display, if_neg later, List.append_assoc]
    rfl
  by_cases first : index = 0
  · by_cases otherFirst : otherIndex = 0
    · rw [display, if_pos first, display, if_pos otherFirst] at same
      rw [first, otherFirst, same]
    · rw [numbered other otherFirst, display, if_pos first] at same
      exact absurd (same ▸ List.mem_append_right other List.mem_cons_self) plain
  · by_cases otherFirst : otherIndex = 0
    · rw [numbered name first, display, if_pos otherFirst] at same
      exact absurd (same ▸ List.mem_append_right name List.mem_cons_self) otherPlain
    · rw [numbered name first, numbered other otherFirst] at same
      have parts := Text.append_separator_inj (Text.hash_not_mem_ofInt index)
        (Text.hash_not_mem_ofInt otherIndex) same
      rw [parts.1, Text.ofInt_injective parts.2]

theorem Expr.isIdentifier_of_mem_bindings {e : Expr} (writable : e.Writable) {node : Nat} {binding : Binding}
    (member : binding ∈ e.bindings node) : binding.name.IsIdentifier := by
  induction e generalizing node with
  | int value place => cases member
  | bool value place => cases member
  | var name place => cases member
  | letIn name bound body place ihBound ihBody =>
      rcases writable with ⟨identifier, boundWritable, bodyWritable⟩
      rcases List.mem_append.mp member with inBound | member
      · exact ihBound boundWritable inBound
      · rcases List.mem_cons.mp member with rfl | inBody
        · exact identifier
        · exact ihBody bodyWritable inBody
  | ite condition consequent alternate place ihCondition ihConsequent ihAlternate =>
      rcases writable with ⟨conditionWritable, consequentWritable, alternateWritable⟩
      rcases List.mem_append.mp member with member | inAlternate
      · rcases List.mem_append.mp member with inCondition | inConsequent
        · exact ihCondition conditionWritable inCondition
        · exact ihConsequent consequentWritable inConsequent
      · exact ihAlternate alternateWritable inAlternate
  | unary op operand place ih => exact ih writable member
  | binary op left right place ihLeft ihRight =>
      rcases List.mem_append.mp member with inLeft | inRight
      · exact ihLeft writable.1 inLeft
      · exact ihRight writable.2 inRight

/-- Binders with identifiers for names and with different terms. -/
structure Inference.Named (binders : List TypedBinder) : Prop where
  identified : forall binder, binder ∈ binders -> exists index : Nat,
    binder.term = .binder binder.name index ∧ binder.name.IsIdentifier
  distinct : (binders.map (fun binder => binder.term)).Nodup

namespace Inference

variable {binders : List TypedBinder}

theorem named_of_infer {e : Expr} (writable : e.Writable) (wellScoped : e.isWellScoped = true)
    {comparison : Comparison} {inference : Inference} (inferred : e.infer comparison = .ok inference)
    {typing : Typing} (succeeded : inference.typing = .ok typing) : Named typing.binders := by
  have counted := Binder.counted_nil.entered (e.bindings 0)
  rw [← binders_eq wellScoped inferred succeeded] at counted
  constructor
  · intro binder listed
    rcases counted.numbered _ (List.mem_map_of_mem listed) with ⟨index, isTerm, _⟩
    have isBinding : binder.binding ∈ e.bindings 0 := by
      rw [← map_binding_binders wellScoped inferred succeeded]
      exact List.mem_map_of_mem listed
    exact ⟨index, isTerm, Expr.isIdentifier_of_mem_bindings writable isBinding⟩
  · have distinct := counted.distinct
    rwa [List.map_map] at distinct

theorem Named.nodup_display (named : Named binders) : (binders.map TypedBinder.display).Nodup := by
  have displays : binders.map TypedBinder.display = (binders.map (fun binder => binder.term)).map Term.display := by
    rw [List.map_map]
    rfl
  rw [displays]
  refine named.distinct.map_on ?_
  intro term member other otherMember same
  rcases List.mem_map.mp member with ⟨binder, listed, rfl⟩
  rcases List.mem_map.mp otherMember with ⟨otherBinder, otherListed, rfl⟩
  rcases named.identified binder listed with ⟨index, isTerm, identifier⟩
  rcases named.identified otherBinder otherListed with ⟨otherIndex, isOther, otherIdentifier⟩
  rw [isTerm, isOther] at same ⊢
  exact Term.binder_of_display identifier.hash_not_mem otherIdentifier.hash_not_mem same

/-- What is shown for a binder is a word, with at most a number sign in it. -/
theorem Named.units (named : Named binders) (binder : TypedBinder) (listed : binder ∈ binders) (u : CodeUnit)
    (member : u ∈ binder.display) : u.isWordUnit = true ∨ u = '#' := by
  rcases named.identified binder listed with ⟨index, isTerm, identifier⟩
  rw [TypedBinder.display, isTerm] at member
  exact Term.isWordUnit_of_mem_display identifier index member

theorem Named.exists_letter (named : Named binders) {binder : TypedBinder} (listed : binder ∈ binders) :
    exists u rest, binder.display = u :: rest ∧ u.isLetter = true := by
  rcases named.identified binder listed with ⟨index, isTerm, identifier⟩
  rw [TypedBinder.display, isTerm, Term.display]
  cases shape : binder.name with
  | nil =>
      rw [shape] at identifier
      exact identifier.elim
  | cons u rest =>
      rw [shape] at identifier
      split
      · exact ⟨u, rest, rfl, identifier.1⟩
      · exact ⟨u, _, rfl, identifier.1⟩

end Inference

/-! ## Objects with words for keys -/

namespace Json

theorem digit?_of_isLetter {u : CodeUnit} (letter : u.isLetter = true) : Numeral.digit? 10 u = none := by
  have large (n : Nat) : (some (n + 10)).filter (fun digit => digit < 10) = none := by
    rw [Option.filter_some, if_neg (by simp)]
  simp only [Numeral.digit?, CodeUnit.isDigit_of_isLetter letter, Bool.false_eq_true, if_false]
  split
  · exact large _
  · split
    · exact large _
    · rfl

/-- A key that starts with a letter is no number. -/
theorem index?_of_isLetter {u : CodeUnit} (letter : u.isLetter = true) (rest : Text) :
    index? (u :: rest) = none := by
  rw [index?, Numeral.positional?, Numeral.extend?, digit?_of_isLetter letter]

theorem ne_reserved_of_isLetter {u : CodeUnit} (letter : u.isLetter = true) (rest : Text) :
    u :: rest ≠ reserved := by
  intro same
  have first : u = '_' := (List.cons.inj same).1
  rw [first] at letter
  cases letter

/-- Members with different keys that start with letters are listed as they come. -/
theorem record_eq {members : List (Text × Json)} (nodup : (members.map Prod.fst).Nodup)
    (words : forall member, member ∈ members -> exists u rest, member.1 = u :: rest ∧ u.isLetter = true) :
    record members = object members := by
  have kept : members.filter (fun member => member.1 ≠ reserved) = members := by
    rw [List.filter_eq_self]
    intro member listed
    rcases words member listed with ⟨u, rest, isKey, letter⟩
    rw [isKey]
    exact decide_eq_true (ne_reserved_of_isLetter letter rest)
  have unnumbered : forall member, member ∈ members -> index? member.1 = none := by
    intro member listed
    rcases words member listed with ⟨u, rest, isKey, letter⟩
    rw [isKey]
    exact index?_of_isLetter letter rest
  have noNumbers : members.filterMap (fun member => (index? member.1).map (fun n => (n, member))) = [] := by
    rw [List.filterMap_eq_nil_iff]
    intro member listed
    rw [unnumbered member listed]
    rfl
  have allNamed : members.filter (fun member => (index? member.1).isNone) = members := by
    rw [List.filter_eq_self]
    intro member listed
    rw [unnumbered member listed]
    rfl
  rw [record, kept, listed, Table.entries_ofList members nodup, noNumbers, allNamed,
    List.mergeSort_nil, List.map_nil, List.nil_append]

end Json

/-! ## Binders on lines -/

/-- Items that are picked by one label after another are all items, if each has one of the labels. -/
theorem flatMap_filter_perm {A K : Type} [DecidableEq K] (label : A -> K) {labels : List K}
    (nodup : labels.Nodup) {items : List A} (covered : forall item, item ∈ items -> label item ∈ labels) :
    (labels.flatMap (fun key => items.filter (fun item => label item = key))).Perm items := by
  induction labels generalizing items with
  | nil =>
      have none : items = [] :=
        List.eq_nil_iff_forall_not_mem.mpr (fun item listed => List.not_mem_nil (covered item listed))
      rw [none]
      exact .nil
  | cons key rest ih =>
      rcases List.nodup_cons.mp nodup with ⟨fresh, restNodup⟩
      have others : forall item, item ∈ items.filter (fun item => !decide (label item = key)) ->
          label item ∈ rest := by
        intro item kept
        rcases List.mem_filter.mp kept with ⟨listed, other⟩
        exact List.mem_of_ne_of_mem (by simpa using other) (covered item listed)
      have later : rest.flatMap (fun next => items.filter (fun item => label item = next)) =
          rest.flatMap (fun next => (items.filter (fun item => !decide (label item = key))).filter
            (fun item => label item = next)) := by
        refine List.flatMap_congr ?_
        intro next listed
        rw [List.filter_filter]
        refine List.filter_congr ?_
        intro item _
        have different : next ≠ key := fun same => fresh (same ▸ listed)
        by_cases same : label item = next <;> simp [same, different]
      rw [List.flatMap_cons, later]
      exact ((ih restNodup others).append_left _).trans (List.filter_append_perm _ items)

namespace Inference

variable {binders : List TypedBinder}

def bindersOn (binders : List TypedBinder) (line : Nat) : List TypedBinder :=
  binders.filter (fun binder => binder.place.map Position.line = some line)

/-- A line with the comments for its binders behind it, if it has any. -/
theorem annotate_bindersOn (binders : List TypedBinder) (line : Nat) (text : Text) :
    annotate binders line text = if bindersOn binders line = [] then text
      else text ++ " " ++ Text.join " " ((bindersOn binders line).map comment) := by
  have comments : commentsOn binders line = (bindersOn binders line).map comment := rfl
  rw [annotate, comments]
  cases bindersOn binders line with
  | nil => rfl
  | cons first rest => rw [if_neg (List.cons_ne_nil first rest), List.map_cons]

/-- Binders that each have a place on one of the lines are all on these lines, each of them once. -/
theorem flatMap_bindersOn_perm {lines : Nat}
    (placed : forall binder, binder ∈ binders -> exists index, index < lines ∧
      binder.place.map Position.line = some (index + 1)) :
    ((List.range lines).flatMap (fun index => bindersOn binders (index + 1))).Perm binders := by
  have nodup : ((List.range lines).map (fun index => some (index + 1))).Nodup := by
    refine List.nodup_range.map ?_
    intro first second same
    exact Nat.succ.inj (Option.some.inj same)
  have covered : forall binder, binder ∈ binders ->
      binder.place.map Position.line ∈ (List.range lines).map (fun index => some (index + 1)) := by
    intro binder listed
    rcases placed binder listed with ⟨index, below, isLine⟩
    rw [isLine]
    exact List.mem_map_of_mem (List.mem_range.mpr below)
  have perm := flatMap_filter_perm (fun binder : TypedBinder => binder.place.map Position.line) nodup covered
  rwa [List.flatMap_map] at perm

/-- The comment for a binder tells what is shown for it. -/
theorem display_of_comment {first second : TypedBinder} (same : comment first = comment second) :
    first.display = second.display := by
  have cut (binder : TypedBinder) : comment binder =
      ("(* " ++ binder.display) ++ CodeUnit.ofChar ':' :: (" " ++ binder.type.name ++ " *)") := by
    rw [comment, List.append_assoc, List.append_assoc]
    rfl
  have last (type : Ground) : CodeUnit.ofChar ':' ∉ " " ++ type.name ++ " *)" := by
    cases type <;> decide
  rw [cut, cut] at same
  exact List.append_cancel_left (Text.append_separator_inj (last _) (last _) same).1

/-! ## Programs -/

/-- The binders are the bindings of the program, one for each, and stand where these stand. -/
structure Located (source : Text) (e : Expr) (binders : List TypedBinder) : Prop where
  one_each : (binders.map (fun binder => binder.binding)).Perm (e.lets 0)
  in_order : (e.lets 0).map Binding.place = Token.letPlaces (Scan.run source).tokens
  starts : forall binder, binder ∈ binders -> exists place, binder.place = some place ∧
    Source.StartsAt source "let" place

/-- Every format has one entry for each binder, in the order of the binders.  In the source the entry
is on the line of the binder, and the line is unchanged in front of it. -/
structure Shown (inference : Inference) (source : Text) (typing : Typing) : Prop where
  names : (typing.binders.map TypedBinder.display).Nodup
  report : Text.lines inference.report = ("Type: " ++ typing.type.name) ::
    typing.binders.map (fun binder => "Type(" ++ binder.display ++ "): " ++ binder.type.name)
  json : forall width, inference.json width = Json.write (Json.indentOf width)
    (.object [("success", .bool true), ("type", .string typing.type.name),
      ("bindings", .object (typing.binders.map (fun binder => (binder.display, .string binder.type.name))))])
  inline : Text.lines (inference.inline source) = (Text.lines source).mapIdx (fun index line =>
    if bindersOn typing.binders (index + 1) = [] then line
    else line ++ " " ++ Text.join " " ((bindersOn typing.binders (index + 1)).map
      (fun binder => ("(* " : Text) ++ binder.display ++ ": " ++ binder.type.name ++ " *)")))
  comments : (typing.binders.map
    (fun binder => ("(* " : Text) ++ binder.display ++ ": " ++ binder.type.name ++ " *)")).Nodup
  once : ((List.range (Text.lines source).length).flatMap
    (fun index => bindersOn typing.binders (index + 1))).Perm typing.binders

theorem located_of_infer {source : Text} {e : Expr} (parsed : Source.parse source = .ok e)
    (wellScoped : e.isWellScoped = true) {comparison : Comparison} {inference : Inference}
    (inferred : e.infer comparison = .ok inference) {typing : Typing}
    (succeeded : inference.typing = .ok typing) : Located source e typing.binders := by
  have inOrder := Source.map_place_lets parsed
  have oneEach : (typing.binders.map (fun binder => binder.binding)).Perm (e.lets 0) := by
    rw [map_binding_binders wellScoped inferred succeeded]
    exact e.bindings_perm 0
  refine ⟨oneEach, inOrder, ?_⟩
  intro binder listed
  have isLet : binder.binding ∈ e.lets 0 := oneEach.subset (List.mem_map_of_mem listed)
  have place : binder.place ∈ Token.letPlaces (Scan.run source).tokens :=
    inOrder ▸ List.mem_map_of_mem isLet
  rcases List.mem_map.mp place with ⟨token, kept, isPlace⟩
  rcases List.mem_filter.mp kept with ⟨member, isWord⟩
  exact ⟨token.position, isPlace.symm, Source.startsAt_of_keyword member (of_decide_eq_true isWord)⟩

theorem lineFeed_not_mem_name (type : Ground) : CodeUnit.ofChar '\n' ∉ type.name := by
  cases type <;> decide

theorem Named.lines_report {inference : Inference} {typing : Typing} (named : Named typing.binders)
    (succeeded : inference.typing = .ok typing) :
    Text.lines inference.report = ("Type: " ++ typing.type.name) ::
      typing.binders.map (fun binder => "Type(" ++ binder.display ++ "): " ++ binder.type.name) := by
  rw [report, succeeded]
  refine Text.lines_unlines (List.cons_ne_nil _ _) ?_
  refine List.forall_mem_cons.mpr ⟨?_, ?_⟩
  · rw [List.mem_append, not_or]
    exact ⟨by decide, lineFeed_not_mem_name typing.type⟩
  · intro line member
    rcases List.mem_map.mp member with ⟨binder, listed, rfl⟩
    simp only [List.mem_append, not_or]
    refine ⟨⟨⟨by decide, ?_⟩, by decide⟩, lineFeed_not_mem_name binder.type⟩
    intro inDisplay
    exact absurd (named.units binder listed _ inDisplay) (by decide)

theorem Named.json_eq {inference : Inference} {typing : Typing} (named : Named typing.binders)
    (succeeded : inference.typing = .ok typing) (width : Int) :
    inference.json width = Json.write (Json.indentOf width)
      (.object [("success", .bool true), ("type", .string typing.type.name),
        ("bindings",
          .object (typing.binders.map (fun binder => (binder.display, .string binder.type.name))))]) := by
  have recorded : Json.record (typing.binders.map (fun binder => (binder.display, .string binder.type.name))) =
      .object (typing.binders.map (fun binder => (binder.display, .string binder.type.name))) := by
    refine Json.record_eq ?_ ?_
    · rw [List.map_map]
      exact named.nodup_display
    · intro member listed
      rcases List.mem_map.mp listed with ⟨binder, inBinders, rfl⟩
      exact named.exists_letter inBinders
  rw [json, toJson, succeeded, ← recorded]

theorem Named.lines_inline {inference : Inference} {typing : Typing} (named : Named typing.binders)
    (succeeded : inference.typing = .ok typing) (source : Text) :
    Text.lines (inference.inline source) = (Text.lines source).mapIdx (fun index line =>
      if bindersOn typing.binders (index + 1) = [] then line
      else line ++ " " ++ Text.join " " ((bindersOn typing.binders (index + 1)).map comment)) := by
  rw [inline, succeeded]
  simp only [← annotate_bindersOn]
  refine Text.lines_unlines ?_ ?_
  · rw [ne_eq, List.mapIdx_eq_nil_iff]
    exact Text.splitOn_ne_nil _ source
  · intro part member
    rcases List.mem_mapIdx.mp member with ⟨index, below, rfl⟩
    rw [annotate_eq, List.mem_append, not_or]
    exact ⟨Text.not_mem_of_mem_lines (List.getElem_mem below), (idle_addition named.units _).oneLine⟩

theorem Named.nodup_comment (named : Named binders) : (binders.map comment).Nodup := by
  have names := named.nodup_display
  rw [List.Nodup, List.pairwise_map] at names ⊢
  exact names.imp (fun different same => different (display_of_comment same))

theorem Located.once {source : Text} {e : Expr} (located : Located source e binders) :
    ((List.range (Text.lines source).length).flatMap (fun index => bindersOn binders (index + 1))).Perm
      binders := by
  apply flatMap_bindersOn_perm
  intro binder listed
  rcases located.starts binder listed with ⟨place, isPlace, index, line, isIndex, isLine, _⟩
  refine ⟨index, (List.getElem?_eq_some_iff.mp isLine).1, ?_⟩
  rw [isPlace, Option.map_some, isIndex]

end Inference

namespace Source

/-- No format loses or misplaces a binder.  The binders of a program with types are its bindings, one
for each, and every format has one entry for each of them: a line of the report, a member of the
object, and a comment on the line of the source where the word `let` of the binder starts. -/
theorem binders_shown (source : Text) (e : Expr) (parsed : parse source = .ok e)
    (wellScoped : e.isWellScoped = true) (comparison : Comparison) (inference : Inference)
    (inferred : e.infer comparison = .ok inference) (typing : Typing)
    (succeeded : inference.typing = .ok typing) :
    Inference.Located source e typing.binders ∧ inference.Shown source typing := by
  have located := Inference.located_of_infer parsed wellScoped inferred succeeded
  have named := Inference.named_of_infer (writable_of_parse parsed) wellScoped inferred succeeded
  exact ⟨located, {
    names := named.nodup_display
    report := named.lines_report succeeded
    json := named.json_eq succeeded
    inline := named.lines_inline succeeded source
    comments := named.nodup_comment
    once := located.once }⟩

/-- Two binders of one name, on the first line and behind a comment over two lines. -/
theorem binders_shown_remarked : parse remarkedSource = .ok remarked ∧ remarked.isWellScoped = true ∧
    exists inference typing, remarked.infer .int = .ok inference ∧ inference.typing = .ok typing ∧
      typing.binders.map TypedBinder.display = ["x", "x#1"] ∧
      Inference.Located remarkedSource remarked typing.binders ∧
      inference.Shown remarkedSource typing := by
  have parsed : parse remarkedSource = .ok remarked := by decide +kernel
  have wellScoped : remarked.isWellScoped = true := by decide
  rcases exists_of_computed remarked .int (fun _ typing => typing.binders.map TypedBinder.display)
    ["x", "x#1"] (by decide +kernel) with ⟨inference, typing, inferred, succeeded, displays⟩
  exact ⟨parsed, wellScoped, inference, typing, inferred, succeeded, displays,
    binders_shown remarkedSource remarked parsed wellScoped .int inference inferred typing succeeded⟩

end Source

end Monotype
