import Monotype.Proofs.Placeless
import Monotype.Proofs.Grammar.Soundness
import Monotype.Proofs.Segment
import Monotype.Source

namespace Monotype

/-!
# Layout

Between its tokens a text may have any blanks: blank units, comments up to the ends of their lines and
closed block comments.  A token that is followed by a blank unit ends there, whatever it may be the
beginning of.  So pieces that can be tokens, written one behind the other with such blanks, are cut
into these pieces again.  As reading pays no heed to places, a text without lexical faults and every
other layout of its tokens are read as the same tree or are refused with the same message.
-/

/-! ## Blanks -/

namespace Text

/-- A sequence of blank units, comments up to the ends of their lines and closed block comments. -/
inductive Blank : Text -> Prop where
  | nil : Blank []
  | unit {u : CodeUnit} {rest : Text} (isBlank : u.isBlank = true) (blank : Blank rest) : Blank (u :: rest)
  | remark {body rest : Text} (oneLine : CodeUnit.ofChar '\n' ∉ body) (blank : Blank rest) :
      Blank ('-' :: '-' :: (body ++ CodeUnit.ofChar '\n' :: rest))
  | block {body rest : Text} (unclosed : ¬ Lexeme.closing <:+: body) (blank : Blank rest) :
      Blank ('(' :: '*' :: (body ++ Lexeme.closing ++ rest))

/-- The parts in order, each followed by a blank that begins with a blank unit. -/
inductive Spaced : List Text -> Text -> Prop where
  | nil : Spaced [] []
  | cons (part : Text) {blank : Text} (between : Blank blank)
      (begins : blank.head?.any CodeUnit.isBlank = true) {parts : List Text} {rest : Text}
      (later : Spaced parts rest) : Spaced (part :: parts) (part ++ (blank ++ rest))

/-- The text is a layout of the parts: a blank, and then each part with a blank behind it. -/
def LaidOut (parts : List Text) (text : Text) : Prop :=
  exists before spaced, Blank before ∧ Spaced parts spaced ∧ text = before ++ spaced

theorem edge_blank {u : CodeUnit} (isBlank : u.isBlank = true) (rest : Text) : Edge (u :: rest) := by
  intro v head
  cases head
  rw [Bool.eq_false_iff]
  intro wordUnit
  rw [CodeUnit.isBlank_of_isWordUnit wordUnit] at isBlank
  cases isBlank

/-- A blank consists of gaps, whatever follows it. -/
theorem Blank.exists_gaps {blank : Text} (isBlank : Blank blank) :
    exists gaps, (forall lexeme, lexeme ∈ gaps -> lexeme.role = .gap) ∧
      gaps.flatMap Lexeme.text = blank ∧ forall after, Lexeme.Chained after gaps := by
  induction isBlank with
  | nil => exact ⟨[], List.forall_mem_nil _, rfl, fun _ => trivial⟩
  | @unit u rest isBlank _ ih =>
      rcases ih with ⟨gaps, empty, rfl, chained⟩
      refine ⟨⟨.gap, [u]⟩ :: gaps, List.forall_mem_cons.mpr ⟨rfl, empty⟩, rfl, ?_⟩
      exact fun after => ⟨Lexeme.leads_blank isBlank _, chained after⟩
  | @remark body rest oneLine _ ih =>
      rcases ih with ⟨gaps, empty, rfl, chained⟩
      have feed : CodeUnit.isBlank '\n' = true := rfl
      refine ⟨Lexeme.remark body :: ⟨.gap, [CodeUnit.ofChar '\n']⟩ :: gaps, ?_, rfl, ?_⟩
      · exact List.forall_mem_cons.mpr ⟨rfl, List.forall_mem_cons.mpr ⟨rfl, empty⟩⟩
      · intro after
        have leads := (Lexeme.leads_remark_iff body
          (CodeUnit.ofChar '\n' :: (gaps.flatMap Lexeme.text ++ after))).mpr ⟨oneLine, endsLine_lineFeed _⟩
        exact ⟨leads, Lexeme.leads_blank feed _, chained after⟩
  | @block body rest unclosed _ ih =>
      rcases ih with ⟨gaps, empty, rfl, chained⟩
      refine ⟨Lexeme.block body :: gaps, List.forall_mem_cons.mpr ⟨rfl, empty⟩, rfl, ?_⟩
      exact fun after => ⟨Lexeme.leads_block unclosed _, chained after⟩

end Text

/-! ## Tokens in front of blanks -/

namespace Lexeme

variable {lexeme : Lexeme} {after : Text}

/-- A token ends where a blank unit follows. -/
theorem Segment.before_blank {kind : Token.Kind} (isToken : lexeme.role = .token kind)
    (segment : lexeme.Segment after) {u : CodeUnit} (isBlank : u.isBlank = true) (rest : Text) :
    lexeme.Segment (u :: rest) := by
  have edge := Text.edge_blank isBlank rest
  cases segment with
  | keyword word => exact .keyword word edge
  | identifier isName => exact .identifier isName edge
  | number digit units _ literal => exact .number digit units edge literal
  | pair writes => exact .pair writes _
  | sign writes =>
      refine .sign writes ?_
      intro v head
      cases head
      exact pair_not_mem_pairs isBlank _
  | _ => cases isToken

end Lexeme

/-- The kind and the text are those of a token that some text has, other than the end token. -/
def Token.Producible (spelling : Token.Kind × Text) : Prop :=
  exists source token, token ∈ (Scan.run source).tokens ∧ token.kind ≠ .endOfInput ∧
    token.spelling = spelling

theorem Token.Producible.exists_segment {spelling : Token.Kind × Text} (producible : Producible spelling) :
    exists after, Lexeme.Segment ⟨.token spelling.1, spelling.2⟩ after := by
  rcases producible with ⟨source, token, member, notEnd, rfl⟩
  rw [Scan.tokens_run, List.mem_append, List.mem_singleton] at member
  rcases member with inBody | rfl
  · rcases Lexeme.exists_of_mem_tokensAt inBody with ⟨_, after, _, _, segment⟩
    exact ⟨after, segment⟩
  · exact absurd rfl notEnd

/-! ## Layouts are cut into their parts -/

theorem Lexeme.filterMap_spelling?_gaps {gaps : List Lexeme}
    (empty : forall lexeme, lexeme ∈ gaps -> lexeme.role = .gap) : gaps.filterMap spelling? = [] := by
  rw [List.filterMap_eq_nil_iff]
  intro gap member
  rw [spelling?, empty gap member]

namespace Text

variable {spellings : List (Token.Kind × Text)} {text : Text}

/-- The text is cut into tokens with these kinds and texts, gaps and nothing else. -/
structure Spells (text : Text) (spellings : List (Token.Kind × Text)) : Prop where
  clean : Lexeme.Clean (Lexeme.split text)
  tokens : (Lexeme.split text).filterMap Lexeme.spelling? = spellings

theorem Spells.blank {blank : Text} (isBlank : Blank blank) (spells : text.Spells spellings) :
    Spells (blank ++ text) spellings := by
  rcases isBlank.exists_gaps with ⟨gaps, empty, rfl, chained⟩
  have cut := Lexeme.split_of_chained (chained text)
  constructor
  · rw [cut, Lexeme.clean_append_iff]
    exact ⟨Lexeme.clean_of_gaps empty, spells.clean⟩
  · rw [cut, List.filterMap_append, Lexeme.filterMap_spelling?_gaps empty, spells.tokens, List.nil_append]

theorem Spells.token {kind : Token.Kind} {part : Text} (leads : Lexeme.Leads ⟨.token kind, part⟩ text)
    (spells : text.Spells spellings) : Spells (part ++ text) ((kind, part) :: spellings) := by
  have cut : Lexeme.split (part ++ text) = ⟨.token kind, part⟩ :: Lexeme.split text :=
    Lexeme.split_of_leads leads
  constructor
  · rw [cut]
    refine List.forall_mem_cons.mpr ⟨?_, spells.clean⟩
    intro fault isFault
    cases isFault
  · rw [cut, List.filterMap_cons, Lexeme.spelling?_token, spells.tokens]

theorem Spaced.spells (producible : forall spelling, spelling ∈ spellings -> Token.Producible spelling)
    (spaced : Spaced (spellings.map Prod.snd) text) : text.Spells spellings := by
  induction spellings generalizing text with
  | nil =>
      cases spaced
      exact ⟨List.forall_mem_nil _, rfl⟩
  | cons spelling others ih =>
      rcases List.forall_mem_cons.mp producible with ⟨first, later⟩
      cases spaced with
      | @cons _ blank between begins _ rest spaced =>
          cases blank with
          | nil => cases begins
          | cons u blank =>
              rcases first.exists_segment with ⟨_, segment⟩
              have leads := (segment.before_blank rfl begins (blank ++ rest)).leads
              exact .token leads (.blank between (ih later spaced))

theorem LaidOut.spells (producible : forall spelling, spelling ∈ spellings -> Token.Producible spelling)
    (laidOut : LaidOut (spellings.map Prod.snd) text) : text.Spells spellings := by
  rcases laidOut with ⟨before, spaced, isBlank, isSpaced, rfl⟩
  exact .blank isBlank (isSpaced.spells producible)

end Text

namespace Scan

variable {text : Text} {spellings : List (Token.Kind × Text)}

theorem diagnostics_of_spells (spells : text.Spells spellings) : (run text).diagnostics = [] :=
  Lexeme.diagnostics_placed spells.clean .start

theorem spellings_of_spells (spells : text.Spells spellings) :
    (run text).tokens.map Token.spelling = spellings ++ [(.endOfInput, [])] := by
  rcases exists_tokens text with ⟨body, tokens, spelled⟩
  rw [tokens, List.map_append, spelled, spells.tokens]
  rfl

theorem spellings_dropLast (text : Text) :
    (run text).tokens.map Token.spelling =
      (run text).tokens.dropLast.map Token.spelling ++ [(.endOfInput, [])] := by
  rw [tokens_run, List.dropLast_concat, List.map_append]
  rfl

theorem producible_of_mem_dropLast {token : Token} (member : token ∈ (run text).tokens.dropLast) :
    Token.Producible token.spelling := by
  refine ⟨text, token, List.dropLast_subset _ member, ?_, rfl⟩
  rw [tokens_run, List.dropLast_concat] at member
  exact Lexeme.kind_ne_of_mem_tokensAt member

end Scan

/-! ## Layouts are read alike -/

namespace Source

/-- As the tokens of a text end with an end token, they are a program or one of them is refused. -/
theorem program_run (text : Text) :
    (exists e, (Parser.ofTokens (Scan.run text).tokens).program.1 = .ok e) ∨
      exists diagnostic, (Parser.ofTokens (Scan.run text).tokens).program.1 = .error (.refused diagnostic) := by
  rw [Scan.tokens_run]
  cases program : (Parser.ofTokens (Lexeme.tokensAt .start (Lexeme.split text) ++
      [Token.finish (Position.start.after text)])).program with
  | mk answer left =>
      cases answer with
      | ok e => exact Or.inl ⟨e, rfl⟩
      | error failure =>
          rcases Parser.exists_refused rfl program with ⟨diagnostic, _, rfl, _⟩
          exact Or.inr ⟨diagnostic, rfl⟩

/-- Texts without lexical faults whose tokens differ in places alone are read alike. -/
theorem parse_alike {text other : Text} (clean : (Scan.run text).diagnostics = [])
    (otherClean : (Scan.run other).diagnostics = [])
    (spelled : (Scan.run text).tokens.map Token.spelling = (Scan.run other).tokens.map Token.spelling) :
    (exists e e', parse text = .ok e ∧ parse other = .ok e' ∧ e'.bare = e.bare) ∨
      exists diagnostic diagnostic', parse text = .error [diagnostic] ∧
        parse other = .error [diagnostic'] ∧ diagnostic'.message = diagnostic.message := by
  have alike := Parser.program_alike spelled
  rw [parse, parse, if_pos clean, if_pos otherClean]
  generalize (Parser.ofTokens (Scan.run other).tokens).program.1 = answer at alike
  rcases program_run text with ⟨e, accepted⟩ | ⟨diagnostic, refused⟩
  · rw [accepted] at alike ⊢
    cases alike with
    | accepted same => exact Or.inl ⟨_, _, rfl, rfl, same.symm⟩
  · rw [refused] at alike ⊢
    cases alike with
    | refused fault => exact Or.inr ⟨_, _, rfl, rfl, rfl⟩

/-- Layout does not matter.  Pieces that can be tokens are the tokens of every layout of them, and
nothing is wrong with it.  So a text without lexical faults and every layout of its tokens are read
as the same tree or are refused with the same message. -/
theorem parse_layout :
    (forall (spellings : List (Token.Kind × Text)) (text : Text),
      (forall spelling, spelling ∈ spellings -> Token.Producible spelling) ->
      Text.LaidOut (spellings.map Prod.snd) text ->
      (Scan.run text).diagnostics = [] ∧
        (Scan.run text).tokens.map Token.spelling = spellings ++ [(.endOfInput, [])]) ∧
    forall source other : Text, (Scan.run source).diagnostics = [] ->
      Text.LaidOut ((Scan.run source).tokens.dropLast.map Token.text) other ->
      (exists e e', parse source = .ok e ∧ parse other = .ok e' ∧ e'.bare = e.bare) ∨
        exists diagnostic diagnostic', parse source = .error [diagnostic] ∧
          parse other = .error [diagnostic'] ∧ diagnostic'.message = diagnostic.message := by
  refine ⟨?_, ?_⟩
  · intro spellings text producible laidOut
    have spells := laidOut.spells producible
    exact ⟨Scan.diagnostics_of_spells spells, Scan.spellings_of_spells spells⟩
  · intro source other clean laidOut
    have producible : forall spelling, spelling ∈ (Scan.run source).tokens.dropLast.map Token.spelling ->
        Token.Producible spelling := by
      rintro _ member
      rcases List.mem_map.mp member with ⟨token, listed, rfl⟩
      exact Scan.producible_of_mem_dropLast listed
    have texts : (Scan.run source).tokens.dropLast.map Token.text =
        ((Scan.run source).tokens.dropLast.map Token.spelling).map Prod.snd := by
      rw [List.map_map]
      rfl
    have spells := Text.LaidOut.spells producible (texts ▸ laidOut)
    refine parse_alike clean (Scan.diagnostics_of_spells spells) ?_
    rw [Scan.spellings_of_spells spells, Scan.spellings_dropLast]

/-- A text with no blanks at all. -/
def tight : Text :=
  "1<2"

/-- The same tokens between comments that are full of marks. -/
def spread : Text :=
  "--*)\n1\t(*-- (* **)<\r2 "

theorem laidOut_spread : Text.LaidOut ["1", "<", "2"] spread := by
  have shape : spread = Text.ofString "--*)\n" ++ (Text.ofString "1" ++ (Text.ofString "\t(*-- (* **)" ++
      (Text.ofString "<" ++ (Text.ofString "\r" ++ (Text.ofString "2" ++ (Text.ofString " " ++ [])))))) := by
    decide +kernel
  have before : Text.Blank "--*)\n" := by
    have remark : Text.ofString "--*)\n" =
        CodeUnit.ofChar '-' :: '-' :: (Text.ofString "*)" ++ CodeUnit.ofChar '\n' :: []) := by
      decide +kernel
    rw [remark]
    exact .remark (by decide +kernel) .nil
  have between : Text.Blank "\t(*-- (* **)" := by
    have block : Text.ofString "\t(*-- (* **)" =
        CodeUnit.ofChar '\t' :: '(' :: '*' :: (Text.ofString "-- (* *" ++ Lexeme.closing ++ []) := by
      decide +kernel
    rw [block]
    exact .unit rfl (.block (by decide +kernel) .nil)
  refine ⟨_, _, before, ?_, shape⟩
  exact .cons "1" between rfl (.cons "<" (.unit rfl .nil) rfl (.cons "2" (.unit rfl .nil) rfl .nil))

/-- Two signs that would open a comment are kept apart, and a program is read in both layouts. -/
theorem parse_layout_spread :
    Token.Producible (.symbol .minus, "-") ∧ Text.LaidOut ["-", "-"] "- - " ∧
    (Scan.run "- - ").tokens.map Token.spelling =
      [(.symbol .minus, Text.ofString "-"), (.symbol .minus, "-"), (.endOfInput, [])] ∧
    (Scan.run tight).diagnostics = [] ∧
    Text.LaidOut ((Scan.run tight).tokens.dropLast.map Token.text) spread ∧
    exists e e', parse tight = .ok e ∧ parse spread = .ok e' ∧ e'.bare = e.bare := by
  have producible : Token.Producible (.symbol .minus, "-") :=
    ⟨"-", ⟨.symbol .minus, "-", .start⟩, by decide +kernel, by decide, rfl⟩
  have apart : Text.LaidOut ["-", "-"] "- - " := by
    refine ⟨[], Text.ofString "-" ++ (Text.ofString " " ++ (Text.ofString "-" ++ (Text.ofString " " ++ []))),
      .nil, ?_, by decide +kernel⟩
    exact .cons "-" (.unit rfl .nil) rfl (.cons "-" (.unit rfl .nil) rfl .nil)
  have signs := parse_layout.1 [(.symbol .minus, "-"), (.symbol .minus, "-")] "- - "
    (by simpa using producible) apart
  have clean : (Scan.run tight).diagnostics = [] := by decide +kernel
  have texts : (Scan.run tight).tokens.dropLast.map Token.text = ["1", "<", "2"] := by decide +kernel
  have laidOut : Text.LaidOut ((Scan.run tight).tokens.dropLast.map Token.text) spread :=
    texts ▸ laidOut_spread
  refine ⟨producible, apart, signs.2, clean, laidOut, ?_⟩
  rcases parse_layout.2 tight spread clean laidOut with both | ⟨diagnostic, _, refused, _⟩
  · exact both
  · have accepted : (parse tight).isOk = true := by decide +kernel
    rw [refused] at accepted
    cases accepted

end Source

end Monotype
