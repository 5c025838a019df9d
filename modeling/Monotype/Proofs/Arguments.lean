import Monotype.Arguments
import Mathlib.Data.List.DropRight

namespace Monotype
namespace Arguments

/-!
# Reports about arguments

A positional argument says what to read: a file, or the standard input by `-`.  The arguments are
reported one after the other, each at most once: an unknown option, a bad value of an option, and a
positional argument that is one too many.

As long as no `-` stands beside another positional argument, the first positional argument counts
and all further ones are reported.  Otherwise this fails: a `-` is never reported and forgets the file
before it, so the file is the first one after the last `-`, and a name is one too many only if a file
has been named since then.
-/

/-! ## What is reported -/

/-- An argument that says what to read: `-`, or anything that does not start like an option. -/
def Positional (argument : Text) : Prop :=
  argument = ("-" : Text) ∨ argument.head? ≠ some '-'

instance : DecidablePred Positional :=
  fun argument => inferInstanceAs (Decidable (argument = ("-" : Text) ∨ argument.head? ≠ some '-'))

/-- The positional arguments in their order. -/
def positionals (argv : List Text) : List Text :=
  argv.filter (fun argument => Positional argument)

def flags : List Text := ["--help", "-h", "--eval", "--verbose"]

/-- An argument that starts like an option and is none. -/
structure UnknownOption (argument : Text) : Prop where
  dashed : ¬ Positional argument
  noFlag : argument ∉ flags
  noFormat : forall name, argument ≠ "--format=" ++ name
  noComparison : forall name, argument ≠ "--comparison=" ++ name

/-- What is wrong with an argument, where `surplus` says that a positional argument in its place is
one too many. -/
inductive Wrong (surplus : Prop) : Text -> Fault -> Prop where
  | format {name : Text} (unknown : name ∉ (["report", "json", "inline"] : List Text)) :
      Wrong surplus ("--format=" ++ name) (.unknownFormat name)
  | comparison {name : Text} (unknown : name ∉ (["int", "same"] : List Text)) :
      Wrong surplus ("--comparison=" ++ name) (.unknownComparison name)
  | option {argument : Text} (unknown : UnknownOption argument) :
      Wrong surplus argument (.unknownOption argument)
  | positional {argument : Text} (positional : Positional argument) (tooMany : surplus) :
      Wrong surplus argument (.unexpected argument)

/-- The faults of the arguments in their order, one for each argument with which something is wrong.
A positional argument is one too many if it is `surplus` after the arguments before it. -/
inductive Reported (surplus : List Text -> Text -> Prop) : List Text -> List Fault -> Prop where
  | nil : Reported surplus [] []
  | fine {argv : List Text} {faults : List Fault} {argument : Text} (before : Reported surplus argv faults)
      (right : forall fault, ¬ Wrong (surplus argv argument) argument fault) :
      Reported surplus (argv ++ [argument]) faults
  | faulty {argv : List Text} {faults : List Fault} {argument : Text} {fault : Fault}
      (before : Reported surplus argv faults) (wrong : Wrong (surplus argv argument) argument fault) :
      Reported surplus (argv ++ [argument]) (faults ++ [fault])

/-- Every positional argument after the first is one too many. -/
def AfterFirst (before : List Text) (_ : Text) : Prop :=
  positionals before ≠ []

/-- The first file that is named after the last `-`. -/
def named (argv : List Text) : Option Text :=
  ((positionals argv).rtakeWhile (fun argument => argument ≠ ("-" : Text))).head?

/-- A file is one too many if one has been named since the last `-`. -/
def AfterFile (before : List Text) (argument : Text) : Prop :=
  argument ≠ ("-" : Text) ∧ named before ≠ none

/-! ## One argument -/

/-- What an argument says, by its form. -/
inductive Means : Text -> Item -> Prop where
  | flag {argument : Text} {item : Item} (flag : argument ∈ flags)
      (harmless : item ∈ [Item.help, .evaluate, .verbose]) : Means argument item
  | format (name : Text) : Means ("--format=" ++ name) (.format name)
  | comparison (name : Text) : Means ("--comparison=" ++ name) (.comparison name)
  | standardInput : Means "-" .standardInput
  | unknown {argument : Text} (unknown : UnknownOption argument) : Means argument (.unknown argument)
  | file {argument : Text} (named : argument ≠ ("-" : Text)) (positional : Positional argument) :
      Means argument (.file argument)

theorem ne_append_of_after? {opening argument : Text} (other : Text.after? opening argument = none)
    (name : Text) : argument ≠ opening ++ name := by
  intro equal
  rw [(Text.after?_eq_some_iff opening argument name).mpr equal] at other
  cases other

theorem means_item (argument : Text) : Means argument (item argument) := by
  rw [item]
  by_cases help : argument = ("--help" : Text) ∨ argument = ("-h" : Text)
  · rw [if_pos help]
    rcases help with rfl | rfl <;> exact .flag (by decide +kernel) (by simp)
  rw [if_neg help]
  by_cases evaluate : argument = ("--eval" : Text)
  · rw [if_pos evaluate, evaluate]
    exact .flag (by decide +kernel) (by simp)
  rw [if_neg evaluate]
  by_cases verbose : argument = ("--verbose" : Text)
  · rw [if_pos verbose, verbose]
    exact .flag (by decide +kernel) (by simp)
  rw [if_neg verbose]
  have noFlag : argument ∉ flags := by
    rw [not_or] at help
    simp only [flags, List.mem_cons, List.not_mem_nil, or_false, not_or]
    exact ⟨help.1, help.2, evaluate, verbose⟩
  cases format : Text.after? "--format=" argument with
  | some name =>
      rw [(Text.after?_eq_some_iff _ _ _).mp format]
      exact .format name
  | none =>
      cases comparison : Text.after? "--comparison=" argument with
      | some name =>
          rw [(Text.after?_eq_some_iff _ _ _).mp comparison]
          exact .comparison name
      | none =>
          dsimp only
          by_cases dash : argument = ("-" : Text)
          · rw [if_pos dash, dash]
            exact .standardInput
          rw [if_neg dash]
          by_cases dashed : argument.head? = some '-'
          · rw [if_pos dashed]
            exact .unknown ⟨not_or.mpr ⟨dash, not_not.mpr dashed⟩, noFlag, ne_append_of_after? format,
              ne_append_of_after? comparison⟩
          · rw [if_neg dashed]
            exact .file dash (Or.inr dashed)

theorem format_unknown_iff (name : Text) :
    Format.ofText? name = none ↔ name ∉ (["report", "json", "inline"] : List Text) := by
  grind [Format.ofText?]

theorem comparison_unknown_iff (name : Text) :
    Comparison.ofText? name = none ↔ name ∉ (["int", "same"] : List Text) := by
  grind [Comparison.ofText?]

theorem not_positional_append {opening : Text} (dashes : opening.take 2 = ['-', '-']) (name : Text) :
    ¬ Positional (opening ++ name) := by
  have single : ("-" : Text).length = 1 := by decide +kernel
  rw [← List.take_append_drop 2 opening, dashes, List.append_assoc]
  rintro (dash | plain)
  · have lengths := congrArg List.length dash
    rw [single] at lengths
    simp at lengths
  · exact plain rfl

theorem format_not_positional (name : Text) : ¬ Positional ("--format=" ++ name) :=
  not_positional_append (by decide +kernel) name

theorem comparison_not_positional (name : Text) : ¬ Positional ("--comparison=" ++ name) :=
  not_positional_append (by decide +kernel) name

theorem format_ne_comparison (name other : Text) :
    ("--format=" : Text) ++ name ≠ ("--comparison=" : Text) ++ other := by
  intro equal
  have front := congrArg (List.take 3) equal
  rw [List.take_append_of_le_length (by decide +kernel),
    List.take_append_of_le_length (by decide +kernel)] at front
  exact absurd front (by decide +kernel)

theorem flag_form {argument : Text} (flag : argument ∈ flags) : ¬ Positional argument ∧
    (forall name, argument ≠ "--format=" ++ name) ∧ (forall name, argument ≠ "--comparison=" ++ name) := by
  have each : flags.all (fun argument => ¬ Positional argument ∧
      Text.after? "--format=" argument = none ∧ Text.after? "--comparison=" argument = none) = true := by
    decide +kernel
  have form := of_decide_eq_true (List.all_eq_true.mp each argument flag)
  exact ⟨form.1, ne_append_of_after? form.2.1, ne_append_of_after? form.2.2⟩

namespace Wrong

variable {surplus : Prop} {argument : Text} {fault : Fault}

theorem of_positional (positional : Positional argument) (wrong : Wrong surplus argument fault) :
    surplus ∧ fault = .unexpected argument := by
  cases wrong with
  | format _ => exact absurd positional (format_not_positional _)
  | comparison _ => exact absurd positional (comparison_not_positional _)
  | option unknown => exact absurd positional unknown.dashed
  | positional _ tooMany => exact ⟨tooMany, rfl⟩

theorem mono {other : Prop} (wrong : Wrong surplus argument fault)
    (implied : Positional argument -> surplus -> other) : Wrong other argument fault := by
  cases wrong with
  | format unknown => exact .format unknown
  | comparison unknown => exact .comparison unknown
  | option unknown => exact .option unknown
  | positional positional tooMany => exact .positional positional (implied positional tooMany)

theorem not_flag (wrong : Wrong surplus argument fault) : argument ∉ flags := by
  intro flag
  rcases flag_form flag with ⟨dashed, noFormat, noComparison⟩
  cases wrong with
  | format _ => exact noFormat _ rfl
  | comparison _ => exact noComparison _ rfl
  | option unknown => exact unknown.noFlag flag
  | positional positional _ => exact dashed positional

theorem of_format {name : Text} (wrong : Wrong surplus ("--format=" ++ name) fault) :
    Format.ofText? name = none := by
  generalize form : ("--format=" : Text) ++ name = argument at wrong
  cases wrong with
  | format unknown =>
      rw [format_unknown_iff, List.append_cancel_left form]
      exact unknown
  | comparison _ => exact absurd form (format_ne_comparison _ _)
  | option unknown => exact absurd form.symm (unknown.noFormat name)
  | positional positional _ => exact absurd (form ▸ positional) (format_not_positional name)

theorem of_comparison {name : Text} (wrong : Wrong surplus ("--comparison=" ++ name) fault) :
    Comparison.ofText? name = none := by
  generalize form : ("--comparison=" : Text) ++ name = argument at wrong
  cases wrong with
  | format _ => exact absurd form.symm (format_ne_comparison _ _)
  | comparison unknown =>
      rw [comparison_unknown_iff, List.append_cancel_left form]
      exact unknown
  | option unknown => exact absurd form.symm (unknown.noComparison name)
  | positional positional _ => exact absurd (form ▸ positional) (comparison_not_positional name)

end Wrong

/-- A positional argument sets the file if there is none, and `-` takes it away. -/
theorem file_add (arguments : Arguments) (argument : Text) :
    (arguments.add argument).file =
      if Positional argument then
        if argument = ("-" : Text) then none else arguments.file.or (some argument)
      else arguments.file := by
  have meant := means_item argument
  rw [add]
  generalize item argument = read at meant
  cases meant with
  | flag flag harmless =>
      rw [if_neg (flag_form flag).1]
      simp only [List.mem_cons, List.not_mem_nil, or_false] at harmless
      rcases harmless with rfl | rfl | rfl <;> rfl
  | format name =>
      rw [if_neg (format_not_positional name)]
      dsimp only
      cases Format.ofText? name <;> rfl
  | comparison name =>
      rw [if_neg (comparison_not_positional name)]
      dsimp only
      cases Comparison.ofText? name <;> rfl
  | standardInput =>
      have positional : Positional "-" := Or.inl rfl
      rw [if_pos positional, if_pos rfl]
  | unknown unknown =>
      rw [if_neg unknown.dashed]
      rfl
  | file named positional =>
      rw [if_pos positional, if_neg named]
      cases present : arguments.file with
      | none => rfl
      | some _ => exact present

/-- What is wrong with an argument is reported behind the earlier faults.  Here a file is one too many
if there is one already. -/
theorem faults_add (arguments : Arguments) (argument : Text) :
    ((forall fault, ¬ Wrong (argument ≠ ("-" : Text) ∧ arguments.file ≠ none) argument fault) ∧
      (arguments.add argument).faults = arguments.faults) ∨
    (exists fault, Wrong (argument ≠ ("-" : Text) ∧ arguments.file ≠ none) argument fault ∧
      (arguments.add argument).faults = arguments.faults ++ [fault]) := by
  have meant := means_item argument
  rw [add]
  generalize item argument = read at meant
  cases meant with
  | flag flag harmless =>
      refine Or.inl ⟨fun fault wrong => wrong.not_flag flag, ?_⟩
      simp only [List.mem_cons, List.not_mem_nil, or_false] at harmless
      rcases harmless with rfl | rfl | rfl <;> rfl
  | format name =>
      dsimp only
      cases known : Format.ofText? name with
      | some format =>
          refine Or.inl ⟨fun fault wrong => ?_, rfl⟩
          rw [wrong.of_format] at known
          cases known
      | none => exact Or.inr ⟨_, .format ((format_unknown_iff name).mp known), rfl⟩
  | comparison name =>
      dsimp only
      cases known : Comparison.ofText? name with
      | some rule =>
          refine Or.inl ⟨fun fault wrong => ?_, rfl⟩
          rw [wrong.of_comparison] at known
          cases known
      | none => exact Or.inr ⟨_, .comparison ((comparison_unknown_iff name).mp known), rfl⟩
  | standardInput =>
      refine Or.inl ⟨fun fault wrong => ?_, rfl⟩
      exact (wrong.of_positional (Or.inl rfl)).1.1 rfl
  | unknown unknown => exact Or.inr ⟨_, .option unknown, rfl⟩
  | file named positional =>
      cases present : arguments.file with
      | none =>
          refine Or.inl ⟨fun fault wrong => ?_, rfl⟩
          exact (wrong.of_positional positional).1.2 rfl
      | some _ => exact Or.inr ⟨_, .positional positional ⟨named, by simp⟩, rfl⟩

/-! ## All arguments -/

theorem parse_concat (argv : List Text) (argument : Text) :
    parse (argv ++ [argument]) = (parse argv).add argument := by
  rw [parse, List.foldl_concat, parse]

theorem positionals_append (argv more : List Text) :
    positionals (argv ++ more) = positionals argv ++ positionals more :=
  List.filter_append argv more

theorem positionals_singleton {argument : Text} (positional : Positional argument) :
    positionals [argument] = [argument] :=
  List.filter_cons_of_pos (decide_eq_true positional)

theorem parse_file (argv : List Text) : (parse argv).file = named argv := by
  induction argv using List.reverseRecOn with
  | nil => rfl
  | append_singleton argv argument ih =>
      rw [parse_concat, file_add, ih, named, named, positionals_append]
      by_cases positional : Positional argument
      · rw [if_pos positional, positionals_singleton positional, List.rtakeWhile_concat]
        by_cases dash : argument = ("-" : Text)
        · simp [dash]
        · simp [dash, List.head?_append]
      · have nothing : positionals [argument] = [] := List.filter_cons_of_neg (by simp [positional])
        rw [if_neg positional, nothing, List.append_nil]

theorem parse_reported (argv : List Text) : Reported AfterFile argv (parse argv).faults := by
  induction argv using List.reverseRecOn with
  | nil => exact .nil
  | append_singleton argv argument ih =>
      have step := faults_add (parse argv) argument
      rw [← parse_concat, parse_file] at step
      rcases step with ⟨right, faults_eq⟩ | ⟨fault, wrong, faults_eq⟩
      · rw [faults_eq]
        exact .fine ih right
      · rw [faults_eq]
        exact .faulty ih wrong

/-! ## The first positional argument -/

namespace Reported

variable {surplus : List Text -> Text -> Prop} {argv : List Text} {faults : List Fault}

/-- The positional arguments that are reported are those that are one too many in some place. -/
theorem mem_unexpected_iff (reported : Reported surplus argv faults) (argument : Text) :
    .unexpected argument ∈ faults ↔
      exists before, before ++ [argument] <+: argv ∧ Positional argument ∧ surplus before argument := by
  induction reported with
  | nil => simp
  | @fine argv faults last before right ih =>
      rw [ih]
      simp only [List.prefix_concat_iff, List.append_singleton_inj]
      constructor
      · rintro ⟨before, place, rest⟩
        exact ⟨before, Or.inr place, rest⟩
      · rintro ⟨before, ⟨rfl, rfl⟩ | place, positional, tooMany⟩
        · exact absurd (.positional positional tooMany) (right _)
        · exact ⟨before, place, positional, tooMany⟩
  | @faulty argv faults last fault before wrong ih =>
      rw [List.mem_append, ih, List.mem_singleton]
      simp only [List.prefix_concat_iff, List.append_singleton_inj]
      constructor
      · rintro (⟨before, place, rest⟩ | rfl)
        · exact ⟨before, Or.inr place, rest⟩
        · cases wrong with
          | positional positional tooMany => exact ⟨argv, Or.inl ⟨rfl, rfl⟩, positional, tooMany⟩
      · rintro ⟨before, ⟨rfl, rfl⟩ | place, positional, tooMany⟩
        · exact Or.inr (wrong.of_positional positional).2.symm
        · exact Or.inl ⟨before, place, positional, tooMany⟩

/-- Reports agree if the same positional arguments are one too many. -/
theorem congr {other : List Text -> Text -> Prop} (reported : Reported surplus argv faults)
    (same : forall before argument, before ++ [argument] <+: argv -> Positional argument ->
      (surplus before argument ↔ other before argument)) : Reported other argv faults := by
  induction reported with
  | nil => exact .nil
  | @fine argv faults last before right ih =>
      have here := same argv last (List.prefix_refl _)
      refine .fine (ih fun before argument place => same before argument (place.trans ⟨_, rfl⟩)) ?_
      intro fault wrong
      exact right fault (wrong.mono (fun positional => (here positional).mpr))
  | @faulty argv faults last fault before wrong ih =>
      have here := same argv last (List.prefix_refl _)
      refine .faulty (ih fun before argument place => same before argument (place.trans ⟨_, rfl⟩)) ?_
      exact wrong.mono (fun positional => (here positional).mp)

end Reported

theorem positionals_prefix {argv before : List Text} {argument : Text}
    (place : before ++ [argument] <+: argv) (positional : Positional argument) :
    positionals before ++ [argument] <+: positionals argv := by
  rw [← positionals_singleton positional, ← positionals_append]
  exact place.filter (fun argument => Positional argument)

/-- Every positional argument has its place among the arguments. -/
theorem exists_place {argv earlier later : List Text} {argument : Text}
    (split : positionals argv = earlier ++ argument :: later) :
    exists before, before ++ [argument] <+: argv ∧ positionals before = earlier := by
  rcases List.filter_eq_append_iff.mp split with ⟨front, back, rfl, front_eq, back_eq⟩
  rcases List.filter_eq_cons_iff.mp back_eq with ⟨skipped, after, rfl, options, _, _⟩
  have noneSkipped : positionals skipped = [] := List.filter_eq_nil_iff.mpr options
  refine ⟨front ++ skipped, ⟨after, by simp⟩, ?_⟩
  rw [positionals_append, noneSkipped, List.append_nil]
  exact front_eq

theorem named_of_no_dash {argv : List Text} (noDash : ("-" : Text) ∉ positionals argv) :
    named argv = (positionals argv).head? := by
  have all : (positionals argv).rtakeWhile (fun argument => argument ≠ ("-" : Text)) =
      positionals argv := by
    rw [List.rtakeWhile_eq_self_iff]
    intro argument member
    exact decide_eq_true (fun dash => noDash (dash ▸ member))
  rw [named, all]

theorem named_eq_none_iff (argv : List Text) : named argv = none ↔
    forall nonempty : positionals argv ≠ [], (positionals argv).getLast nonempty = ("-" : Text) := by
  rw [named, List.head?_eq_none_iff, List.rtakeWhile_eq_nil_iff]
  simp only [ne_eq, decide_not, Bool.not_eq_eq_eq_not, Bool.not_true, decide_eq_false_iff_not, not_not]

/-- If no `-` stands beside another positional argument, then the same ones are one too many. -/
theorem afterFile_iff_afterFirst {argv before : List Text} {argument : Text}
    (plain : ("-" : Text) ∉ positionals argv ∨ positionals argv = [("-" : Text)])
    (place : before ++ [argument] <+: argv) (positional : Positional argument) :
    AfterFile before argument ↔ AfterFirst before argument := by
  have front := positionals_prefix place positional
  rcases plain with noDash | single
  · have absent := mt (fun member => front.subset member) noDash
    rw [List.mem_append, List.mem_singleton, not_or] at absent
    rw [AfterFile, AfterFirst, named_of_no_dash absent.1, ne_eq (List.head? _), List.head?_eq_none_iff]
    exact and_iff_right (Ne.symm absent.2)
  · rw [single] at front
    cases earlier : positionals before with
    | nil =>
        rw [earlier, List.nil_append, List.cons_prefix_cons] at front
        exact iff_of_false (fun tooMany => tooMany.1 front.1) (fun later => later earlier)
    | cons first rest =>
        rw [earlier] at front
        have lengths := front.length_le
        simp at lengths

/-- A `-` that stands beside another positional argument is not reported. -/
theorem plain_of_reported {argv : List Text} (reported : Reported AfterFirst argv (parse argv).faults)
    (file_eq : (parse argv).file =
      (positionals argv).head?.filter (fun argument => argument ≠ ("-" : Text))) :
    ("-" : Text) ∉ positionals argv ∨ positionals argv = [("-" : Text)] := by
  have leading (earlier later : List Text)
      (split : positionals argv = earlier ++ ("-" : Text) :: later) : earlier = [] := by
    by_contra nonempty
    rcases exists_place split with ⟨before, place, before_eq⟩
    have second : AfterFirst before "-" := by rwa [AfterFirst, before_eq]
    have listed := (reported.mem_unexpected_iff "-").mpr ⟨before, place, Or.inl rfl, second⟩
    rcases ((parse_reported argv).mem_unexpected_iff "-").mp listed with ⟨_, _, _, name, _⟩
    exact name rfl
  by_cases dash : ("-" : Text) ∈ positionals argv
  · rcases List.mem_iff_append.mp dash with ⟨earlier, later, split⟩
    rcases leading earlier later split with rfl
    rw [List.nil_append] at split
    refine Or.inr ?_
    by_contra several
    have nonempty : later ≠ [] := by
      rintro rfl
      exact several split
    -- The first positional argument is `-`, so no file is named; then the last one is a `-`, too.
    have absent : named argv = none := by
      rw [← parse_file, file_eq, split]
      rfl
    have last := (named_eq_none_iff argv).mp absent (by simp [split])
    simp only [split, List.getLast_cons nonempty] at last
    rcases List.mem_iff_append.mp (last ▸ List.getLast_mem nonempty) with ⟨front, back, later_eq⟩
    rw [later_eq, ← List.cons_append] at split
    exact absurd (leading _ _ split) (List.cons_ne_nil _ _)
  · exact Or.inl dash

/-- Each argument with which something is wrong is reported once, in the order of the arguments; a name
is one too many if a file has been named since the last `-`, and the first such file is read.  The
first positional argument counts and every further one is reported exactly if no `-` stands beside
another positional argument. -/
theorem parse_reports (argv : List Text) :
    (Reported AfterFile argv (parse argv).faults ∧ (parse argv).file = named argv) ∧
    ((Reported AfterFirst argv (parse argv).faults ∧
      (parse argv).file = (positionals argv).head?.filter (fun argument => argument ≠ ("-" : Text))) ↔
        (("-" : Text) ∉ positionals argv ∨ positionals argv = [("-" : Text)])) := by
  refine ⟨⟨parse_reported argv, parse_file argv⟩, ?_, ?_⟩
  · exact fun reports => plain_of_reported reports.1 reports.2
  intro plain
  constructor
  · apply (parse_reported argv).congr
    intro before argument place positional
    exact afterFile_iff_afterFirst plain place positional
  · rw [parse_file]
    rcases plain with noDash | single
    · rw [named_of_no_dash noDash]
      cases head : (positionals argv).head? with
      | none => rfl
      | some first =>
          have name : first ≠ ("-" : Text) := fun dash => noDash (dash ▸ List.mem_of_head? head)
          simp [Option.filter, name]
    · rw [named, single]
      decide +kernel

/-- The name after a `-` is read and not reported. -/
theorem parse_name_after_dash : ¬ Reported AfterFirst ["-", "a"] (parse ["-", "a"]).faults ∧
    (parse ["-", "a"]).file ≠
      (positionals ["-", "a"]).head?.filter (fun argument => argument ≠ ("-" : Text)) := by
  constructor
  · intro reported
    have faults_eq : (parse ["-", "a"]).faults = [] := by decide +kernel
    have second : AfterFirst ["-"] "a" := by
      rw [AfterFirst]
      decide +kernel
    have listed := (reported.mem_unexpected_iff "a").mpr ⟨["-"], ⟨[], rfl⟩, by decide +kernel, second⟩
    rw [faults_eq] at listed
    cases listed
  · decide +kernel

end Arguments
end Monotype
