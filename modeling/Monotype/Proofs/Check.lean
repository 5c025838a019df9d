import Monotype.Proofs.Grammar.Soundness
import Monotype.Proofs.Safety
import Monotype.Proofs.Wording

namespace Monotype

/-!
# How a check ends

A check that evaluates and orders integers only has five endings: the text is no program, a name has
no meaning, there are no types, there is a value, or there is a division by zero.  Each gate hands on
what the next one relies on: a text that is no program is refused for a reason, a program that
reaches inference has no free names, and one that reaches evaluation has a type.
-/

/-- A text that is no program is refused for a reason. -/
theorem Source.ne_nil_of_parse {text : Text} {diagnostics : List Diagnostic}
    (refused : parse text = .error diagnostics) : diagnostics ≠ [] := by
  rw [parse] at refused
  by_cases clean : (Scan.run text).diagnostics = []
  · rw [if_pos clean] at refused
    cases outcome : (Parser.ofTokens (Scan.run text).tokens).program.1 with
    | ok program =>
        rw [outcome] at refused
        cases refused
    | error failure =>
        rcases Parser.exists_refused rfl (Prod.ext outcome rfl) with ⟨diagnostic, _, rfl, _⟩
        rw [outcome] at refused
        cases refused
        exact List.cons_ne_nil _ _
  · rw [if_neg clean] at refused
    cases refused
    exact clean

theorem Typing.Reports.nonempty {comparison : Comparison} {e : Expr} {typing : Typing}
    {derivation : Derivation comparison .empty e typing.type} (_ : typing.Reports derivation) :
    Nonempty (Derivation comparison .empty e typing.type) :=
  ⟨derivation⟩

namespace Check

/-- What is shown of a program without types. -/
def faultShown : Format -> Text
  | .report => "Type error"
  | .json => "\x7b\n  \"success\": false,\n  \"error\": \"Type error\"\n\x7d"
  | .inline => "Type error"

theorem shown_of_fault (format : Format) (source : Text) {inference : Inference} {fault : NamingFault}
    (failed : inference.typing = .error fault) : shown format source inference = faultShown format := by
  cases format with
  | report =>
      simp only [shown, Inference.report, failed]
      rfl
  | json =>
      simp only [shown, Inference.json, Inference.toJson, failed]
      rfl
  | inline =>
      simp only [shown, Inference.inline, failed]
      rfl

/-- The ways in which a check with evaluation ends. -/
inductive Ending where
  | refused | unscoped | untypable | valued | divided

/-- What holds of the source, and what is put out, at each ending. -/
inductive Ends (source : Text) (format : Format) : Ending -> Output -> Prop where
  | refused {diagnostics : List Diagnostic} {stderr : List Text}
      (unread : Source.parse source = .error diagnostics) (reasons : diagnostics ≠ []) :
      Ends source format .refused ⟨["Parse error"], stderr, 1⟩
  | unscoped {e : Expr} {stderr : List Text} (parsed : Source.parse source = .ok e)
      (opened : e.free ≠ []) :
      Ends source format .unscoped ⟨["Def error"], stderr, 1⟩
  | untypable {e : Expr} {stderr : List Text} (parsed : Source.parse source = .ok e)
      (closed : e.free = []) (untyped : forall type, ¬ Nonempty (Derivation .int .empty e type)) :
      Ends source format .untypable ⟨[faultShown format], stderr, 1⟩
  | valued {e : Expr} {inference : Inference} {typing : Typing} {value : Value} {stderr : List Text}
      {result text : Text} (parsed : Source.parse source = .ok e) (closed : e.free = [])
      (inferred : e.infer .int = .ok inference) (succeeded : inference.typing = .ok typing)
      (typed : exists derivation : Derivation .int .empty e typing.type, typing.Reports derivation)
      (evaluated : e.evaluate [] = .ok value) (kept : value.type = typing.type)
      (shows : Shows source e typing format result) (written : value.Written text) :
      Ends source format .valued ⟨[result, "Value is " ++ text], stderr, 0⟩
  | divided {e : Expr} {inference : Inference} {typing : Typing} {stderr : List Text} {result : Text}
      (parsed : Source.parse source = .ok e) (closed : e.free = [])
      (inferred : e.infer .int = .ok inference) (succeeded : inference.typing = .ok typing)
      (typed : exists derivation : Derivation .int .empty e typing.type, typing.Reports derivation)
      (divides : e.evaluate [] = .error .divisionByZero) (shows : Shows source e typing format result) :
      Ends source format .divided
        ⟨[result], stderr ++ [("Evaluation error: division by zero" : Text)], 1⟩

/-- A source leads to one ending only. -/
theorem Ends.unique {source : Text} {format : Format} {first second : Ending} {output other : Output}
    (firstEnds : Ends source format first output) (secondEnds : Ends source format second other) :
    first = second := by
  cases firstEnds <;> cases secondEnds <;> grind [Typing.Reports.nonempty]

/-- Evaluate, and order integers only. -/
def evaluating (format : Format) (verbose : Bool) : Options where
  format := format
  evaluate := true
  verbose := verbose
  comparison := .int

/-- A closed program without types, with a value or with a division by zero is shown as such, however
much is told about it. -/
theorem inferred_ends {source : Text} {e : Expr} (format : Format) (parsed : Source.parse source = .ok e)
    (closed : e.free = []) {inference : Inference} (found : e.infer .int = .ok inference) :
    exists stdout exitCode ending, forall verbose, exists stderr,
      inferred (evaluating format verbose) source e inference = ⟨stdout, stderr, exitCode⟩ ∧
        Ends source format ending ⟨stdout, stderr, exitCode⟩ := by
  have wellScoped := (Expr.isWellScoped_iff e).mpr closed
  rcases Expr.infer_cases wellScoped .int with ⟨other, found', outcome⟩
  cases found.symm.trans found'
  rcases outcome with ⟨typing, succeeded, typed⟩ | ⟨⟨fault, failed⟩, underivable⟩
  · have safe := Expr.evaluate_safe_of_infer wellScoped found succeeded
    have shows := shows_shown parsed wellScoped found succeeded format
    cases evaluated : e.evaluate [] with
    | ok value =>
        rw [evaluated] at safe
        cases safe with
        | value kept =>
            refine ⟨_, _, .valued, fun verbose => ⟨if verbose then trace inference else [], ?_,
              .valued parsed closed found succeeded typed evaluated kept shows
                value.written_text⟩⟩
            simp only [inferred, succeeded, evaluated]
            rfl
    | error fault =>
        rw [evaluated] at safe
        cases safe with
        | divisionByZero =>
            refine ⟨_, _, .divided, fun verbose => ⟨(if verbose then trace inference else []) ++ _, ?_,
              .divided parsed closed found succeeded typed evaluated shows⟩⟩
            simp only [inferred, succeeded, evaluated]
            rfl
        | unordered rule ordering => cases rule
  · refine ⟨_, _, .untypable, fun verbose => ⟨if verbose then trace inference else [], ?_,
      .untypable parsed closed ?_⟩⟩
    · simp only [inferred, failed]
      rw [← shown_of_fault format source failed]
      rfl
    · rintro type ⟨derivation⟩
      exact (underivable type).false derivation

/-- A check that evaluates and orders integers only comes to exactly one of the five endings, whatever
the text, and its standard output and exit status do not depend on how much is told. -/
theorem run_ends (source : Text) (format : Format) :
    exists stdout exitCode, forall verbose, exists stderr,
      run source (evaluating format verbose) = .ok ⟨stdout, stderr, exitCode⟩ ∧
        ∃! ending, Ends source format ending ⟨stdout, stderr, exitCode⟩ := by
  suffices reached : exists stdout exitCode ending, forall verbose, exists stderr,
      run source (evaluating format verbose) = .ok ⟨stdout, stderr, exitCode⟩ ∧
        Ends source format ending ⟨stdout, stderr, exitCode⟩ by
    rcases reached with ⟨stdout, exitCode, ending, reached⟩
    refine ⟨stdout, exitCode, fun verbose => ?_⟩
    rcases reached verbose with ⟨stderr, ran, ends⟩
    exact ⟨stderr, ran, ending, ends, fun other otherEnds => otherEnds.unique ends⟩
  cases parsed : Source.parse source with
  | error diagnostics =>
      refine ⟨_, _, .refused, fun verbose => ⟨diagnostics.map locate, ?_,
        .refused parsed (Source.ne_nil_of_parse parsed)⟩⟩
      rw [run, parsed]
      rfl
  | ok e =>
      by_cases closed : e.free = []
      · have wellScoped := (Expr.isWellScoped_iff e).mpr closed
        rcases Expr.infer_cases wellScoped .int with ⟨inference, found, _⟩
        rcases inferred_ends format parsed closed found with ⟨stdout, exitCode, ending, reached⟩
        refine ⟨stdout, exitCode, ending, fun verbose => ?_⟩
        rcases reached verbose with ⟨stderr, put, ends⟩
        refine ⟨stderr, ?_, ends⟩
        have undefined : e.undefinedNames [] = [] := List.isEmpty_iff.mp wellScoped
        simp only [run, parsed, undefined, evaluating, found]
        rw [← put]
        rfl
      · cases undefined : e.undefinedNames [] with
        | nil => exact absurd ((Expr.isWellScoped_iff e).mp (List.isEmpty_iff.mpr undefined)) closed
        | cons name more =>
            refine ⟨_, _, .unscoped, fun verbose =>
              ⟨(unscoped (evaluating format verbose) (name :: more)).stderr, ?_, .unscoped parsed closed⟩⟩
            simp only [run, parsed, undefined]
            rfl

end Check

end Monotype
