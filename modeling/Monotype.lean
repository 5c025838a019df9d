import Monotype.Text
import Monotype.Table
import Monotype.Numeral
import Monotype.Token
import Monotype.Diagnostic
import Monotype.Lexeme
import Monotype.Token.Scan
import Monotype.Expr
import Monotype.Expr.Printer
import Monotype.Expr.Reading
import Monotype.Expr.Parser
import Monotype.Source
import Monotype.Env
import Monotype.Value
import Monotype.Evaluation
import Monotype.Term
import Monotype.Constraint
import Monotype.Constraint.Ledger
import Monotype.Constraint.Gather
import Monotype.Forest
import Monotype.Unifier
import Monotype.Naming
import Monotype.Inference
import Monotype.Json
import Monotype.Report
import Monotype.Scoping
import Monotype.Check
import Monotype.Arguments
import Monotype.FileTree
import Monotype.CommandLine
import Monotype.Main
import Monotype.Proofs.Kinds
import Monotype.Proofs.Forest.Root
import Monotype.Proofs.Forest.Partition
import Monotype.Proofs.Table
import Monotype.Proofs.ClassMap
import Monotype.Proofs.Term
import Monotype.Proofs.Solution
import Monotype.Proofs.Scoping
import Monotype.Proofs.Typing
import Monotype.Proofs.Walk
import Monotype.Proofs.Walk.Growth
import Monotype.Proofs.Valuation
import Monotype.Proofs.Valuation.Extension
import Monotype.Proofs.Inference
import Monotype.Proofs.Safety
import Monotype.Proofs.Grammar
import Monotype.Proofs.Grammar.Soundness
import Monotype.Proofs.Grammar.Completeness
import Monotype.Proofs.Numeral
import Monotype.Proofs.Lexeme
import Monotype.Proofs.RoundTrip
import Monotype.Proofs.Unbound
import Monotype.Proofs.Grounding
import Monotype.Proofs.Reached
import Monotype.Proofs.Wording
import Monotype.Proofs.Check
import Monotype.Proofs.Comment
import Monotype.Proofs.Addition
import Monotype.Proofs.Annotation
import Monotype.Proofs.Segment
import Monotype.Proofs.Viability
import Monotype.Proofs.Workshop
import Monotype.Proofs.Variant
import Monotype.Proofs.Forest.Balance
import Monotype.Proofs.Forest.Compression
import Monotype.Proofs.Forest.Refinement
import Monotype.Proofs.Binders
import Monotype.Proofs.Widening
import Monotype.Proofs.Placeless
import Monotype.Proofs.Layout
import Monotype.Proofs.Lines
import Monotype.Proofs.Presentation
import Monotype.Proofs.Whereabouts
import Monotype.Proofs.Complaint
import Monotype.Proofs.Nesting
import Monotype.Proofs.Addressing
import Monotype.Proofs.Junction
import Monotype.Proofs.Span
import Monotype.Proofs.Halting
import Monotype.Proofs.Dependence
import Monotype.Proofs.Arguments
import Monotype.Proofs.Literal
