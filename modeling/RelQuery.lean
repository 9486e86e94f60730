import RelQuery.Compile.Basic
import RelQuery.Datalog.Declared
import RelQuery.Datalog.Printer
import RelQuery.Datalog.Safety
import RelQuery.Engine.Pool
import RelQuery.Engine.Solver
import RelQuery.Expr.Parse
import RelQuery.Expr.Printer
import RelQuery.Main
import RelQuery.Proofs.Compile.Assembly
import RelQuery.Proofs.Compile.Derivation
import RelQuery.Proofs.Compile.Emission
import RelQuery.Proofs.Compile.OperatorTyping
import RelQuery.Proofs.Compile.RangeRestriction
import RelQuery.Proofs.Compile.RuleTyping
import RelQuery.Proofs.Compile.Scoping
import RelQuery.Proofs.Compile.Stratification
import RelQuery.Proofs.Datalog.Model
import RelQuery.Proofs.Datalog.Ordered
import RelQuery.Proofs.Datalog.Safety
import RelQuery.Proofs.Datalog.Typing
import RelQuery.Proofs.Meaning.Denotation
import RelQuery.Proofs.Meaning.Operators
import RelQuery.Proofs.Meaning.Preservation
import RelQuery.Proofs.Meaning.Representation
import RelQuery.Proofs.Schema.FreshNames
import RelQuery.Proofs.Schema.Predicate
import RelQuery.Proofs.Schema.Scope
import RelQuery.Proofs.Typing.Compiler
import RelQuery.Proofs.Typing.Inference
import RelQuery.Proofs.Typing.Judgement
import RelQuery.Query.Basic
import RelQuery.Relation.Json
import RelQuery.Text.Word
import RelQuery.Proofs.Typing.Faults
import RelQuery.Proofs.Compile.Guarded
import RelQuery.Proofs.Compile.Reachable
import RelQuery.Proofs.Compile.FirstFault
import RelQuery.Proofs.Grammar.Token
import RelQuery.Proofs.Grammar.Reading
import RelQuery.Proofs.Grammar.Rendering
import RelQuery.Proofs.Grammar.Rows
import RelQuery.Proofs.Grammar.Bands
import RelQuery.Proofs.Grammar.RoundTrip
import RelQuery.Proofs.Text.Basic
import RelQuery.Proofs.Grammar.Written
import RelQuery.Proofs.Grammar.Derivation
import RelQuery.Proofs.Grammar.Nesting
import RelQuery.Proofs.Grammar.Yielding
import RelQuery.Proofs.Grammar.Traversal
import RelQuery.Proofs.Grammar.Soundness
import RelQuery.Proofs.Grammar.Inheritance
import RelQuery.Proofs.Grammar.Quotation
import RelQuery.Proofs.Relation.Validation
import RelQuery.Proofs.Engine.FactsRoundTrip
import RelQuery.Proofs.Json.Scalars
import RelQuery.Proofs.Json.RoundTrip
import RelQuery.Proofs.Relation.BareTuples
import RelQuery.Proofs.Compile.Indifference
import RelQuery.Proofs.Relation.Written
import RelQuery.Proofs.Text.Told
import RelQuery.Proofs.Text.Quoted
import RelQuery.Proofs.Datalog.ScalarText
import RelQuery.Proofs.Datalog.Unambiguity
import RelQuery.Proofs.Datalog.Choice
import RelQuery.Proofs.Compile.Ranking
import RelQuery.Proofs.Schema.Renumbering
import RelQuery.Proofs.Datalog.Renaming
import RelQuery.Proofs.Compile.Renaming
import RelQuery.Proofs.Compile.UnusedInputs
import RelQuery.Proofs.Compile.Concatenation
import RelQuery.Proofs.Compile.Placement
import RelQuery.Proofs.Datalog.Groups
import RelQuery.Proofs.Datalog.OneLine
import RelQuery.Proofs.Compile.Lexical
import RelQuery.Proofs.Grammar.Names
import RelQuery.Proofs.Compile.ProgramLines
import RelQuery.Proofs.Datalog.Saturation
import RelQuery.Proofs.Datalog.Determinacy
import RelQuery.Proofs.Grammar.SymbolText
import RelQuery.Proofs.Grammar.Spans
import RelQuery.Proofs.Grammar.TreeText
import RelQuery.Proofs.Grammar.Lexemes
import RelQuery.Proofs.Grammar.Insertion
import RelQuery.Proofs.Grammar.Numerals
import RelQuery.Proofs.Source.Position
import RelQuery.Proofs.Schema.Requests
import RelQuery.Proofs.Relation.NormalForm
import RelQuery.Proofs.Query.Answer
import RelQuery.Proofs.Compile.Hygiene
import RelQuery.Proofs.Query.Hygiene
import RelQuery.Proofs.Datalog.Undeclared
