import Formula.Allocations
import Formula.Binary.Nearly
import Formula.Binary.Reading
import Formula.Binary.Remainder
import Formula.Binary.Shortest
import Formula.CommandLine.Options
import Formula.CommandLine.Report
import Formula.CommandLine.Usage
import Formula.Decimal.Arithmetic
import Formula.Decimal.Basic
import Formula.Decimal.Division
import Formula.Decimal.Reading
import Formula.Decimal.Remainder
import Formula.Decimal.Rounding
import Formula.Decimal.ToFloat
import Formula.Element.Basic
import Formula.Element.Postfix
import Formula.Expression
import Formula.Fault
import Formula.Function.Basic
import Formula.Function.Builtin
import Formula.Json.Basic
import Formula.Json.Reading
import Formula.Kind
import Formula.Literal
import Formula.Main
import Formula.Names
import Formula.Node.Basic
import Formula.Node.Build
import Formula.Node.Execute
import Formula.Node.Optimize
import Formula.Node.Render
import Formula.Node.Typing
import Formula.Numeral
import Formula.Operator
import Formula.Proofs.Buffers
import Formula.Proofs.Building
import Formula.Proofs.Builtins
import Formula.Proofs.Constants
import Formula.Proofs.Effects
import Formula.Proofs.Evaluation
import Formula.Proofs.Failures
import Formula.Proofs.FirstRun
import Formula.Proofs.Following
import Formula.Proofs.Grammar
import Formula.Proofs.Kinds
import Formula.Proofs.LastValue
import Formula.Proofs.Matching
import Formula.Proofs.Optimizing
import Formula.Proofs.Pinning
import Formula.Proofs.Purity
import Formula.Proofs.Reading
import Formula.Proofs.Recognition
import Formula.Proofs.Recompiling
import Formula.Proofs.Rejection
import Formula.Proofs.Repeating
import Formula.Proofs.Results
import Formula.Proofs.Reuse
import Formula.Proofs.Rewriting
import Formula.Proofs.Roles
import Formula.Proofs.Runs
import Formula.Proofs.Sessions
import Formula.Proofs.Sorting
import Formula.Proofs.Store
import Formula.Proofs.Strict
import Formula.Proofs.Term
import Formula.Role
import Formula.Scope
import Formula.Settings.Basic
import Formula.Settings.Reading
import Formula.Text.Hidden
import Formula.Text.Positional
import Formula.Text.Quoted
import Formula.Text.Trim
import Formula.Token.Basic
import Formula.Token.Bytes
import Formula.Token.Scan
import Formula.Token.Unescape
import Formula.Value.Arithmetic
import Formula.Value.Basic
import Formula.Value.Comparison
import Formula.Value.Promotion
import Formula.Variables
import Formula.Proofs.Touching
import Formula.Proofs.Folding
import Formula.Proofs.Compiling
import Formula.Proofs.Signatures
import Formula.Proofs.Validity
import Formula.Proofs.Pieces
import Formula.Proofs.Lexemes
import Formula.Proofs.Positions
import Formula.Proofs.Loops
import Formula.Proofs.Bytes
import Formula.Proofs.Rebuilding
import Formula.Proofs.Loosening
import Formula.Proofs.Leniency
import Formula.Proofs.Widening
import Formula.Proofs.WiderLiterals
import Formula.Proofs.Numerals
import Formula.Proofs.Lines
import Formula.Proofs.Quoting
import Formula.Proofs.NumberLiterals
import Formula.Proofs.WholeNumbers
import Formula.Proofs.Spelling
import Formula.Proofs.WrittenNumbers
import Formula.Proofs.Compounds
import Formula.Proofs.Commits
import Formula.Proofs.ByteOrder
import Formula.Proofs.ExactOrder
import Formula.Proofs.Extremes
import Formula.Proofs.Scopes
import Formula.Proofs.KnownKinds
import Formula.Proofs.Alarms
import Formula.Proofs.Independence
import Formula.Proofs.Interning
import Formula.Proofs.Bindings
import Formula.Proofs.SharedStores
import Formula.Proofs.Reduced
import Formula.Proofs.Idempotence
import Formula.Proofs.Lineups
import Formula.Proofs.ArgumentLists
import Formula.Proofs.Rearranging
import Formula.Proofs.Subjects
import Formula.Proofs.Surplus
