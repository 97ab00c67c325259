import PropertyLint.Text.Edit
import PropertyLint.Text.Line
import PropertyLint.Text.Marker
import PropertyLint.Text.Quoted
import PropertyLint.Syntax.Expr
import PropertyLint.Syntax.Nodes
import PropertyLint.Syntax.Walk
import PropertyLint.Syntax.Token.Lexer
import PropertyLint.Syntax.Grammar.Decls
import PropertyLint.Syntax.Visit
import PropertyLint.Symbol.Display
import PropertyLint.Binding.Project
import PropertyLint.Pattern.BackingMember
import PropertyLint.Lint.Severity
import PropertyLint.Lint.Cancellation
import PropertyLint.Lint.Finding
import PropertyLint.Lint.Context
import PropertyLint.Check.BackingMember
import PropertyLint.Check.Wrapper
import PropertyLint.Check.AttachedAccessor
import PropertyLint.Check.AttributeArguments
import PropertyLint.Check.Converter
import PropertyLint.Check.Creation
import PropertyLint.Check
import PropertyLint.Config.Basic
import PropertyLint.Lint.Analysis
import PropertyLint.Fix.Place
import PropertyLint.Fix.Provider
import PropertyLint.Config.Document
import PropertyLint.Config.Json
import PropertyLint.Config.Yaml.Scalar
import PropertyLint.Config.Yaml
import PropertyLint.Text.EditDistance
import PropertyLint.Config.Reading
import PropertyLint.Config.Validation
import PropertyLint.Lint.Session
import PropertyLint.Proofs.Fix.Stale
import PropertyLint.Proofs.Syntax.Total
import PropertyLint.Proofs.Syntax.Identity
import PropertyLint.Proofs.Syntax.Layout
import PropertyLint.Proofs.Lint.Checkpoints
import PropertyLint.Proofs.Lint.Order
import PropertyLint.Proofs.Check.Rules
import PropertyLint.Proofs.Lint.Configured
import PropertyLint.Proofs.Lint.Visited
import PropertyLint.Proofs.Config.Merge
import PropertyLint.Proofs.Fix.Selection
import PropertyLint.Proofs.Fix.Moved
import PropertyLint.Proofs.Fix.MovedMember
import PropertyLint.Proofs.Symbol.Constructed
import PropertyLint.Proofs.Symbol.BreadthFirst
import PropertyLint.Proofs.Symbol.Registry
import PropertyLint.Proofs.Symbol.Equality
import PropertyLint.Proofs.Binding.FoldedFields
import PropertyLint.Proofs.Lint.Member
import PropertyLint.Proofs.Pattern.Registration
import PropertyLint.Proofs.Binding.Overload
import PropertyLint.Proofs.Fix.Located
import PropertyLint.Proofs.Fix.Innermost
import PropertyLint.Proofs.Check.SideEffects
import PropertyLint.Proofs.Binding.Bound
import PropertyLint.Proofs.Binding.BoundBodies
import PropertyLint.Proofs.Binding.Called
import PropertyLint.Proofs.Binding.Single
import PropertyLint.Proofs.Binding.Inverse
import PropertyLint.Proofs.Binding.MemberScope
import PropertyLint.Proofs.Pattern.Argument
import PropertyLint.Proofs.Pattern.ConstructorParameter
import PropertyLint.Proofs.Check.KeyOrder
import PropertyLint.Proofs.Text.Markers
import PropertyLint.Proofs.Text.LineCol
import PropertyLint.Proofs.Binding.Computable
import PropertyLint.Proofs.Syntax.LineBreak
import PropertyLint.Proofs.Syntax.Precedence
import PropertyLint.Proofs.Lint.Template
import PropertyLint.Proofs.Pattern.LeftmostCall
