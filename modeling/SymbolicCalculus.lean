import SymbolicCalculus.Operator
import SymbolicCalculus.Builtin
import SymbolicCalculus.Scalar
import SymbolicCalculus.Exact
import SymbolicCalculus.Binary64.Basic
import SymbolicCalculus.Binary64.Text
import SymbolicCalculus.Decimal.Shortest
import SymbolicCalculus.Text.Blank
import SymbolicCalculus.Text.Hidden
import SymbolicCalculus.Text.Line
import SymbolicCalculus.Text.Quoted
import SymbolicCalculus.Expr.Basic
import SymbolicCalculus.Expr.Coefficient
import SymbolicCalculus.Expr.Meaning
import SymbolicCalculus.Expr.Text
import SymbolicCalculus.Expr.Value
import SymbolicCalculus.Formula.Literal
import SymbolicCalculus.Formula.Token
import SymbolicCalculus.Formula.Term
import SymbolicCalculus.Formula.Bracketing
import SymbolicCalculus.Formula.Nesting
import SymbolicCalculus.Formula.ParseError
import SymbolicCalculus.Formula.Parser
import SymbolicCalculus.Derivative
import SymbolicCalculus.Lambda
import SymbolicCalculus.Factor.Chain
import SymbolicCalculus.Factor.Common
import SymbolicCalculus.Factor.Quotient
import SymbolicCalculus.Event
import SymbolicCalculus.Limits
import SymbolicCalculus.Reduction.Rule
import SymbolicCalculus.Reduction.Factoring
import SymbolicCalculus.Reduction.Pass
import SymbolicCalculus.Expansion
import SymbolicCalculus.Derivation
import SymbolicCalculus.Session
import SymbolicCalculus.Console
import SymbolicCalculus.Main
import SymbolicCalculus.Proofs.Outcome
import SymbolicCalculus.Proofs.Refinement
import SymbolicCalculus.Proofs.FaithfulMeaning
import SymbolicCalculus.Proofs.ExactValue
import SymbolicCalculus.Proofs.RuleSoundness
import SymbolicCalculus.Proofs.ChainValue
import SymbolicCalculus.Proofs.FactoringSteps
import SymbolicCalculus.Proofs.DivisionValue
import SymbolicCalculus.Proofs.CommonFactorValue
import SymbolicCalculus.Proofs.Passes
import SymbolicCalculus.Proofs.ReductionValue
import SymbolicCalculus.Proofs.DifferentialCalculus
import SymbolicCalculus.Proofs.ElementaryField
import SymbolicCalculus.Proofs.TemplateFilling
import SymbolicCalculus.Proofs.UnsupportedConstructs
import SymbolicCalculus.Proofs.DerivativeValue
import SymbolicCalculus.Proofs.LiteralText
import SymbolicCalculus.Proofs.BalancedText
import SymbolicCalculus.Proofs.Words
import SymbolicCalculus.Proofs.ParserSteps
import SymbolicCalculus.Proofs.TermReading
import SymbolicCalculus.Proofs.Climbing
import SymbolicCalculus.Proofs.Lexing
import SymbolicCalculus.Proofs.Grammar
import SymbolicCalculus.Proofs.FormulaReading
import SymbolicCalculus.Proofs.CanonicalText
import SymbolicCalculus.Proofs.SignedText
import SymbolicCalculus.Proofs.UnsignedDecimal
import SymbolicCalculus.Proofs.ParsedTree
import SymbolicCalculus.Proofs.CanonicalReading
import SymbolicCalculus.Proofs.Lowering
import SymbolicCalculus.Proofs.Distribution
import SymbolicCalculus.Proofs.ExpansionValue
import SymbolicCalculus.Proofs.Rewriting
import SymbolicCalculus.Proofs.Settling
import SymbolicCalculus.Proofs.LocalProperty
import SymbolicCalculus.Proofs.Differentiability
import SymbolicCalculus.Proofs.HigherDerivatives
import SymbolicCalculus.Proofs.EndlessFactoring
import SymbolicCalculus.Proofs.ExactDivision
import SymbolicCalculus.Proofs.NormalForm
import SymbolicCalculus.Proofs.GroupGrammar
import SymbolicCalculus.Proofs.GroupParsing
import SymbolicCalculus.Proofs.WrittenTokens
import SymbolicCalculus.Proofs.ParsedFormula
import SymbolicCalculus.Proofs.UnbracketedText
import SymbolicCalculus.Proofs.Callability
import SymbolicCalculus.Proofs.ReportedChange
import SymbolicCalculus.Proofs.RealPowers
import SymbolicCalculus.Proofs.DoubleNumber
import SymbolicCalculus.Proofs.DoubleRounding
import SymbolicCalculus.Proofs.DoubleArithmetic
import SymbolicCalculus.Proofs.DoubleCounts
import SymbolicCalculus.Proofs.FiniteConstants
import SymbolicCalculus.Proofs.FiniteFactors
import SymbolicCalculus.Proofs.FinitePasses
import SymbolicCalculus.Proofs.Multiplicity
import SymbolicCalculus.Proofs.CommonFactorSize
import SymbolicCalculus.Proofs.CommonFactorSearch
import SymbolicCalculus.Proofs.CommonFactorContainment
import SymbolicCalculus.Proofs.CommonFactorDivision
import SymbolicCalculus.Proofs.ArgumentCommas
import SymbolicCalculus.Proofs.ErrorPositions
import SymbolicCalculus.Proofs.CanonicalChain
import SymbolicCalculus.Proofs.ReductionLog
import SymbolicCalculus.Proofs.SubstitutionValue
import SymbolicCalculus.Proofs.StableBracketing
import SymbolicCalculus.Proofs.NestingLimit
import SymbolicCalculus.Proofs.NumberShape
import SymbolicCalculus.Proofs.HeldDerivation
