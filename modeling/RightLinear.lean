import RightLinear.Automaton.Basic
import RightLinear.Automaton.Directive
import RightLinear.Automaton.Edit
import RightLinear.Automaton.Elimination
import RightLinear.Automaton.EmptyMove
import RightLinear.Automaton.Printer
import RightLinear.Automaton.Productions
import RightLinear.Automaton.Simulation
import RightLinear.CommandLine.Arguments
import RightLinear.CommandLine.Command
import RightLinear.ConversionError
import RightLinear.Expr.Basic
import RightLinear.Expr.Language
import RightLinear.Expr.Printer
import RightLinear.Expr.Simplified
import RightLinear.Fault
import RightLinear.Grammar.Basic
import RightLinear.Grammar.Closure
import RightLinear.Grammar.Derivation
import RightLinear.Grammar.Expansion
import RightLinear.Grammar.Graph
import RightLinear.Grammar.Membership
import RightLinear.Grammar.Printer
import RightLinear.Grammar.Sampling
import RightLinear.Main
import RightLinear.OrderedSet
import RightLinear.Pattern.Anchored
import RightLinear.Pattern.Basic
import RightLinear.Pattern.Engine
import RightLinear.Pattern.Matching
import RightLinear.Pattern.Text
import RightLinear.Pattern.Token
import RightLinear.Proofs.Automaton.Directive
import RightLinear.Proofs.Automaton.Edit
import RightLinear.Proofs.Automaton.Elimination
import RightLinear.Proofs.Automaton.EmptyMove
import RightLinear.Proofs.Automaton.File
import RightLinear.Proofs.Automaton.Growth
import RightLinear.Proofs.Automaton.Label
import RightLinear.Proofs.Automaton.Pattern
import RightLinear.Proofs.Automaton.Printer
import RightLinear.Proofs.Automaton.Productions
import RightLinear.Proofs.Automaton.Recognition
import RightLinear.Proofs.Automaton.Rerouting
import RightLinear.Proofs.Automaton.Simulation
import RightLinear.Proofs.Conversion.Agreement
import RightLinear.Proofs.Conversion.AutomatonFile
import RightLinear.Proofs.Conversion.GrammarFile
import RightLinear.Proofs.Conversion.Order
import RightLinear.Proofs.Conversion.Precedence
import RightLinear.Proofs.Conversion.RoundTrip
import RightLinear.Proofs.Expr.Language
import RightLinear.Proofs.Expr.Laws
import RightLinear.Proofs.Expr.Printer
import RightLinear.Proofs.Expr.Simplified
import RightLinear.Proofs.Expr.Size
import RightLinear.Proofs.Expr.Tree
import RightLinear.Proofs.File.Internal
import RightLinear.Proofs.File.Joined
import RightLinear.Proofs.File.Notice
import RightLinear.Proofs.File.Order
import RightLinear.Proofs.Grammar.Budget
import RightLinear.Proofs.Grammar.Draws
import RightLinear.Proofs.Grammar.Expansion
import RightLinear.Proofs.Grammar.Graph
import RightLinear.Proofs.Grammar.Membership
import RightLinear.Proofs.Grammar.Printer
import RightLinear.Proofs.Grammar.Recursion
import RightLinear.Proofs.Grammar.Reload
import RightLinear.Proofs.Grammar.Rules
import RightLinear.Proofs.Grammar.Shape
import RightLinear.Proofs.Grammar.Walk
import RightLinear.Proofs.List.EraseDups
import RightLinear.Proofs.Pattern.Anchored
import RightLinear.Proofs.Pattern.Choice
import RightLinear.Proofs.Pattern.Composition
import RightLinear.Proofs.Pattern.Language
import RightLinear.Proofs.Pattern.Matching
import RightLinear.Proofs.Pattern.Size
import RightLinear.Proofs.Pattern.Token
import RightLinear.Proofs.Rule.File
import RightLinear.Proofs.Rule.Format
import RightLinear.Proofs.Rule.Spelling
import RightLinear.Proofs.Text.Joined
import RightLinear.Proofs.Text.Line
import RightLinear.Reachability
import RightLinear.Report
import RightLinear.Rule.Basic
import RightLinear.Rule.File
import RightLinear.Rule.Spelling
import RightLinear.Rule.Token
import RightLinear.Text.Blank
import RightLinear.Text.Coordinate
import RightLinear.Text.Line
import RightLinear.Text.Numeral
import RightLinear.Text.Uppercase
import RightLinear.Word
