import BlockScript.Text.Position
import BlockScript.Peg.Pattern
import BlockScript.Peg.Match
import BlockScript.Peg.Frontier
import BlockScript.Peg.Node
import BlockScript.Grammar.Rule
import BlockScript.Grammar.Rules
import BlockScript.Tree.Reader
import BlockScript.Decimal.Written
import BlockScript.Evaluate
import BlockScript.Output.LineTracker
import BlockScript.Run
import BlockScript.Tree.SExpr
import BlockScript.Tree.Outline
import BlockScript.Check.Session
import BlockScript.Repl.Transcript
import BlockScript.Cli.Invocation
import BlockScript.Main
import BlockScript.Proofs.Environment.ScopeChain
import BlockScript.Proofs.Machine.BlockRestriction
import BlockScript.Proofs.Machine.Labels
import BlockScript.Proofs.Machine.Relevance
import BlockScript.Proofs.Machine.Truncation
import BlockScript.Proofs.Repl.Completeness
import BlockScript.Proofs.Tree.Concatenation
import BlockScript.Proofs.Tree.DatumReading
import BlockScript.Proofs.Tree.Precedence
import BlockScript.Proofs.Tree.Totality
import BlockScript.Proofs.Environment.Updates
import BlockScript.Proofs.Machine.ControlFlow
import BlockScript.Proofs.Repl.SwallowedBrackets
import BlockScript.Proofs.Machine.Assignments
import BlockScript.Proofs.Tree.SoleExpressions
import BlockScript.Proofs.Tree.Literals
import BlockScript.Proofs.Value.IntegerArithmetic
import BlockScript.Proofs.Output.LineTracker
import BlockScript.Proofs.Tree.Formatting
import BlockScript.Proofs.Machine.Parentheses
import BlockScript.Proofs.Repl.Grouping
import BlockScript.Proofs.Grammar.Matching
import BlockScript.Proofs.Repl.Counters
import BlockScript.Proofs.Tree.Recovery
