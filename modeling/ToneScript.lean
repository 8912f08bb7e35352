import ToneScript.Compile
import ToneScript.Settings
import ToneScript.CommandLine.Run
import ToneScript.Main
import ToneScript.Proofs.Lookahead.Follow
import ToneScript.Proofs.Table.Predictive
import ToneScript.Proofs.Parse.Runs
import ToneScript.Proofs.Token.Direct
import ToneScript.Proofs.Parse.Depth
import ToneScript.Proofs.Parse.Ahead
import ToneScript.Proofs.Parse.Walks
import ToneScript.Proofs.Parse.Termination
import ToneScript.Proofs.Parse.Recognition
import ToneScript.Proofs.Program.Syntax
import ToneScript.Proofs.Program.Arithmetic
import ToneScript.Proofs.Program.Carries
import ToneScript.Proofs.Program.Expression
import ToneScript.Proofs.Program.Compilation
import ToneScript.Proofs.Grammar.Conclusive
import ToneScript.Proofs.Lookahead.Neighbours
import ToneScript.Proofs.Parse.Return
import ToneScript.Proofs.Parse.History
import ToneScript.Proofs.Parse.Order
import ToneScript.Proofs.Grammar.Sentences
import ToneScript.Proofs.Parse.Viable
import ToneScript.Proofs.Parse.Derivation
import ToneScript.Proofs.Tree.Fringe
import ToneScript.Proofs.Grammar.Derivation
import ToneScript.Proofs.Parse.Calls
import ToneScript.Proofs.Parse.Sentence
import ToneScript.Proofs.Parse.Account
import ToneScript.Proofs.Program.Success
import ToneScript.Proofs.Token.Lexemes
import ToneScript.Proofs.Parse.Guards
import ToneScript.Proofs.Parse.Moments
import ToneScript.Proofs.Program.Tonal
import ToneScript.Proofs.Table.Unambiguous
import ToneScript.Proofs.Table.LeftRecursion
import ToneScript.Proofs.Token.Slices
import ToneScript.Proofs.Token.Tape
import ToneScript.Proofs.Program.TextSize
import ToneScript.Proofs.Parse.Indifference
import ToneScript.Proofs.Parse.Rearrangement
import ToneScript.Proofs.Parse.Lines
import ToneScript.Proofs.Program.WhiteSpace
import ToneScript.Proofs.Parse.Breakdown
import ToneScript.Proofs.Grammar.Written
import ToneScript.Proofs.Program.Joined
import ToneScript.Proofs.CommandLine.ExitCode
import ToneScript.Proofs.Text.Lines
import ToneScript.Proofs.Grammar.Verdict
import ToneScript.Proofs.Parse.Access
import ToneScript.Proofs.Table.Conflicts
import ToneScript.Proofs.Token.Spaced
import ToneScript.Proofs.Machine.Loose
import ToneScript.Proofs.Machine.Repetition
import ToneScript.Proofs.Tree.Printed
import ToneScript.Proofs.Program.Unreported
import ToneScript.Proofs.Tree.Traversal
import ToneScript.Proofs.Tree.Comparison
import ToneScript.Proofs.Lookahead.Sequences
import ToneScript.Proofs.Lookahead.Passes
