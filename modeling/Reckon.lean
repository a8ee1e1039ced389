import Reckon.Log
import Reckon.Main
import Reckon.Proofs.Lexical.Grammar
import Reckon.Proofs.Lexical.Munch
import Reckon.Proofs.Lexical.Layout
import Reckon.Proofs.Lexical.Places
import Reckon.Proofs.Lexical.Calls
import Reckon.Proofs.Lexical.Words
import Reckon.Proofs.Lexical.Literals
import Reckon.Proofs.Parsing.Rules
import Reckon.Proofs.Parsing.Runs
import Reckon.Proofs.Parsing.Failures
import Reckon.Proofs.Parsing.Progress
import Reckon.Proofs.Parsing.Acts
import Reckon.Proofs.Parsing.Balance
import Reckon.Proofs.Parsing.WellFormed
import Reckon.Proofs.Parsing.Sound
import Reckon.Proofs.Parsing.Complete
import Reckon.Proofs.Parsing.Lookahead
import Reckon.Proofs.Parsing.Depth
import Reckon.Proofs.Parsing.Relocated
import Reckon.Proofs.Parsing.Resume
import Reckon.Proofs.Parsing.Language
import Reckon.Proofs.Parsing.OperatorFirst
import Reckon.Proofs.Parsing.Spacing
import Reckon.Proofs.Parsing.Trailing
import Reckon.Proofs.Parsing.Parenthesised
import Reckon.Proofs.Parsing.Nesting
import Reckon.Proofs.Parsing.Height
import Reckon.Proofs.Parsing.Prefix
import Reckon.Proofs.Parsing.Decoding
import Reckon.Proofs.Parsing.Reports
import Reckon.Proofs.Safety.Slices
import Reckon.Proofs.Safety.Levels
import Reckon.Proofs.Safety.Evaluation
import Reckon.Proofs.Binary.Zeros
import Reckon.Proofs.Binary.Rounding
import Reckon.Proofs.Binary.Nearest
import Reckon.Proofs.Binary.Widening
import Reckon.Proofs.Binary.Stages
import Reckon.Proofs.Binary.Order
import Reckon.Proofs.Text.ByteOrder
import Reckon.Proofs.Evaluation.Kinds
import Reckon.Proofs.Evaluation.Machine
import Reckon.Proofs.Evaluation.Names
import Reckon.Proofs.Evaluation.Alike
import Reckon.Proofs.Evaluation.History
import Reckon.Proofs.Evaluation.Context
import Reckon.Proofs.Evaluation.Integers
import Reckon.Proofs.Evaluation.Paths
import Reckon.Proofs.Evaluation.RoundTrip
import Reckon.Proofs.Evaluation.Comparisons
import Reckon.Proofs.CommandLine.Loop
import Reckon.Proofs.CommandLine.OneLine
import Reckon.Proofs.CommandLine.Typing
import Reckon.Proofs.CommandLine.Decimals
