import TacticNotation.FileTree
import TacticNotation.Main
import TacticNotation.Markup.Data
import TacticNotation.Markup.Element
import TacticNotation.Proofs.Grammar.Check
import TacticNotation.Proofs.Grammar.Gluing
import TacticNotation.Proofs.Grammar.Printing
import TacticNotation.Proofs.Grammar.Shorthands
import TacticNotation.Proofs.Grammar.Yield
import TacticNotation.Proofs.Markup.Entities
import TacticNotation.Proofs.Markup.Lossless
import TacticNotation.Proofs.Markup.Scanning
import TacticNotation.Proofs.Token.Replacing
import TacticNotation.Proofs.Tree.Instances
import TacticNotation.Proofs.Tree.Shape
import TacticNotation.Session
import TacticNotation.Tree.Walk
import TacticNotation.Proofs.Pattern.Preference
import TacticNotation.Proofs.Tree.Captures
import TacticNotation.Proofs.Tree.Finding
import TacticNotation.Proofs.Grammar.Blanks
import TacticNotation.Proofs.Tree.WellFormed
import TacticNotation.Proofs.Shorthand.FixedPoint
import TacticNotation.Proofs.Tree.Placeholders
import TacticNotation.Proofs.Tree.Repetitions
import TacticNotation.Proofs.CommandLine.Batch
import TacticNotation.Proofs.Token.Neighbours
import TacticNotation.Proofs.Token.Spans
import TacticNotation.Proofs.Shorthand.Acceptance
import TacticNotation.Proofs.Tree.Rereading
import TacticNotation.Proofs.Tree.Content
import TacticNotation.Proofs.Tree.OneLine
import TacticNotation.Proofs.Tree.Optional
import TacticNotation.Proofs.Tree.Data
import TacticNotation.Proofs.Shorthand.Locality
import TacticNotation.Proofs.Shorthand.Decomposition
import TacticNotation.Proofs.Tree.Visitor
import TacticNotation.Proofs.Grammar.Holes
import TacticNotation.Proofs.Tree.Splicing
import TacticNotation.Proofs.Grammar.Progress
