import Lox.Main
import Lox.Tree.Preorder
import Lox.Proofs.Answer
import Lox.Proofs.Layered
import Lox.Proofs.Grammar
import Lox.Proofs.Derivation
import Lox.Proofs.Sentences
import Lox.Proofs.Acceptance
import Lox.Proofs.Reader
import Lox.Proofs.Following
import Lox.Proofs.Recovery
import Lox.Proofs.Residue
import Lox.Proofs.Tracks
import Lox.Proofs.Progress
import Lox.Proofs.Runner
import Lox.Proofs.Simulation
import Lox.Proofs.Related
import Lox.Proofs.Frames
import Lox.Proofs.Scopes
import Lox.Proofs.History
import Lox.Proofs.Noninterference
import Lox.Proofs.Counters
import Lox.Proofs.Lockstep
import Lox.Proofs.Trees
import Lox.Proofs.Safety
import Lox.Proofs.Padding
import Lox.Proofs.CountedLoops
import Lox.Proofs.Spans
import Lox.Proofs.Patterns
import Lox.Proofs.Munch
import Lox.Proofs.Respelling
import Lox.Proofs.Lines
import Lox.Proofs.Relabel
import Lox.Proofs.Layout
import Lox.Proofs.EarliestFault
import Lox.Proofs.Seams
import Lox.Proofs.Joined
import Lox.Proofs.LineNumbers
import Lox.Proofs.Environments
import Lox.Proofs.Depth
import Lox.Proofs.SessionDepth
import Lox.Proofs.Trace
import Lox.Proofs.Returns
import Lox.Proofs.PrintedLines
import Lox.Proofs.Causes
import Lox.Proofs.SourceLines
import Lox.Proofs.Origins
import Lox.Proofs.TreeTokens
import Lox.Proofs.Words
import Lox.Proofs.Decimals
import Lox.Proofs.Forms
import Lox.Proofs.Readable
import Lox.Proofs.Parenthesized
import Lox.Proofs.WrittenNumbers
import Lox.Proofs.RereadNumbers
import Lox.Proofs.Traversal
import Lox.Proofs.Conversation
