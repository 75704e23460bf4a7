import Lox.Token.Stream
import Lox.Syntax.Use
import Lox.Session
import Lox.Main
import Lox.Proofs.Restoration
import Lox.Proofs.Grammar.Exact
import Lox.Proofs.Scoping.Agreement
import Lox.Proofs.Renaming.Stability
import Lox.Proofs.Region.Reachable
import Lox.Proofs.Flow.Containment
import Lox.Proofs.Pieces
import Lox.Proofs.Termination
import Lox.Proofs.Lexing.Segments
import Lox.Proofs.Lexing.Grammar
import Lox.Proofs.Lexing.LongestMatch
import Lox.Proofs.Parsing.Recovery
import Lox.Proofs.Relabelling.Stores
import Lox.Proofs.Relabelling.Simulation
import Lox.Proofs.Output.Limits
import Lox.Proofs.Relabelling.Parsing
import Lox.Proofs.Relabelling.Resolving
import Lox.Proofs.Relabelling.Lines
import Lox.Proofs.Methods.Anchored
import Lox.Proofs.Methods.Frames
import Lox.Proofs.Methods.Keeping
import Lox.Proofs.Methods.Visited
import Lox.Proofs.Methods.Super
import Lox.Proofs.Methods.Initializers
import Lox.Proofs.Depth
import Lox.Proofs.Printing
import Lox.Proofs.Occurrences.Apart
import Lox.Proofs.Grounding.Lookups
import Lox.Proofs.Lexing.Joining
import Lox.Proofs.Number.Literals
import Lox.Proofs.Verdicts
import Lox.Proofs.Scoping.Writes
import Lox.Proofs.Sites.Violations
import Lox.Proofs.Sites.Distances
import Lox.Proofs.Json.Listing
import Lox.Proofs.Variables
import Lox.Proofs.Number.Notations
import Lox.Proofs.TreeText.Sources
import Lox.Proofs.Loops.Meaning
import Lox.Proofs.Output.Reports
import Lox.Proofs.Parsing.LoopCount
import Lox.Proofs.Lexing.Cursors
import Lox.Proofs.Properties.Access
import Lox.Proofs.Scoping.Context
