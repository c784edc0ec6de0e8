import Diglot.Main
import Diglot.Command.FileTree
import Diglot.ExpectedOutput
import Diglot.Sequence
import Diglot.Tree.Equality
import Diglot.Proofs.Comments
import Diglot.Proofs.RoundTrip
import Diglot.Proofs.Trailer
import Diglot.Proofs.Promotion
import Diglot.Proofs.Awaited
import Diglot.Proofs.Reparsing
import Diglot.Proofs.Relayout
import Diglot.Proofs.LoneExpr
import Diglot.Proofs.Trivia
import Diglot.Proofs.Parentheses
import Diglot.Proofs.HandBuilt
import Diglot.Proofs.Lossless
import Diglot.Proofs.Generating
import Diglot.Proofs.Rebuilding
import Diglot.Proofs.Lawful
import Diglot.Proofs.Positions
import Diglot.Proofs.Lockstep
import Diglot.Proofs.History
import Diglot.Proofs.Identified
import Diglot.Proofs.Progress
import Diglot.Proofs.Chains
import Diglot.Proofs.Standalone
import Diglot.Proofs.Respelling
import Diglot.Proofs.Grounds
import Diglot.Proofs.Holding
import Diglot.Proofs.Outputs
import Diglot.Proofs.Hiding
import Diglot.Proofs.Naming
import Diglot.Proofs.Delimited
import Diglot.Proofs.Bookkeeping
