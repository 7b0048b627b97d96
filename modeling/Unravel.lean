import Unravel.Assembler
import Unravel.Engine
import Unravel.Graph.Dot
import Unravel.Opcode.Forms
import Unravel.Proofs.Assembly.Labels
import Unravel.Proofs.Body.Depths
import Unravel.Proofs.Engine.Accounting
import Unravel.Proofs.Engine.Batches
import Unravel.Proofs.Engine.Independence
import Unravel.Proofs.Fold.Arithmetic
import Unravel.Proofs.Fold.Modes
import Unravel.Proofs.Graph.Chains
import Unravel.Proofs.Graph.Clearing
import Unravel.Proofs.Graph.EdgeViews
import Unravel.Proofs.Graph.InPlace
import Unravel.Proofs.Graph.Leaders
import Unravel.Proofs.Graph.Search
import Unravel.Proofs.Inline.Depth
import Unravel.Proofs.Pass.Convergence
import Unravel.Proofs.Pass.Tails
import Unravel.Proofs.Predicate.Lockstep
import Unravel.Proofs.Predicate.Sites
