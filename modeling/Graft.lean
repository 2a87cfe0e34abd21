import Graft.Copy.Copier
import Graft.Tree.Text
import Graft.Proofs.Copy.Acceptance
import Graft.Proofs.Copy.Additions
import Graft.Proofs.Copy.Coverage
import Graft.Proofs.Copy.Gains
import Graft.Proofs.Copy.Image
import Graft.Proofs.Copy.Lawful
import Graft.Proofs.Copy.Map
import Graft.Proofs.Copy.Minting
import Graft.Proofs.Copy.Run
import Graft.Proofs.Copy.Session
import Graft.Proofs.Copy.Settling
import Graft.Proofs.Copy.Soundness
import Graft.Proofs.Copy.Step
import Graft.Proofs.Copy.Walk
import Graft.Proofs.Growth
import Graft.Proofs.Outcome
import Graft.Proofs.Program.Closed
import Graft.Proofs.Symbol.Records
import Graft.Proofs.Tree.Children
import Graft.Proofs.Tree.Preorder
import Graft.Proofs.Type.Interning
import Graft.Proofs.Type.Replay
import Graft.Proofs.Type.Total
import Graft.Proofs.Copy.Checking
import Graft.Proofs.Type.Structure
import Graft.Proofs.Type.Unfold
import Graft.Proofs.Type.Replacement
import Graft.Proofs.Copy.Closure
import Graft.Proofs.Copy.Safety
import Graft.Proofs.Copy.Renaming
import Graft.Proofs.Type.Composition
import Graft.Proofs.Copy.Transcript
import Graft.Proofs.Copy.Carry
import Graft.Proofs.Copy.Exchange
import Graft.Proofs.Copy.Composition
import Graft.Proofs.Copy.Specialization
import Graft.Proofs.Name.Session
import Graft.Proofs.Copy.Linking
import Graft.Proofs.Copy.Independence
import Graft.Proofs.Type.Exactness
import Graft.Proofs.Type.History
import Graft.Proofs.Type.Interleaving
import Graft.Proofs.Copy.Completion
import Graft.Proofs.Copy.Duplicates
import Graft.Proofs.Type.Parameters
import Graft.Proofs.Copy.Relevance
import Graft.Proofs.Copy.Numbers
import Graft.Proofs.Copy.Calls
import Graft.Proofs.Copy.Dangling
import Graft.Proofs.Copy.Hygiene
import Graft.Proofs.Type.Readability
import Graft.Proofs.Name.History
import Graft.Proofs.Copy.Recordings
import Graft.Proofs.Tree.Lines
import Graft.Proofs.Copy.Written
import Graft.Proofs.Copy.Dump
