import Troves.Deployment
import Troves.Proofs.DefaultPool
import Troves.Proofs.Gains
import Troves.Proofs.Positions
import Troves.Proofs.Order
import Troves.Proofs.Sequence
import Troves.Proofs.Solvency
import Troves.Proofs.Safekeeping
import Troves.Proofs.Visits
import Troves.Proofs.ActivePool
import Troves.Proofs.Backing
import Troves.Proofs.Closings
import Troves.Proofs.Custody
import Troves.Proofs.Walks
import Troves.Proofs.Registry
import Troves.Proofs.Movements
import Troves.Proofs.Product
import Troves.Proofs.Possessions
import Troves.Proofs.Prefixes
import Troves.Proofs.Bystanders
import Troves.Proofs.Overtaking
import Troves.Proofs.Provenance
import Troves.Proofs.Shares
import Troves.Proofs.Hints
import Troves.Proofs.Openings
import Troves.Proofs.Stakes
import Troves.Proofs.Epochs
import Troves.Proofs.Fetching
import Troves.Proofs.Settlements
import Troves.Proofs.Recoveries
import Troves.Proofs.Cutoffs
import Troves.Proofs.Remainders
import Troves.Proofs.Instalments
