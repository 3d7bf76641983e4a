import SlotAuction.Candidate.Defect
import SlotAuction.Main
import SlotAuction.Outcome.Codec
import SlotAuction.Proofs.Anonymity
import SlotAuction.Proofs.Capacity
import SlotAuction.Proofs.Checked.Award
import SlotAuction.Proofs.Conservation
import SlotAuction.Proofs.Consistency
import SlotAuction.Proofs.Coverage
import SlotAuction.Proofs.Encoding
import SlotAuction.Proofs.Exchange.Cover
import SlotAuction.Proofs.Fill.Counter
import SlotAuction.Proofs.Gate
import SlotAuction.Proofs.Leaders
import SlotAuction.Proofs.Leases
import SlotAuction.Proofs.Monotonicity
import SlotAuction.Proofs.NearestAmount
import SlotAuction.Proofs.Outbidding
import SlotAuction.Proofs.PlacementOrder
import SlotAuction.Proofs.Quotients
import SlotAuction.Proofs.Reuse
import SlotAuction.Proofs.Room
import SlotAuction.Proofs.Singles
import SlotAuction.Proofs.SlotRoot
import SlotAuction.Proofs.Stability
import SlotAuction.Proofs.StableSort
import SlotAuction.Proofs.StatedBids
import SlotAuction.Proofs.Ties
import SlotAuction.Proofs.Value
import SlotAuction.Proofs.Withdrawal
import SlotAuction.Scratch.Custody
import SlotAuction.Settings.Folder
