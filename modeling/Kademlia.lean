import Kademlia.Bytes
import Kademlia.Bytes.Hex
import Kademlia.Bytes.Word
import Kademlia.NodeId
import Kademlia.NodeId.Text
import Kademlia.NodeId.LeadingBits
import Kademlia.Distance
import Kademlia.Address
import Kademlia.Contact
import Kademlia.Contact.Compact
import Kademlia.Contact.Stored
import Kademlia.Peer
import Kademlia.Bucket.Slots
import Kademlia.Bucket
import Kademlia.ClosestSet
import Kademlia.Event
import Kademlia.Table
import Kademlia.Table.Directed
import Kademlia.Table.Sweep
import Kademlia.Table.Insert
import Kademlia.Table.Closest
import Kademlia.Table.Persist
import Kademlia.Table.Refresh
import Kademlia.Table.Shared
import Kademlia.Proofs.Bits
import Kademlia.Proofs.Metric
import Kademlia.Proofs.Bucket
import Kademlia.Proofs.Run
import Kademlia.Proofs.Table
import Kademlia.Proofs.Insertion
import Kademlia.Proofs.Places
import Kademlia.Proofs.Invariant
import Kademlia.Proofs.History
import Kademlia.Proofs.Accounts
import Kademlia.Proofs.Decision
import Kademlia.Proofs.Expansion
import Kademlia.Proofs.Admission
import Kademlia.Proofs.Gathering
import Kademlia.Proofs.Depth
import Kademlia.Proofs.Reload
import Kademlia.Proofs.Checked
import Kademlia.Proofs.Faultless
import Kademlia.Proofs.Compact
import Kademlia.Proofs.Text
import Kademlia.Proofs.Offers
import Kademlia.Proofs.Retry
import Kademlia.Proofs.Eviction
import Kademlia.Proofs.Partition
import Kademlia.Proofs.Decay
import Kademlia.Proofs.Lookup
import Kademlia.Proofs.LeadingBits
import Kademlia.Proofs.Refresh
import Kademlia.Proofs.FirstDifference
import Kademlia.Proofs.ChangeTimes
import Kademlia.Proofs.Visits
import Kademlia.Proofs.Replacement
import Kademlia.Proofs.Liveness
import Kademlia.Proofs.Restoring
import Kademlia.Proofs.Seeding
import Kademlia.Proofs.NumericMetric
import Kademlia.Proofs.Overlay
import Kademlia.Proofs.BucketRun
import Kademlia.Proofs.Migration
import Kademlia.Proofs.Stored
