import Kyria.AntiEntropy.Rounds
import Kyria.Cluster.Collapse
import Kyria.Cluster.FanOut
import Kyria.Cluster.Freshness
import Kyria.Cluster.Quorum
import Kyria.Cluster.Repair
import Kyria.Cluster.Session
import Kyria.Fixpoint
import Kyria.Gossip.Detection
import Kyria.Gossip.Refutation
import Kyria.Gossip.Restart
import Kyria.Handoff.Replay
import Kyria.LeafCount
import Kyria.Merkle.Diff
import Kyria.Merkle.Wire
import Kyria.Node
import Kyria.Replica.Retry
import Kyria.Replies.Sizes
import Kyria.Routing.Placement
import Kyria.Routing.Swap
import Kyria.Server.Pool
import Kyria.Server.Recording
import Kyria.Store.Concurrent
import Kyria.Store.Expiry
import Kyria.Store.Frequency
import Kyria.Store.Recency
import Kyria.Store.Sharded
import Kyria.Store.Sketch
import Kyria.TombstoneGC.Sweep
import Kyria.Ttl
import Kyria.Flags
