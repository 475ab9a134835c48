import GfsCluster.Naming.Layout
import GfsCluster.Naming.Cleanup
import GfsCluster.Client.Snapshot
import GfsCluster.Cluster.Step
import GfsCluster.Cluster.Moves
import GfsCluster.Cluster.Payload
import GfsCluster.Cluster.Reads
import GfsCluster.Naming.Pending
import GfsCluster.Cluster.Uploads
import GfsCluster.Cluster.Commit
import GfsCluster.Cluster.Repair
import GfsCluster.Cluster.Scrub
import GfsCluster.Naming.Alone
import GfsCluster.Cluster.Kept
import GfsCluster.Cluster.Undisturbed
import GfsCluster.Cluster.RoundTrip
import GfsCluster.Cluster.Abort
import GfsCluster.Naming.Doomed
import GfsCluster.Cluster.Intact
import GfsCluster.Cluster.Sessions
import GfsCluster.Lib.Edits
import GfsCluster.Naming.Repairs
import GfsCluster.Naming.Pass
import GfsCluster.Naming.HealOnce
import GfsCluster.Naming.Convergence
import GfsCluster.Naming.Interference
import GfsCluster.Naming.Liveness
import GfsCluster.Lib.Catalog
import GfsCluster.Metadata.FileMap
import GfsCluster.Metadata.Refinement
import GfsCluster.Lib.Tally
import GfsCluster.Storage.Server
import GfsCluster.Naming.Ledger
import GfsCluster.Naming.Rejection
import GfsCluster.Naming.Exactness
import GfsCluster.Metadata.OneFile
import GfsCluster.Cluster.Elsewhere
import GfsCluster.Cluster.Accounting
import GfsCluster.Cluster.Orphans
import GfsCluster.Naming.Sources
import GfsCluster.Naming.Deployments
import GfsCluster.Naming.ShortCircuit
import GfsCluster.Metadata.Faults
import GfsCluster.Client.FetchRounds
import GfsCluster.Client.Create
import GfsCluster.Metadata.Aggregates
import GfsCluster.Naming.Encoding
import GfsCluster.Lib.Inodes
import GfsCluster.Storage.Servicer
import GfsCluster.Storage.Writers
import GfsCluster.Storage.Counters
import GfsCluster.Lib.Posix
import GfsCluster.Storage.Paths
import GfsCluster.Storage.InTurn
import GfsCluster.Lib.RoundRobin
import GfsCluster.Naming.Placement
import GfsCluster.Naming.Heartbeats
import GfsCluster.Naming.Suspicion
import GfsCluster.Naming.Detection
import GfsCluster.Lib.Mutex
import GfsCluster.Metadata.WriteLock
import GfsCluster.Client.PlainRead
import GfsCluster.Cluster.Availability
import GfsCluster.Cluster.Durability
import GfsCluster.Lib.Service
import GfsCluster.Storage.Linearizable
import GfsCluster.Cluster.Collection
import GfsCluster.Client.FileService
import GfsCluster.Cluster.Service
import GfsCluster.Metadata.Gauges
import GfsCluster.Cluster.Metrics
import GfsCluster.Client.Register
import GfsCluster.Cluster.Register
import GfsCluster.Cluster.Hosts
import GfsCluster.Cluster.Simulation
import GfsCluster.Cluster.HostReads
import GfsCluster.Cluster.HostRoundTrip
