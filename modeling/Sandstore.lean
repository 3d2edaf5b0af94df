import Sandstore.Server.Atomicity
import Sandstore.Orchestrators.Writers
import Sandstore.Server.Disjoint
import Sandstore.Raft.Position
import Sandstore.Raft.Failover
import Sandstore.Raft.Verified
import Sandstore.Orchestrators.Twins
import Sandstore.Cluster.Etcd
import Sandstore.Raft.Terms
import Sandstore.Raft.Wal
import Sandstore.Raft.Merging
import Sandstore.Metadata.Install
import Sandstore.Metadata.Tree
import Sandstore.Raft.StoreFiles
import Sandstore.Metadata.Index
import Sandstore.Metadata.Updates
import Sandstore.Metadata.Chunks
import Sandstore.Metadata.Numbers
import Sandstore.Client.ListDir
import Sandstore.Client.Resolve
import Sandstore.Server.Offsets
import Sandstore.Metadata.Wire
import Sandstore.Orchestrators.Placement
import Sandstore.Server.Endpoints
import Sandstore.Chunk.Promises
import Sandstore.Client.Redirect
import Sandstore.Client.Buffer
import Sandstore.Raft.Lasting
