import LionFS.Snapshot.Delete
import LionFS.Vfs.Durable
import LionFS.Vfs.Scratch
import LionFS.Journal.Durability
import LionFS.Fs.Counters
import LionFS.File.ByteFile
import LionFS.File.Checks
import LionFS.File.Sharing
import LionFS.Cluster.Raft.Safety
import LionFS.Cluster.Raft.Backoff
import LionFS.Cluster.Engine.References
import LionFS.Cluster.Engine.Snapshots
import LionFS.Cluster.Engine.Recovery
import LionFS.Cluster.Wal
import LionFS.IoEngine.GroupCommit
import LionFS.IoEngine.Mpmc
import LionFS.Security.Keys
import LionFS.BTree.Floor
import LionFS.Cluster.Crdt
import LionFS.Cluster.Hlc
import LionFS.File.Rmdir
import LionFS.Snapshot.Diff
import LionFS.Media.Alignment
import LionFS.Qos.TokenBucket
import LionFS.Wiring.SmallWrite
import LionFS.Cluster.Checkpoint.Zones
