import T4.WritePath.Serial
import T4.Recovery.Crash
import T4.Remote.Durability
import T4.Election.Shutdown
import T4.Remote.Authority
import T4.Remote.Interrupted
import T4.Checkpoint.Gc
import T4.Checkpoint.Registry
import T4.Wal.Upload
import T4.Remote.LeaderRun
import T4.Remote.Promotion
import T4.Wal.Naming
import T4.Cluster.Streams
import T4.Checkpoint.Branch
import T4.Checkpoint.Manifest
import T4.WritePath.Watermark
import T4.Store.Overtaken
import T4.Cluster.Reads
import T4.Peer.Durable
import T4.WritePath.Records
import T4.WritePath.Forward
import T4.Store.Superseded
import T4.Recovery.Reappended
import T4.Wal.TxnCodec
import T4.Peer.Codec
import T4.Peer.Alarm
import T4.Store.FailedBatch
import T4.Etcd.Compare
import T4.Checkpoint.Confined
import T4.Etcd.Lockout
import T4.Etcd.AuthStore
import T4.Object.Cipher
import T4.Etcd.Previous
