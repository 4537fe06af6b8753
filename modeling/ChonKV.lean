import ChonKV.Cluster.Origin
import ChonKV.Kv.StaleReads
import ChonKV.Raft.BlobFlips
import ChonKV.Raft.BlobBursts
import ChonKV.Handler.Transfer
import ChonKV.Labrpc.Message
import ChonKV.Labrpc.SocketTransport
import ChonKV.Labrpc.FrameReader
import ChonKV.Kv.Convergence
import ChonKV.Kv.Recovery
import ChonKV.Kv.SessionOrder
import ChonKV.Kv.WaitOp
import ChonKV.Kv.Clerk
import ChonKV.Durable.Alignment
import ChonKV.Durable.ReadBack
import ChonKV.Durable.SingleFlight
import ChonKV.Durable.Cursors
import ChonKV.Durable.Electorate
import ChonKV.Durable.StateWrites
import ChonKV.Assoc.Merge
import ChonKV.Porcupine.EventList
import ChonKV.Segment.Damage
import ChonKV.Segment.GroupCommit
import ChonKV.Handler.Malformed
import ChonKV.Durable.IndexOrder
