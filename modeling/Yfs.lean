import Yfs.Effect.Program
import Yfs.Effect.Hoare
import Yfs.Effect.Relational
import Yfs.Effect.Divergence
import Yfs.Effect.Resource
import Yfs.Effect.Interleave
import Yfs.Effect.Transition
import Yfs.Effect.CondVar
import Yfs.Effect.Tally
import Yfs.Effect.Memory
import Yfs.Effect.SortedMap
import Yfs.Effect.Serial
import Yfs.Effect.Object
import Yfs.Store.Bitmap
import Yfs.Store.Block
import Yfs.Store.BlockManager
import Yfs.Store.Inode
import Yfs.Store.InodeManager
import Yfs.Store.ExtentServer
import Yfs.Store.Layout
import Yfs.Store.Ownership
import Yfs.Store.WriteSpec
import Yfs.Store.ReadSpec
import Yfs.Store.RemoveSpec
import Yfs.Store.Funds
import Yfs.Store.Files
import Yfs.Store.Serve
import Yfs.Store.InodeTable
import Yfs.Store.Refinement
import Yfs.Store.Accounting
import Yfs.Store.Sequential
import Yfs.Store.FullWrite
import Yfs.Store.Capacity
import Yfs.Store.Exhaustion
import Yfs.Store.Containment
import Yfs.Store.Bounds
import Yfs.Store.Overread
import Yfs.Store.Lockstep
import Yfs.Store.WritePair
import Yfs.Store.Noninterference
import Yfs.Store.Serializability
import Yfs.Store.Handlers
import Yfs.Store.Lab1Tester
import Yfs.Rpc.Word
import Yfs.Rpc.NetOrder
import Yfs.Rpc.AckWindow
import Yfs.Rpc.ReplyWindow
import Yfs.Rpc.Lifecycle
import Yfs.Rpc.Retry
import Yfs.Rpc.SelectAIO
import Yfs.Rpc.PollMgr
import Yfs.Rpc.EPollAIO
import Yfs.Rpc.SelectRange
import Yfs.Rpc.Connection
import Yfs.Rpc.Reader
import Yfs.Rpc.Sender
import Yfs.Rpc.Framing
import Yfs.Rpc.Shutdown
import Yfs.Rpc.WriteCallback
import Yfs.Rpc.Waits
import Yfs.Rpc.Wakeup
import Yfs.Rpc.Fifo
import Yfs.Rpc.Refconn
import Yfs.Rpc.ConnRefs
import Yfs.Rpc.ConnLife
import Yfs.Rpc.ThrPool
import Yfs.Rpc.PoolRuns
import Yfs.Rpc.PoolShutdown
import Yfs.Rpc.Marshall
import Yfs.Rpc.Unmarshall
import Yfs.Rpc.Wire
import Yfs.Rpc.RoundTrip
import Yfs.Rpc.Growth
import Yfs.Rpc.Parser
import Yfs.Rpc.Extraction
import Yfs.Rpc.Dispatch
import Yfs.Rpc.Progress
import Yfs.Rpc.References
import Yfs.Rpc.Accounting
import Yfs.Rpc.ReplyConnection
import Yfs.Rpc.ReplyBuffers
import Yfs.Rpc.DispatchPool
import Yfs.Rpc.Client
import Yfs.Rpc.System
import Yfs.Rpc.Requests
import Yfs.Rpc.Service
import Yfs.Rpc.AtMostOnce
import Yfs.Rpc.Forgotten
import Yfs.Rpc.Cancel
import Yfs.Rpc.Carries
import Yfs.Rpc.Remote
import Yfs.Rpc.Delivery
import Yfs.Rpc.Site
import Yfs.Rpc.Typed
import Yfs.Rpc.Linear
import Yfs.Server.TestService
import Yfs.Server.Calls
import Yfs.Server.ExtentService
