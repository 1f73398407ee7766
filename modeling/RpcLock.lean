import RpcLock.Library.Machine
import RpcLock.Library.Mutex
import RpcLock.Library.GracePeriod
import RpcLock.Library.Linearizable
import RpcLock.Library.Ownership
import RpcLock.Library.CondVar
import RpcLock.Library.SortedMap
import RpcLock.Library.WordOrder
import RpcLock.Library.RefCount
import RpcLock.Library.BigEndian
import RpcLock.Rpc.Message
import RpcLock.PollMgr.PollMgr
import RpcLock.PollMgr.Steps
import RpcLock.PollMgr.HighFd
import RpcLock.PollMgr.Removal
import RpcLock.PollMgr.Reuse
import RpcLock.PollMgr.WatchTable
import RpcLock.PollMgr.EPollAio
import RpcLock.Rpcs.ReplyTables
import RpcLock.Rpcs.Dispatch
import RpcLock.Rpcs.DispatchSteps
import RpcLock.Rpcs.AtMostOnce
import RpcLock.Rpcs.ReplyWindow
import RpcLock.Rpcs.ReplyLedger
import RpcLock.Rpcs.ReplyCache
import RpcLock.Rpcs.DispatchLedger
import RpcLock.Rpcs.Acknowledgement
import RpcLock.Rpcs.ConnServer
import RpcLock.Rpcs.References
import RpcLock.Rpcs.ReferenceSteps
import RpcLock.Rpcs.ReferenceBalance
import RpcLock.Rpcs.Routing
import RpcLock.Rpcs.Stubs
import RpcLock.Rpcs.Methods
import RpcLock.Rpcs.ReplyConnection
import RpcLock.Rpcs.ReplyBuffers
import RpcLock.Rpcs.Overtaking
import RpcLock.Rpcs.Answers
import RpcLock.Rpcs.InTime
import RpcLock.Rpcs.Stops
import RpcLock.Rpcs.Teardown
import RpcLock.Rpcc.XidWindow
import RpcLock.Rpcc.Client
import RpcLock.Rpcc.Waiting
import RpcLock.Rpcc.Outcome
import RpcLock.Rpcc.Cancel
import RpcLock.Rpcc.Channel
import RpcLock.Rpcc.ChannelReferences
import RpcLock.Rpcc.Timespec
import RpcLock.Rpcc.Retry
import RpcLock.System.Network
import RpcLock.System.Traffic
import RpcLock.System.Forgotten
import RpcLock.System.SavedReply
import RpcLock.System.EndToEnd
import RpcLock.System.Classification
import RpcLock.System.Records
import RpcLock.System.Linearizability
import RpcLock.System.Completion
import RpcLock.System.TypedCalls
import RpcLock.Connection.Pdu
import RpcLock.Connection.Send
import RpcLock.Connection.Writes
import RpcLock.Connection.Wakeups
import RpcLock.Connection.WriteCallback
import RpcLock.Connection.Rounds
import RpcLock.Connection.Receive
import RpcLock.Connection.Reads
import RpcLock.Connection.ReadBuffer
import RpcLock.Connection.Closing
import RpcLock.Connection.Stream
import RpcLock.Connection.Process
import RpcLock.Connection.Deletion
import RpcLock.Connection.DeletionSteps
import RpcLock.Connection.Lifetime
import RpcLock.Marshall.Buffer
import RpcLock.Marshall.Types
import RpcLock.Marshall.Bounds
import RpcLock.Marshall.Target
import RpcLock.Marshall.Containers
import RpcLock.Marshall.Put
import RpcLock.Marshall.Get
import RpcLock.Marshall.RoundTrip
import RpcLock.Marshall.Accept
import RpcLock.Marshall.TwoRuns
import RpcLock.Marshall.Room
import RpcLock.ThrPool.Fifo
import RpcLock.ThrPool.ThrPool
import RpcLock.ThrPool.Steps
import RpcLock.ThrPool.Accounts
import RpcLock.ThrPool.Drain
import RpcLock.LockServer.LockServer
import RpcLock.LockServer.Stranded
import RpcLock.LockServer.Pool
import RpcLock.LockServer.Wedging
import RpcLock.LockServer.Mutexes
import RpcLock.LockServer.Protocol
import RpcLock.LockServer.Clients
import RpcLock.LockServer.Exclusion
