import Bugat.Lib.Transition
import Bugat.Lib.Fairness
import Bugat.Lib.Threads
import Bugat.Lib.Counting
import Bugat.Lib.MachineInt
import Bugat.Lib.LinkedChain
import Bugat.Lib.IoContext
import Bugat.Lib.Monitor
import Bugat.Lib.WeakLoop
import Bugat.Lib.BitParts
import Bugat.Lib.Tiling
import Bugat.Lib.Gregorian
import Bugat.Lib.AtomicObject
import Bugat.Lib.Hindsight
import Bugat.Lib.Routine
import Bugat.Core.TaskSerializer
import Bugat.Core.TaskSerializerCounts
import Bugat.Core.TaskSerializerOrder
import Bugat.Core.TaskSerializerThreads
import Bugat.Core.MemoryPool
import Bugat.Core.MemoryPoolBlocks
import Bugat.Core.MemoryPoolSeparation
import Bugat.Core.ObjectPool
import Bugat.Core.TLSMemoryPool
import Bugat.Core.TLSMemoryPoolPlaces
import Bugat.Core.TLSMemoryPoolAlign
import Bugat.Core.LockFreeMemory
import Bugat.Core.LockFreeQueueLoops
import Bugat.Core.LockFreeQueueNodes
import Bugat.Core.LockFreeQueueHandles
import Bugat.Core.LockFreeQueueLifetimes
import Bugat.Core.LockFreeQueueSequential
import Bugat.Core.AnyTaskQueue
import Bugat.Core.AnyTask
import Bugat.Core.LockFreeQueue
import Bugat.Core.LockFreeQueueHistory
import Bugat.Core.LockFreeQueueInv
import Bugat.Core.LockFreeQueueSteps
import Bugat.Core.LockFreeQueueRuns
import Bugat.Core.LockFreeQueueTail
import Bugat.Core.LockFreeQueueLinear
import Bugat.Core.TaggedPtr
import Bugat.Core.TSharedPtr
import Bugat.Core.TSharedPtrCounts
import Bugat.Core.TSharedPtrSteps
import Bugat.Core.TSharedPtrRuns
import Bugat.Core.TSharedPtrAssign
import Bugat.Core.TSharedPtrCascade
import Bugat.Core.TSharedPtrAssignRuns
import Bugat.Core.TSharedPtrDeleter
import Bugat.Core.TSharedPtrDeleterRuns
import Bugat.Core.FreeList
import Bugat.Core.FreeListOwnership
import Bugat.Core.RWLockObject
import Bugat.Core.RWLockObjectInv
import Bugat.Core.RWLockObjectClients
import Bugat.Core.Event
import Bugat.Core.RTTI
import Bugat.Core.DateTime
import Bugat.Core.DateTimeIntervals
import Bugat.Core.DateTimeMoves
import Bugat.Base.SerializeObject
import Bugat.Base.SerializeObjectTokens
import Bugat.Base.SerializeObjectRuns
import Bugat.Base.AwaitTask
import Bugat.Base.AwaitTaskLifetime
import Bugat.Base.DataBlock
import Bugat.Base.Framing
import Bugat.Base.NetworkMessage
import Bugat.Base.NetworkMessageSafety
import Bugat.Base.NetworkMessageDecode
import Bugat.Base.NetworkMessageReassembly
import Bugat.Base.SendLoop
import Bugat.Base.Connection
import Bugat.Base.ConnectionOnce
import Bugat.Base.ConnectionOrder
import Bugat.Base.ConnectionSocket
import Bugat.Base.ConnectionClose
import Bugat.Base.ConnectionSession
import Bugat.Base.ConnectionRegistration
import Bugat.Base.Context
import Bugat.Base.ContextOwnership
import Bugat.Base.ContextStop
import Bugat.Base.ContextEntries
import Bugat.Base.ContextFair
import Bugat.Base.ContextFairRuns
import Bugat.Base.Executor
import Bugat.Base.ExecutorRuns
import Bugat.Base.ExecutorTasks
import Bugat.Base.AwaitTaskCalls
import Bugat.Base.AwaitTaskFrames
import Bugat.Base.AwaitTaskSteps
import Bugat.Base.AwaitTaskEvaluation
import Bugat.Base.NetworkContext
import Bugat.Base.RedisClient
import Bugat.Base.Param
import Bugat.Base.Counter
import Bugat.Base.NetworkMessagePackets
import Bugat.Base.NetworkMessageGrowth
import Bugat.Base.SendPackets
import Bugat.Base.Wire
import Bugat.Base.ObjectManager
import Bugat.Base.ObjectManagerLocks
import Bugat.Base.ObjectManagerHistory
import Bugat.GameServer.SessionManger
import Bugat.GameServer.GameSession
import Bugat.GameServer.MessageOrder
import Bugat.GameServer.RecvMoves
import Bugat.GameServer.Delivery
