import FileStorage.Run
import FileStorage.Server.QueueTail
import FileStorage.Server.LockReplies
import FileStorage.Server.StatusBytes
import FileStorage.Server.LockedFiles
import FileStorage.Server.ConcurrentEviction
import FileStorage.Server.Handover
import FileStorage.Server.Delivery
import FileStorage.Server.Routing
import FileStorage.Server.LockOwners
import FileStorage.Server.ConcurrentCreates
import FileStorage.Server.GuardRelease
import FileStorage.Client.ReadNFiles
import FileStorage.Client.AppendToFile
import FileStorage.Server.BucketLists
import FileStorage.Server.Capacity
import FileStorage.Server.Commutation
import FileStorage.Server.SegmentedEviction
import FileStorage.Server.FifoQueue
import FileStorage.Server.FifoIndex
import FileStorage.Server.MainLoop
import FileStorage.Server.Shutdown
import FileStorage.Server.LockOrder
import FileStorage.Server.Cleanup
import FileStorage.Server.Room
import FileStorage.Server.Visitor
import FileStorage.Server.Refusals
import FileStorage.Server.SelfWaiter
import FileStorage.Server.Waiters
import FileStorage.Server.WaitLedger
import FileStorage.Server.Drained
import FileStorage.Server.WriteSizes
import FileStorage.Server.Reallocation
import FileStorage.Server.ConfigFile
import FileStorage.Client.Truncation
import FileStorage.Client.EvictedFiles
import FileStorage.Client.WriteDirOption
import FileStorage.Client.DirTree
import FileStorage.Client.NestedFailures
import FileStorage.Client.ReadBytes
import FileStorage.Client.Connection
import FileStorage.Client.Durability
import FileStorage.Client.Transfers
import FileStorage.Server.Linearizability
import FileStorage.Server.Joining
import FileStorage.Server.Release
import FileStorage.Server.Survival
import FileStorage.Server.WorkerIds
import FileStorage.Server.Drops
