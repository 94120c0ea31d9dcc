import DistributedLabs.KvRaft.Notify
import DistributedLabs.KvRaft.SnapShot
import DistributedLabs.MapReduce.EndToEnd
import DistributedLabs.Models.KvLogs
import DistributedLabs.Raft.LogShape
import DistributedLabs.Raft.Repair
import DistributedLabs.Raft.SelfLock
import DistributedLabs.Raft.Wakeup
