import MachVM.Resident
import MachVM.Lib.Mirror
import MachVM.Lib.Ring
import MachVM.MapInvariant
import MachVM.MapDeleteSteps
import MachVM.MapInsertSteps
import MachVM.MapReach
import MachVM.ResidentQueues
import MachVM.ResidentReach
import MachVM.CollapseContent
import MachVM.CollapseKeep
import MachVM.CollapseLoop
import MachVM.MapCopy
import MachVM.MapTranslate
import MachVM.MapVerify
import MachVM.ObjectCopySteps
import MachVM.ObjectReach
import MachVM.FaultAccount
import MachVM.FaultPage
import MachVM.FaultLocks
import MachVM.MemoryObject
import MachVM.MemoryObjectPages
import MachVM.MemoryObjectReach
import MachVM.PagerReplyData
import MachVM.MapLocksBalance
import MachVM.ObjectCache
import MachVM.ObjectCachePorts
import MachVM.ObjectCacheReach
import MachVM.ObjectEventSteps
import MachVM.ResidentTotals
import MachVM.IpcMessage
import MachVM.IpcMessageAgree
import MachVM.IpcQueue
import MachVM.IpcQueueAccount
import MachVM.IpcQueueNotify
import MachVM.IpcQueueNotifyReach
import MachVM.IpcRights
import MachVM.IpcRightsMoves
import MachVM.IpcRightsHolder
import MachVM.IpcSet
import MachVM.IpcSetInvariant
import MachVM.IpcSetReach
import MachVM.IpcSpaceCoherent
import MachVM.IpcSpaceTranslations
import MachVM.LockReach
import MachVM.LockSleepers
import MachVM.IpcDestroyReach
import MachVM.CalloutHzto
import MachVM.IstructSteps
import MachVM.PagingFileAnswers
import MachVM.ZallocReach
import MachVM.PmapRange
import MachVM.SchedPlaces
import MachVM.SchedReach
import MachVM.SuspendReach
import MachVM.NetportReach
import MachVM.MapFirstFitReach
import MachVM.MapView
import MachVM.MapProtect
import MachVM.MapProtectReach
import MachVM.NetportTrid
import MachVM.NetportValidated
import MachVM.ClistReach
import MachVM.MfsLru
import MachVM.MfsLruReach
import MachVM.PhysTables
import MachVM.MfsFile
import MachVM.MfsFileSteps
import MachVM.MfsFileReach
import MachVM.FaultDataRight
import MachVM.External
import MachVM.InodeWrite
import MachVM.ObjectCoalesce
import MachVM.LockRequest
import MachVM.TaskTerminate
import MachVM.DataInitialize
import MachVM.IpcCopyinFailed
import MachVM.MapCheckProtection
import MachVM.MapSimplify
import MachVM.NetportAbort
import MachVM.TimerReach
import MachVM.NetportTcpExact
import MachVM.SchedScanReach
import MachVM.Lib.Runs
import MachVM.UfsAlloc
import MachVM.UfsGroup
import MachVM.UfsSteps
import MachVM.UfsReach
