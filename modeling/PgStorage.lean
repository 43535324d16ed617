import PgStorage.Wah.Conversion
import PgStorage.Wah.ClearBit
import PgStorage.Wah.Join
import PgStorage.Hrl.ScanProofs
import PgStorage.Hrl.CleanupProofs
import PgStorage.Hrl.MarkProofs
import PgStorage.BufMgr.PinProofs
import PgStorage.BufMgr.FailureProofs
import PgStorage.BufMgr.LocalProofs
import PgStorage.BufMgr.Sync
import PgStorage.BufMgr.BlockProofs
import PgStorage.Lmgr.WaitQueue
import PgStorage.Lmgr.Multi
import PgStorage.Lmgr.Release
import PgStorage.Md.Store
import PgStorage.Md.Durable
import PgStorage.Ipc.Delivery
import PgStorage.Hash.Growth
import PgStorage.Sinval.Delivery
import PgStorage.Bufpage.Refine
import PgStorage.ShmMq.Fifo
import PgStorage.Buffer.PinCounts
import PgStorage.Buffer.CleanupProofs
import PgStorage.Buffile.Calls
import PgStorage.Fsync.Durable
import PgStorage.Smgr.Nested
import PgStorage.LargeObject.Calls
import PgStorage.TidBitmap.Family
import PgStorage.Dsm.Lifetime
import PgStorage.Predicate.Bookkeeping
import PgStorage.Gin.Removal
import PgStorage.Hrl.Enumeration
import PgStorage.Hrl.UnionWords
import PgStorage.Hrl.Merge
import PgStorage.Hrl.InPlace
import PgStorage.Hrl.Append
import PgStorage.Deadlock.Resolution
import PgStorage.Deadlock.Workspace
import PgStorage.Slotted.Delete
import PgStorage.Fsm.Vacuum
import PgStorage.Fsm.Addressing
import PgStorage.Freespace.Pack
import PgStorage.Ipc.ShmToc
import PgStorage.BufMgr.ClockSweep
import PgStorage.BufMgr.BgWriter
import PgStorage.BufMgr.VictimSelection
import PgStorage.Predicate.ConflictOut
import PgStorage.Procarray.RecoveryInfo
import PgStorage.Bufpage.Corrupt
import PgStorage.Predicate.OldSerXid
