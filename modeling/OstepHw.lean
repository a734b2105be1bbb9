import OstepHw.Lib.Loop
import OstepHw.Lib.Bitmap
import OstepHw.Fsck.Disk
import OstepHw.Fsck.Xcheck
import OstepHw.Fsck.Blocks
import OstepHw.Fsck.Dirs
import OstepHw.Fsck.Accept
import OstepHw.Fsck.Sound
import OstepHw.Fsck.Robust
import OstepHw.Fsck.Complete
import OstepHw.BTree.Contents
import OstepHw.BTree.Search
import OstepHw.BTree.Separators
import OstepHw.Lib.RunLength
import OstepHw.Pzip.EndToEnd
import OstepHw.Fsck.Contest3
import OstepHw.Fsck.Contest3Exact
import OstepHw.Fsck.Append
import OstepHw.Lib.Climb
import OstepHw.Fsck.Contest
import OstepHw.Fsck.ContestPass
import OstepHw.Fsck.ParentMismatch
import OstepHw.Fsck.ParentLoop
import OstepHw.Fsck.Misread
import OstepHw.Fsck.Contest3Loop
import OstepHw.Fsck.LoopCheck
import OstepHw.Lib.Count
import OstepHw.Lib.Machine
import OstepHw.Lib.CString
import OstepHw.Lib.Path
import OstepHw.Pzip.Schedule
import OstepHw.Wzip.RoundTrip
import OstepHw.Udp.RoundTrip
import OstepHw.Udp.Retry
import OstepHw.Webserver.Request
import OstepHw.Webserver.Overwrite
import OstepHw.Lib.Pieces
import OstepHw.Webserver.Headers
import OstepHw.Lottery.Tickets
import OstepHw.Lib.Lcg
import OstepHw.Lottery.Draw
import OstepHw.Threads.Size
import OstepHw.Lib.Program
import OstepHw.Lib.Handover
import OstepHw.Threads.Orphans
import OstepHw.Threads.Growproc
import OstepHw.Threads.TicketLock
import OstepHw.Semaphores.NsMutex
import OstepHw.Semaphores.RwLock
import OstepHw.Semaphores.Barrier
import OstepHw.Semaphores.FifoBarbershop
import OstepHw.Semaphores.Hilzers
import OstepHw.Semaphores.HilzersOrder
import OstepHw.Semaphores.HilzersEntry
import OstepHw.Semaphores.DiningSavages
import OstepHw.Lib.Registry
import OstepHw.Semaphores.Open
import OstepHw.Lib.Chain
import OstepHw.Concurrent.TwoLockQueue
import OstepHw.Concurrent.LinkedList
import OstepHw.Concurrent.HandOverHand
import OstepHw.Concurrent.ApproximateCounter
import OstepHw.Lib.BitPoly
import OstepHw.Checksum.Crc
import OstepHw.Lib.ErrorDetection
import OstepHw.Checksum.CrcErrors
import OstepHw.Checksum.CrcBuilds
import OstepHw.Vm.Protect
import OstepHw.Checksum.BlockChecksums
import OstepHw.Lib.Transducer
import OstepHw.Lib.Ownership
import OstepHw.EventServer.SelectCache
import OstepHw.EventServer.IoUring
import OstepHw.EventServer.Response
import OstepHw.Lib.Words
import OstepHw.Shell.Path
import OstepHw.Shell.Parse
import OstepHw.Lib.CInt
import OstepHw.Files.Tail
import OstepHw.Files.Find
import OstepHw.Memory.Vector
import OstepHw.Lib.Paging
import OstepHw.Lib.Recency
import OstepHw.PagingPolicy.Compare
import OstepHw.Semaphores.CigaretteSmokers
import OstepHw.Checksum.CrcOrig
import OstepHw.Threads.Wakeup
import OstepHw.Threads.Awake
import OstepHw.Lib.Sampling
import OstepHw.Lottery.Period
import OstepHw.Semaphores.ReaderWriter
import OstepHw.Lib.Separation
import OstepHw.BTree.Frees
