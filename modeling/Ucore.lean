import Ucore.Mm.Heap
import Ucore.Lib.HandOff
import Ucore.Lib.Chain
import Ucore.Process.WaitRun
import Ucore.Sync.SemRun
import Ucore.Sync.MonitorRun
import Ucore.Schedule.SchedRun
import Ucore.Fs.InodeCacheRun
import Ucore.Fs.LockRanks
import Ucore.Fs.FileIo
import Ucore.Fs.BlockCountRun
import Ucore.Mm.PageRun
import Ucore.Mm.Unmap
import Ucore.Mm.AllocPage
import Ucore.Mm.UserSpace
import Ucore.Lab5.LoadRun
import Ucore.Process.LoadIcode
import Ucore.Process.LoadSegment
import Ucore.Process.LoadArgs
import Ucore.Process.LoadRun
import Ucore.Mm.MmMap
import Ucore.Mm.CopyString
import Ucore.Lab6.StrideOrder
import Ucore.Mm.SlobRun
import Ucore.Mm.KmallocSizes
import Ucore.Mm.BuddyRun
import Ucore.Mm.SlubRun
import Ucore.Process.ExitRun
import Ucore.Process.Exec
import Ucore.Process.PidRun
import Ucore.Lab2.BestFit
import Ucore.Lab4.Fork
import Ucore.Fs.DevStdinRun
import Ucore.Fs.CleanInodeRun
import Ucore.Tools.MksfsRun
import Ucore.Libs.SkewHeap
import Ucore.Process.LoadReach
import Ucore.Process.CopyMm
import Ucore.Fs.BlockMapErrors
import Ucore.Fs.Truncate
import Ucore.Fs.Listing
import Ucore.Fs.Namefile
import Ucore.Fs.UserFile
import Ucore.Fs.SysWrite
import Ucore.Fs.BitmapRun
import Ucore.Lab6.Sjf
import Ucore.Lab5.Schedule
import Ucore.Libs.Strtol
import Ucore.Libs.Snprintf
import Ucore.Libs.PrintNum
import Ucore.Debug.Kmonitor
import Ucore.User.Sh
import Ucore.Fs.Disk0
import Ucore.Driver.Dtb
import Ucore.Libs.Memmove
import Ucore.Sync.PhilosophersCond
import Ucore.Fs.Sync
import Ucore.Fs.VfsOpen
import Ucore.Fs.FileShareRun
import Ucore.Fs.FileShareAlone
