/-
  The locks of the file system, function by function.

  Every function is reduced to the semaphores it takes and releases, in the order of the source:
  conditions, early returns and iteration counts are left open, and so is which inode a pointer
  denotes.  `M` are the `mm_struct`s, `F` the `files_struct`s and `N` the inodes, two inodes at the
  same address at different times being different.  Functions of devices other than `disk0`, and
  copies from and to user memory, take no semaphore.
-/
import Ucore.Lib.LockOrder

namespace Ucore

open LockOrder LockOrder.Cmd

/-- The semaphores that are used as locks. -/
inductive FsLock (M F N : Type) where
  | mmSem (mm : M)
  | filesSem (filesp : F)
  | vdevListSem
  | fsSem
  | sem (sin : N)
  | ioSem
  | disk0Sem
  | bootfsSem
  deriving DecidableEq

/-- What a function does to the locks. -/
abbrev Prog (M F N : Type) := Cmd (FsLock M F N)

variable {M F N : Type}

namespace Locks

/-! ## `dev_disk0.c`, `sfs_lock.c`, `sfs_io.c` -/

def lockDisk0 : Prog M F N := .down .disk0Sem
def unlockDisk0 : Prog M F N := .up .disk0Sem

def disk0Io : Prog M F N := opt (block [lockDisk0, .skip, unlockDisk0])

def lockSfsFs : Prog M F N := .down .fsSem
def unlockSfsFs : Prog M F N := .up .fsSem
def lockSfsIo : Prog M F N := .down .ioSem
def unlockSfsIo : Prog M F N := .up .ioSem

def sfsRwblockNolock : Prog M F N := disk0Io

def sfsRwblock : Prog M F N := block [lockSfsIo, .loop sfsRwblockNolock, unlockSfsIo]
def sfsRblock : Prog M F N := sfsRwblock
def sfsWblock : Prog M F N := sfsRwblock

def sfsRbuf : Prog M F N := block [lockSfsIo, sfsRwblockNolock, unlockSfsIo]

def sfsWbuf : Prog M F N :=
  block [lockSfsIo, block [sfsRwblockNolock, opt sfsRwblockNolock], unlockSfsIo]

def sfsSyncSuper : Prog M F N := block [lockSfsIo, sfsRwblockNolock, unlockSfsIo]
def sfsSyncFreemap : Prog M F N := sfsWblock
def sfsClearBlock : Prog M F N := block [lockSfsIo, .loop sfsRwblockNolock, unlockSfsIo]

/-! ## `sfs_inode.c`, `inode.c` -/

def lockSin (sin : N) : Prog M F N := .down (.sem sin)
def unlockSin (sin : N) : Prog M F N := .up (.sem sin)

def sfsBlockAlloc : Prog M F N := opt sfsClearBlock

def sfsBmapGetSubNolock : Prog M F N :=
  block [choice sfsRbuf (opt sfsBlockAlloc), opt (block [sfsBlockAlloc, opt sfsWbuf])]

def sfsBmapGetNolock : Prog M F N := choice (opt sfsBlockAlloc) sfsBmapGetSubNolock
def sfsBmapFreeSubNolock : Prog M F N := block [sfsRbuf, opt sfsWbuf]
def sfsBmapFreeNolock : Prog M F N := opt sfsBmapFreeSubNolock
def sfsBmapLoadNolock : Prog M F N := sfsBmapGetNolock
def sfsBmapTruncateNolock : Prog M F N := sfsBmapFreeNolock

def sfsDirentReadNolock : Prog M F N := block [sfsBmapLoadNolock, opt sfsRbuf]
def sfsDirentSearchNolock : Prog M F N := .loop sfsDirentReadNolock
def sfsDirentFindinoNolock : Prog M F N := .loop sfsDirentReadNolock
def sfsGetdirentrySubNolock : Prog M F N := .loop sfsDirentReadNolock

/-- The two `unlock_sfs_fs` end the two ways out. -/
def sfsLoadInode : Prog M F N := block [lockSfsFs, opt sfsRbuf, unlockSfsFs]

def sfsLookupOnce (sin : N) : Prog M F N :=
  block [block [lockSin sin, sfsDirentSearchNolock, unlockSin sin], opt sfsLoadInode]

def sfsBufOp (write : Bool) : Prog M F N := if write then sfsWbuf else sfsRbuf
def sfsBlockOp (write : Bool) : Prog M F N := if write then sfsWblock else sfsRblock

def sfsIoNolock (write : Bool) : Prog M F N :=
  block [opt (block [sfsBmapLoadNolock, opt (sfsBufOp write)]),
    .loop (block [sfsBmapLoadNolock, opt (sfsBlockOp write)]),
    opt (block [sfsBmapLoadNolock, opt (sfsBufOp write)])]

def sfsIo (sin : N) (write : Bool) : Prog M F N :=
  block [lockSin sin, sfsIoNolock write, unlockSin sin]

def sfsRead (node : N) : Prog M F N := sfsIo node false
def sfsWrite (node : N) : Prog M F N := sfsIo node true

def sfsFsync (node : N) : Prog M F N := opt (block [lockSin node, opt sfsWbuf, unlockSin node])

def sfsClose (node : N) : Prog M F N := sfsFsync node

def sfsTruncfile (node : N) : Prog M F N :=
  opt (block [lockSin node, choice (.loop sfsBmapLoadNolock) (.loop sfsBmapTruncateNolock),
    unlockSin node])

def sfsTryseek (node : N) : Prog M F N := opt (sfsTruncfile node)

def sfsGetdirentry (node : N) : Prog M F N :=
  opt (block [lockSin node, sfsGetdirentrySubNolock, unlockSin node])

/-- The ways out before `sfs_remove_links` all end with `unlock_sfs_fs`, too. -/
def sfsReclaim (node : N) : Prog M F N :=
  block [lockSfsFs, opt (block [opt (sfsTruncfile node), opt (sfsFsync node)]), unlockSfsFs]

def inodeRefDec (node : N) : Prog M F N := opt (sfsReclaim node)

def inodeOpenDec (node : N) : Prog M F N := opt (sfsClose node)

/-- One pass of the loop looks `..` up in `node`, and the inode number of `node` in `parent`. -/
def sfsNamefile : Prog M F N :=
  opt (block [
    .loop (.pick fun node : N => block [sfsLookupOnce node,
      opt (block [inodeRefDec node, .pick fun parent : N =>
        choice (inodeRefDec node)
          (block [lockSin parent, sfsDirentFindinoNolock, unlockSin parent])])]),
    .pick fun node : N => opt (inodeRefDec node)])

def sfsLookup (node : N) : Prog M F N :=
  choice (inodeRefDec node) (block [sfsLookupOnce node, inodeRefDec node])

/-! ## `sfs_fs.c` -/

def sfsSync : Prog M F N :=
  block [block [lockSfsFs, .loop (.pick fun node : N => sfsFsync node), unlockSfsFs],
    opt (block [sfsSyncSuper, opt sfsSyncFreemap])]

def sfsGetRoot : Prog M F N := sfsLoadInode
def sfsCleanup : Prog M F N := .loop sfsSync

/-- The mount reads without `io_sem`. -/
def sfsDoMount : Prog M F N := .loop disk0Io

/-! ## `inode.h`: the operations of an inode, of sfs or of a device -/

def vopLookup (node : N) : Prog M F N := opt (sfsLookup node)
def vopTruncate (node : N) : Prog M F N := sfsTruncfile node
def vopTryseek (node : N) : Prog M F N := opt (sfsTryseek node)
def vopRead (node : N) : Prog M F N := choice (sfsRead node) disk0Io
def vopWrite (node : N) : Prog M F N := choice (sfsWrite node) disk0Io
def vopFsync (node : N) : Prog M F N := sfsFsync node
def vopGetdirentry (node : N) : Prog M F N := sfsGetdirentry node

/-! ## `vfs.c`, `vfsdev.c`, `vfslookup.c`, `vfspath.c`, `vfsfile.c` -/

def lockBootfs : Prog M F N := .down .bootfsSem
def unlockBootfs : Prog M F N := .up .bootfsSem
def lockVdevList : Prog M F N := .down .vdevListSem
def unlockVdevList : Prog M F N := .up .vdevListSem
def lockFiles (filesp : F) : Prog M F N := .down (.filesSem filesp)
def unlockFiles (filesp : F) : Prog M F N := .up (.filesSem filesp)

def changeBootfs : Prog M F N :=
  block [block [lockBootfs, .skip, unlockBootfs], opt (.pick fun old : N => inodeRefDec old)]

def vfsGetBootfs : Prog M F N := opt (block [lockBootfs, .skip, unlockBootfs])

def vfsCleanup : Prog M F N :=
  opt (block [lockVdevList, .loop (opt sfsCleanup), unlockVdevList])

def vfsGetRoot : Prog M F N := opt (block [lockVdevList, opt sfsGetRoot, unlockVdevList])

def vfsDoAdd : Prog M F N := opt (block [lockVdevList, .skip, unlockVdevList])

def vfsMount : Prog M F N := block [lockVdevList, opt sfsDoMount, unlockVdevList]

def vfsUnmount : Prog M F N := block [lockVdevList, opt sfsSync, unlockVdevList]

def vfsUnmountAll : Prog M F N :=
  opt (block [lockVdevList, .loop (opt sfsSync), unlockVdevList])

/-- From the current directory, the root of a device, the boot file system, or the root of the
    current file system. -/
def getDevice : Prog M F N :=
  choice .skip (choice vfsGetRoot (choice vfsGetBootfs
    (opt (block [sfsGetRoot, .pick fun node : N => inodeRefDec node]))))

def vfsLookup : Prog M F N :=
  block [getDevice, opt (.pick fun node : N => block [vopLookup node, inodeRefDec node])]

def vfsLookupParent : Prog M F N := getDevice

def vfsSetCurdir (filesp : F) : Prog M F N :=
  block [lockFiles filesp, opt (.pick fun oldDir : N => inodeRefDec oldDir), unlockFiles filesp]

def vfsChdir (filesp : F) : Prog M F N :=
  block [vfsLookup, opt (block [vfsSetCurdir filesp, .pick fun node : N => inodeRefDec node])]

def vfsSetBootfs (filesp : F) : Prog M F N := block [opt (vfsChdir filesp), opt changeBootfs]

def vfsGetcwd : Prog M F N :=
  opt (block [opt sfsNamefile, .pick fun node : N => inodeRefDec node])

def vfsOpen : Prog M F N :=
  block [vfsLookup, opt vfsLookupParent, opt (.pick fun node : N =>
    choice (inodeRefDec node)
      (opt (block [vopTruncate node, opt (block [inodeOpenDec node, inodeRefDec node])])))]

def vfsClose (node : N) : Prog M F N := block [inodeOpenDec node, inodeRefDec node]

/-! ## `file.c`, `fs.c` -/

def fdArrayFree : Prog M F N := opt (.pick fun node : N => vfsClose node)
def fdArrayRelease : Prog M F N := opt fdArrayFree
def fdArrayClose : Prog M F N := opt fdArrayFree

def fileOpen : Prog M F N :=
  opt (block [vfsOpen, choice fdArrayFree
    (opt (block [.pick fun node : N => vfsClose node, fdArrayFree]))])

def fileClose : Prog M F N := opt fdArrayClose

/-- `file_read`, `file_write`, …: an operation on the inode of an acquired file. -/
def fileOp (op : N → Prog M F N) : Prog M F N :=
  opt (block [opt (.pick fun node : N => op node), fdArrayRelease])

def fileRead : Prog M F N := fileOp vopRead
def fileWrite : Prog M F N := fileOp vopWrite
def fileSeek : Prog M F N := fileOp vopTryseek
def fileFstat : Prog M F N := fileOp fun _ => .skip
def fileFsync : Prog M F N := fileOp vopFsync
def fileGetdirentry : Prog M F N := fileOp vopGetdirentry
def fileDup : Prog M F N := .skip

def filesDestroy : Prog M F N :=
  block [opt (.pick fun pwd : N => inodeRefDec pwd), .loop (opt fdArrayClose)]

def filesCloseall : Prog M F N := .loop (opt fdArrayClose)

/-! ## `sysfile.c` -/

/-- `lock_mm`, for a process that has an `mm`. -/
def lockMm : Option M → Prog M F N
  | none => .skip
  | some mm => .down (.mmSem mm)

def unlockMm : Option M → Prog M F N
  | none => .skip
  | some mm => .up (.mmSem mm)

section
variable (mm : Option M) (filesp : F)

/-- A copy from or to user memory. -/
def copyUser : Prog M F N := block [lockMm mm, .skip, unlockMm mm]

def copyPath : Prog M F N := opt (copyUser mm)

def sysfileOpen : Prog M F N := block [copyPath mm, opt fileOpen]
def sysfileClose : Prog M F N := fileClose
def sysfileRead : Prog M F N := opt (.loop (block [fileRead, opt (copyUser mm)]))
def sysfileWrite : Prog M F N := opt (.loop (block [copyUser mm, opt fileWrite]))
def sysfileSeek : Prog M F N := fileSeek
def sysfileFstat : Prog M F N := block [fileFstat, opt (copyUser mm)]
def sysfileFsync : Prog M F N := fileFsync
def sysfileChdir : Prog M F N := block [copyPath mm, opt (vfsChdir filesp)]

/-- The only one that calls the file system with `mm_sem`. -/
def sysfileGetcwd : Prog M F N := opt (block [lockMm mm, opt vfsGetcwd, unlockMm mm])

def sysfileGetdirentry : Prog M F N :=
  opt (block [copyUser mm, opt (block [fileGetdirentry, opt (copyUser mm)])])

def sysfileDup : Prog M F N := fileDup

/-! ## `proc.c` -/

def copyMm : Prog M F N := opt (block [lockMm mm, .skip, unlockMm mm])
def copyFiles : Prog M F N := opt filesDestroy
def putFiles : Prog M F N := opt filesDestroy

def doFork : Prog M F N := opt (block [copyMm mm, opt copyFiles])
def doExit : Prog M F N := opt putFiles

/-- The process has no `mm` while it loads. -/
def loadIcode : Prog M F N := .loop (block [sysfileSeek, opt (sysfileRead none)])

def doExecve : Prog M F N :=
  opt (block [copyUser mm, opt (block [filesCloseall,
    block [sysfileOpen mm, block [opt loadIcode, opt doExit]]])])

end

/-! ## System calls -/

/-- What a process may ask of the file system. -/
inductive FsCall where
  | open
  | close
  | read
  | write
  | seek
  | fstat
  | fsync
  | chdir
  | getcwd
  | getdirentry
  | dup
  | fork
  | exec
  | exit
  | sync
  | cleanup
  | addDev
  | mount
  | unmount
  | unmountAll
  | setBootfs

def fsCall (mm : Option M) (filesp : F) : FsCall → Prog M F N
  | .open => sysfileOpen mm
  | .close => sysfileClose
  | .read => sysfileRead mm
  | .write => sysfileWrite mm
  | .seek => sysfileSeek
  | .fstat => sysfileFstat mm
  | .fsync => sysfileFsync
  | .chdir => sysfileChdir mm filesp
  | .getcwd => sysfileGetcwd mm
  | .getdirentry => sysfileGetdirentry mm
  | .dup => sysfileDup
  | .fork => doFork mm
  | .exec => doExecve mm
  | .exit => doExit
  | .sync => sfsSync
  | .cleanup => vfsCleanup
  | .addDev => vfsDoAdd
  | .mount => vfsMount
  | .unmount => vfsUnmount
  | .unmountAll => vfsUnmountAll
  | .setBootfs => vfsSetBootfs filesp

/-- A process makes any calls, with the `mm` and the open files that it has at the time. -/
def process : Prog M F N :=
  .loop (.pick fun mm : Option M => .pick fun filesp : F => .pick fun c : FsCall =>
    fsCall mm filesp c)

end Locks

end Ucore
