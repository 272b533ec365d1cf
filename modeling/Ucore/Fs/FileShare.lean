/-
  `kern/fs/file.c` and `kern/fs/fs.c` with any number of processes, which share a `files_struct` or
  have their own, and what `vfs_open`, `vfs_close`, `vfs_chdir`, `vfs_getcwd`, `do_fork` and
  `do_exit` do with it.

  A process is switched away from only where it waits: for the disk or a lock, in an operation of an
  inode.  What such an operation answers is a parameter (`Answers`).  The references that a lookup
  takes for its own use are left out, and so is what happens to an inode without references.
-/
import Ucore.Fs.File
import Ucore.Lib.Coop

namespace Ucore

open Function

/-- The `files_struct`s `S`, the processes `P`, and the counts of the inodes `V`. -/
structure SharedFiles (P S V : Type) where
  fdArray : S → ℕ → File V
  pwd : S → Option V
  filesCount : S → ℤ
  /-- It has been allocated, and not been freed. -/
  used : S → Bool
  filesp : P → Option S
  alive : P → Bool
  refCount : V → ℤ
  openCount : V → ℤ

/-- What the operations of inodes return: with `FileTable.VfsAnswers`, those that move bytes, those
    that return an error code only, and `vop_gettype`. -/
structure Answers (V : Type) extends FileTable.VfsAnswers V where
  moved : FileTable.Chunk
  ret : Except Errno Unit
  isDir : Except Errno Bool

abbrev FilesCode (P S V α : Type) := Coop (SharedFiles P S V) (Answers V) Errno α

namespace SharedFiles

open FileTable (OpenFlags)
open Coop (get modify assert ask attempt panic throw)

variable {P S V : Type} [DecidableEq P] [DecidableEq S] [DecidableEq V]

/-- One `files_struct`, as its own process sees it. -/
def table (a : S) (s : SharedFiles P S V) : FileTable V := ⟨s.fdArray a, s.refCount, s.openCount⟩

def putTable (a : S) (s : SharedFiles P S V) (t : FileTable V) : SharedFiles P S V :=
  { s with fdArray := update s.fdArray a t.fdArray, refCount := t.refs, openCount := t.opens }

def onTable {α : Type} (a : S) (x : FileCode V α) : FilesCode P S V α :=
  .atomic (Code.on (table a) (putTable a) x)

def setFile (a : S) (fd : ℕ) (file : File V) (s : SharedFiles P S V) : SharedFiles P S V :=
  { s with fdArray := update s.fdArray a (update (s.fdArray a) fd file) }

/-! ## Inodes -/

def vopRefInc (node : V) : FilesCode P S V Unit :=
  modify fun s => { s with refCount := update s.refCount node (s.refCount node + 1) }

def vopOpenInc (node : V) : FilesCode P S V Unit :=
  modify fun s => { s with openCount := update s.openCount node (s.openCount node + 1) }

/-- `vop_reclaim` and `vop_close` are called, and may wait. -/
def called : FilesCode P S V Unit := do
  let _ ← ask
  pure ()

def vopRefDec (node : V) : FilesCode P S V Unit := do
  let s ← get
  assert (0 < s.refCount node)
  modify fun s => { s with refCount := update s.refCount node (s.refCount node - 1) }
  if s.refCount node - 1 = 0 then called else pure ()

def vopOpenDec (node : V) : FilesCode P S V Unit := do
  let s ← get
  assert (0 < s.openCount node)
  modify fun s => { s with openCount := update s.openCount node (s.openCount node - 1) }
  if s.openCount node - 1 = 0 then called else pure ()

/-- The inode that `vfs_open` opens, and what `vop_open` answers.  No table of operations has a
    `vop_create`. -/
def vfsFind (flags : OpenFlags) : FilesCode P S V (V × Except Errno Unit) := do
  let a ← ask
  match a.lookup with
  | .error e =>
    if e = .noEnt ∧ flags.creat = true then do
      let b ← ask
      match b.parent with
      | .error e => throw e
      | .ok dir => do
        vopRefInc dir
        panic
    else throw e
  | .ok node => do
    vopRefInc node
    if flags.excl = true ∧ flags.creat = true then throw .exists else pure (node, a.opened)

def vfsOpen (flags : OpenFlags) : FilesCode P S V V :=
  if flags.trunc = true ∧ flags.writable = false then throw .inval
  else do
    let (node, opened) ← vfsFind flags
    match opened with
    | .error e => do
      vopRefDec node
      throw e
    | .ok _ => do
      vopOpenInc node
      if flags.trunc = true ∨ flags.creat = true then do
        let a ← ask
        match a.truncate with
        | .error e => do
          vopOpenDec node
          vopRefDec node
          throw e
        | .ok _ => pure node
      else pure node

def vfsClose (node : V) : FilesCode P S V Unit := do
  vopOpenDec node
  vopRefDec node

/-! ## The array -/

/-- The `files_struct` of the process. -/
def getFdArray (p : P) : FilesCode P S V S := do
  let s ← get
  match s.filesp p with
  | none => panic
  | some a => do
    assert (0 < s.filesCount a)
    pure a

/-- `fd_array_alloc` of a given descriptor. -/
def fdArrayAllocAt (fd : ℕ) : FileCode V ℕ := do
  let t ← Code.get
  if fd < filesStructNentry then
    if (t.fdArray fd).status = .none then do
      Code.assert ((t.fdArray fd).openCount = 0)
      FileTable.setFile fd { t.fdArray fd with status := .init, node := none }
      pure fd
    else Code.throw .busy
  else Code.throw .inval

/-- `fd_array_alloc`; `none` is `NO_FD`. -/
def fdArrayAlloc (p : P) (want : Option ℕ) : FilesCode P S V (S × ℕ) := do
  let a ← getFdArray p
  let fd ← onTable a (want.elim FileTable.fdArrayAlloc fdArrayAllocAt)
  pure (a, fd)

/-- `vfs_close(file->node)`, if the item is closed. -/
def closeNode (file : File V) : FilesCode P S V Unit :=
  if file.status = .closed then
    match file.node with
    | none => panic
    | some node => vfsClose node
  else pure ()

def fdArrayFree (a : S) (fd : ℕ) : FilesCode P S V Unit := do
  let s ← get
  let file := s.fdArray a fd
  assert (file.status = .init ∨ file.status = .closed)
  assert (file.openCount = 0)
  closeNode file
  modify fun s => s.setFile a fd { s.fdArray a fd with status := .none }

def fdArrayRelease (a : S) (fd : ℕ) : FilesCode P S V Unit := do
  let s ← get
  let file := s.fdArray a fd
  assert (file.status = .opened ∨ file.status = .closed)
  assert (0 < file.openCount)
  modify (setFile a fd { file with openCount := file.openCount - 1 })
  if file.openCount - 1 = 0 then fdArrayFree a fd else pure ()

def fdArrayClose (a : S) (fd : ℕ) : FilesCode P S V Unit := do
  let s ← get
  let file := s.fdArray a fd
  assert (file.status = .opened)
  assert (0 < file.openCount)
  modify (setFile a fd { file with status := .closed, openCount := file.openCount - 1 })
  if file.openCount - 1 = 0 then fdArrayFree a fd else pure ()

def fdArrayDup (to_ from_ : S × ℕ) : FilesCode P S V Unit := do
  let s ← get
  let file := s.fdArray from_.1 from_.2
  assert ((s.fdArray to_.1 to_.2).status = .init ∧ file.status = .opened)
  match file.node with
  | none => panic
  | some node => do
    vopRefInc node
    vopOpenInc node
    modify fun s => s.setFile to_.1 to_.2 { s.fdArray to_.1 to_.2 with
      pos := file.pos, readable := file.readable, writable := file.writable, node := some node }
    onTable to_.1 (FileTable.fdArrayOpen to_.2)

def fd2file (p : P) (fd : ℕ) : FilesCode P S V (S × File V) :=
  if fd < filesStructNentry then do
    let a ← getFdArray p
    let file ← onTable a (FileTable.fd2file fd)
    pure (a, file)
  else throw .inval

/-! ## Files -/

/-- The position of a new descriptor; `node` is closed if it cannot be found. -/
def openPos (flags : OpenFlags) (node : V) (a : S) (fd : ℕ) : FilesCode P S V ℤ :=
  if flags.append = true then do
    let ans ← ask
    match ans.size with
    | .error e => do
      vfsClose node
      fdArrayFree a fd
      throw e
    | .ok n => pure n
  else pure 0

def fileOpen (p : P) (flags : OpenFlags) : FilesCode P S V ℕ :=
  if flags.readable = false ∧ flags.writable = false then throw .inval
  else do
    let (a, fd) ← fdArrayAlloc p none
    match ← attempt (vfsOpen flags) with
    | .error e => do
      fdArrayFree a fd
      throw e
    | .ok node => do
      let pos ← openPos flags node a fd
      modify fun s => s.setFile a fd { s.fdArray a fd with
        pos := pos, node := some node, readable := flags.readable, writable := flags.writable }
      onTable a (FileTable.fdArrayOpen fd)
      pure fd

def fileClose (p : P) (fd : ℕ) : FilesCode P S V Unit := do
  let (a, _) ← fd2file p fd
  fdArrayClose a fd

def fileDup (p : P) (fd : ℕ) (want : Option ℕ) : FilesCode P S V ℕ := do
  let (a, _) ← fd2file p fd
  let to_ ← fdArrayAlloc p want
  fdArrayDup to_ (a, fd)
  pure to_.2

/-- `file->pos += copied`, if the item is still open. -/
def advance (a : S) (fd copied : ℕ) (s : SharedFiles P S V) : SharedFiles P S V :=
  if (s.fdArray a fd).status = .opened then
    s.setFile a fd { s.fdArray a fd with pos := (s.fdArray a fd).pos + copied }
  else s

/-- `file_read` and `file_write`. -/
def fileMove (may : File V → Bool) (p : P) (fd : ℕ) : FilesCode P S V (ℕ × Except Errno Unit) := do
  match ← attempt (fd2file p fd) with
  | .error e => pure (0, .error e)
  | .ok (a, file) =>
    if may file = false then pure (0, .error .inval)
    else do
      onTable a (FileTable.fdArrayAcquire fd)
      let ans ← ask
      modify (advance a fd ans.moved.copied)
      fdArrayRelease a fd
      pure (ans.moved.copied, ans.moved.ret)

def fileRead (p : P) (fd : ℕ) : FilesCode P S V (ℕ × Except Errno Unit) :=
  fileMove File.readable p fd

def fileWrite (p : P) (fd : ℕ) : FilesCode P S V (ℕ × Except Errno Unit) :=
  fileMove File.writable p fd

inductive Whence where
  | set
  | cur
  | end_
  | other
  deriving DecidableEq

/-- The position that `file_seek` asks for. -/
def seekPos (file : File V) (pos : ℤ) : Whence → FilesCode P S V ℤ
  | .set => pure pos
  | .cur => pure (pos + file.pos)
  | .end_ => do
    let ans ← ask
    match ans.size with
    | .error e => throw e
    | .ok n => pure (pos + n)
  | .other => throw .inval

/-- `vop_tryseek`, and `file->pos = pos`. -/
def trySeek (a : S) (fd : ℕ) (pos : ℤ) : FilesCode P S V Unit := do
  let ans ← ask
  match ans.ret with
  | .error e => throw e
  | .ok _ => modify fun s => s.setFile a fd { s.fdArray a fd with pos := pos }

def fileSeek (p : P) (fd : ℕ) (pos : ℤ) (whence : Whence) :
    FilesCode P S V (Except Errno Unit) := do
  let (a, file) ← fd2file p fd
  onTable a (FileTable.fdArrayAcquire fd)
  let ret ← attempt (do
    let pos ← seekPos file pos whence
    trySeek a fd pos)
  fdArrayRelease a fd
  pure ret

/-- `file_fstat`, `file_fsync` and `file_getdirentry`, which ask the inode only. -/
def fileAsk (p : P) (fd : ℕ) : FilesCode P S V (Except Errno Unit) := do
  let (a, _) ← fd2file p fd
  onTable a (FileTable.fdArrayAcquire fd)
  let ans ← ask
  fdArrayRelease a fd
  pure ans.ret

def fileFstat (p : P) (fd : ℕ) : FilesCode P S V (Except Errno Unit) := fileAsk p fd

def fileFsync (p : P) (fd : ℕ) : FilesCode P S V (Except Errno Unit) := fileAsk p fd

def fileGetdirentry (p : P) (fd : ℕ) : FilesCode P S V (Except Errno Unit) := fileAsk p fd

/-! ## `fs.c` -/

/-- `fd_array_init`; the other fields keep what the memory holds. -/
def fdArrayInit (t : ℕ → File V) : ℕ → File V := fun fd =>
  if fd < filesStructNentry then { t fd with openCount := 0, status := .none, fd := fd } else t fd

/-- `files_create`; `fresh` is the memory it gets. -/
def filesCreate (fresh : Option S) : FilesCode P S V S :=
  match fresh with
  | none => throw .noMem
  | some a => do
    modify fun s => { s with
      pwd := update s.pwd a none
      filesCount := update s.filesCount a 0
      used := update s.used a true
      fdArray := update s.fdArray a (fdArrayInit (s.fdArray a)) }
    pure a

/-- `if (file->status == FD_OPENED) fd_array_close(file)` -/
def closeOpened (a : S) (fd : ℕ) : FilesCode P S V Unit := do
  let s ← get
  if (s.fdArray a fd).status = .opened then fdArrayClose a fd else pure ()

def destroyFrom (a : S) : List ℕ → FilesCode P S V Unit
  | [] => pure ()
  | fd :: fds => do
    closeOpened a fd
    let s ← get
    assert ((s.fdArray a fd).status = .none)
    destroyFrom a fds

def releasePwd (pwd : Option V) : FilesCode P S V Unit :=
  match pwd with
  | none => pure ()
  | some node => vopRefDec node

def filesDestroy (a : S) : FilesCode P S V Unit := do
  let s ← get
  assert (s.filesCount a = 0)
  releasePwd (s.pwd a)
  destroyFrom a (List.range filesStructNentry)
  modify fun s => { s with used := update s.used a false }

def closeallFrom (a : S) : List ℕ → FilesCode P S V Unit
  | [] => pure ()
  | fd :: fds => do
    closeOpened a fd
    closeallFrom a fds

/-- `files_closeall` of the process: descriptors 0 and 1 are skipped. -/
def filesCloseall (p : P) : FilesCode P S V Unit := do
  let a ← getFdArray p
  closeallFrom a (List.range' 2 (filesStructNentry - 2))

def dupFile (to_ from_ : S) (fd : ℕ) : FilesCode P S V Unit := do
  let s ← get
  if (s.fdArray from_ fd).status = .opened then do
    modify fun s => s.setFile to_ fd { s.fdArray to_ fd with status := .init }
    fdArrayDup (to_, fd) (from_, fd)
  else pure ()

def dupFilesFrom (to_ from_ : S) : List ℕ → FilesCode P S V Unit
  | [] => pure ()
  | fd :: fds => do
    dupFile to_ from_ fd
    dupFilesFrom to_ from_ fds

def retainPwd (pwd : Option V) : FilesCode P S V Unit :=
  match pwd with
  | none => pure ()
  | some node => vopRefInc node

def dupFiles (to_ from_ : S) : FilesCode P S V Unit := do
  let s ← get
  assert (s.filesCount to_ = 0 ∧ 0 < s.filesCount from_)
  modify fun s => { s with pwd := update s.pwd to_ (s.pwd from_) }
  retainPwd (s.pwd from_)
  dupFilesFrom to_ from_ (List.range filesStructNentry)

/-! ## The working directory -/

/-- `vfs_set_curdir`; it waits for the lock of the `files_struct`. -/
def vfsSetCurdir (p : P) (dir : V) : FilesCode P S V Unit := do
  let ans ← ask
  let s ← get
  match s.filesp p with
  | none => panic
  | some a =>
    if s.pwd a = some dir then pure ()
    else
      match ans.isDir with
      | .error e => throw e
      | .ok false => throw .notDir
      | .ok true => do
        vopRefInc dir
        modify fun s => { s with pwd := update s.pwd a (some dir) }
        releasePwd (s.pwd a)

def vfsChdir (p : P) : FilesCode P S V (Except Errno Unit) := do
  let ans ← ask
  match ans.lookup with
  | .error e => throw e
  | .ok node => do
    vopRefInc node
    let ret ← attempt (vfsSetCurdir p node)
    vopRefDec node
    pure ret

def vfsGetcwd (p : P) : FilesCode P S V (Except Errno Unit) := do
  let s ← get
  match s.filesp p with
  | none => panic
  | some a =>
    match s.pwd a with
    | none => throw .noEnt
    | some node => do
      vopRefInc node
      let ans ← ask
      vopRefDec node
      pure ans.ret

/-! ## Processes -/

/-- The `files_struct` of a child: that of the process with `CLONE_FS`, or a copy. -/
def childFiles (old : S) (share : Bool) (fresh : Option S) : FilesCode P S V S :=
  if share = true then pure old
  else do
    let a ← filesCreate fresh
    dupFiles a old
    pure a

/-- `copy_files` -/
def copyFiles (p child : P) (share : Bool) (fresh : Option S) : FilesCode P S V Unit := do
  let s ← get
  match s.filesp p with
  | none => panic
  | some old => do
    let a ← childFiles old share fresh
    modify fun s => { s with
      filesCount := update s.filesCount a (s.filesCount a + 1)
      filesp := update s.filesp child (some a) }

/-- `do_fork` -/
def doFork (p child : P) (share : Bool) (fresh : Option S) : FilesCode P S V Unit := do
  copyFiles p child share fresh
  modify fun s => { s with alive := update s.alive child true }

/-- `put_files`; from here on, the process has no `files_struct`. -/
def putFiles (p : P) : FilesCode P S V Unit := do
  let s ← get
  match s.filesp p with
  | none => pure ()
  | some a => do
    modify fun s => { s with
      filesCount := update s.filesCount a (s.filesCount a - 1)
      filesp := update s.filesp p none }
    if s.filesCount a - 1 = 0 then filesDestroy a else pure ()

/-- `do_exit`; `put_files` is called only if the process has an `mm`. -/
def doExit (p : P) (mm : Bool) : FilesCode P S V Unit := do
  (if mm = true then putFiles p else pure ())
  modify fun s => { s with alive := update s.alive p false }

/-- What a process can ask for. -/
inductive Request (P S : Type) where
  | open (flags : OpenFlags)
  | close (fd : ℕ)
  | dup (fd : ℕ) (want : Option ℕ)
  | read (fd : ℕ)
  | write (fd : ℕ)
  | seek (fd : ℕ) (pos : ℤ) (whence : Whence)
  | fstat (fd : ℕ)
  | fsync (fd : ℕ)
  | getdirentry (fd : ℕ)
  | closeall
  | chdir
  | getcwd
  | fork (child : P) (share : Bool) (fresh : Option S)
  | exit (mm : Bool)

def discard {α : Type} (x : FilesCode P S V α) : FilesCode P S V Unit := do
  let _ ← x
  pure ()

def request (p : P) : Request P S → FilesCode P S V Unit
  | .open flags => discard (fileOpen p flags)
  | .close fd => fileClose p fd
  | .dup fd want => discard (fileDup p fd want)
  | .read fd => discard (fileRead p fd)
  | .write fd => discard (fileWrite p fd)
  | .seek fd pos whence => discard (fileSeek p fd pos whence)
  | .fstat fd => discard (fileFstat p fd)
  | .fsync fd => discard (fileFsync p fd)
  | .getdirentry fd => discard (fileGetdirentry p fd)
  | .closeall => filesCloseall p
  | .chdir => discard (vfsChdir p)
  | .getcwd => discard (vfsGetcwd p)
  | .fork child share fresh => doFork p child share fresh
  | .exit mm => doExit p mm

end SharedFiles

end Ucore
