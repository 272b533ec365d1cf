/-
  `kern/fs/file.c`, with `files_closeall` of `kern/fs/fs.c` and `vfs_open`, `vfs_close` of
  `kern/fs/vfs/vfsfile.c`: the descriptors of a process.

  `V` are the inodes.  What the file systems answer is a parameter (`VfsAnswers`, `Chunk`), and what
  they do to their own data, also when a count of an inode becomes 0, is left out.
-/
import Ucore.Lib.Code
import Ucore.Libs.Error
import Mathlib.Logic.Function.Basic
import Mathlib.Data.Int.Order.Basic

namespace Ucore

open Function

/-- `FILES_STRUCT_NENTRY`: a `files_struct` has 48 bytes, a `struct file` 56. -/
def filesStructNentry : ℕ := (4096 - 48) / 56

inductive FdStatus where
  | none
  | init
  | opened
  | closed
  deriving DecidableEq

/-- `struct file` -/
structure File (V : Type) where
  status : FdStatus
  readable : Bool
  writable : Bool
  fd : ℕ
  pos : ℤ
  node : Option V
  openCount : ℤ

/-- The descriptors of the current process, and the counts of the inodes. -/
structure FileTable (V : Type) where
  fdArray : ℕ → File V
  refs : V → ℤ
  opens : V → ℤ

abbrev FileCode (V α : Type) := Code (FileTable V) Errno α

namespace FileTable

variable {V : Type} [DecidableEq V]

def setFile (fd : ℕ) (file : File V) : FileCode V Unit :=
  Code.modify fun t => { t with fdArray := update t.fdArray fd file }

/-! ## Inodes -/

def vopRefInc (node : V) : FileCode V Unit :=
  Code.modify fun t => { t with refs := update t.refs node (t.refs node + 1) }

def vopOpenInc (node : V) : FileCode V Unit :=
  Code.modify fun t => { t with opens := update t.opens node (t.opens node + 1) }

def vopRefDec (node : V) : FileCode V Unit := do
  let t ← Code.get
  Code.assert (0 < t.refs node)
  Code.modify fun t => { t with refs := update t.refs node (t.refs node - 1) }

def vopOpenDec (node : V) : FileCode V Unit := do
  let t ← Code.get
  Code.assert (0 < t.opens node)
  Code.modify fun t => { t with opens := update t.opens node (t.opens node - 1) }

/-- The access mode, and the flags that `file_open` and `vfs_open` read. -/
structure OpenFlags where
  readable : Bool
  writable : Bool
  trunc : Bool
  creat : Bool
  excl : Bool
  append : Bool

def oRdonly : OpenFlags := ⟨true, false, false, false, false, false⟩

/-- What `vfs_lookup`, `vfs_lookup_parent`, `vop_create`, `vop_open`, `vop_truncate` and `vop_fstat`
    return; the first three return an inode with a new reference. -/
structure VfsAnswers (V : Type) where
  lookup : Except Errno V
  parent : Except Errno V
  create : Except Errno V
  opened : Except Errno Unit
  truncate : Except Errno Unit
  size : Except Errno ℤ

/-- The inode that `vfs_open` opens. -/
def vfsFind (flags : OpenFlags) (a : VfsAnswers V) : FileCode V V :=
  match a.lookup with
  | .error e =>
    if e = .noEnt ∧ flags.creat = true then
      match a.parent with
      | .error e => Code.throw e
      | .ok dir => do
        vopRefInc dir
        match a.create with
        | .error e => Code.throw e
        | .ok node => do
          vopRefInc node
          pure node
    else Code.throw e
  | .ok node =>
    if flags.excl = true ∧ flags.creat = true then do
      vopRefInc node
      Code.throw .exists
    else do
      vopRefInc node
      pure node

def vfsOpen (flags : OpenFlags) (a : VfsAnswers V) : FileCode V V :=
  if flags.trunc = true ∧ flags.writable = false then Code.throw .inval
  else do
    let node ← vfsFind flags a
    match a.opened with
    | .error e => do
      vopRefDec node
      Code.throw e
    | .ok _ => do
      vopOpenInc node
      if flags.trunc = true ∨ flags.creat = true then
        match a.truncate with
        | .error e => do
          vopOpenDec node
          vopRefDec node
          Code.throw e
        | .ok _ => pure node
      else pure node

def vfsClose (node : V) : FileCode V Unit := do
  vopOpenDec node
  vopRefDec node

/-! ## The array -/

/-- `fd_array_alloc(NO_FD)`: the first free item. -/
def fdArrayAlloc : FileCode V ℕ := do
  let t ← Code.get
  match (List.range filesStructNentry).find? fun fd => (t.fdArray fd).status = .none with
  | none => Code.throw .maxOpen
  | some fd => do
    Code.assert ((t.fdArray fd).openCount = 0)
    setFile fd { t.fdArray fd with status := .init, node := none }
    pure fd

def fdArrayFree (fd : ℕ) : FileCode V Unit := do
  let t ← Code.get
  let file := t.fdArray fd
  Code.assert (file.status = .init ∨ file.status = .closed)
  Code.assert (file.openCount = 0)
  if file.status = .closed then
    match file.node with
    | none => Code.panic
    | some node => do
      vfsClose node
      setFile fd { file with status := .none }
  else setFile fd { file with status := .none }

def fdArrayAcquire (fd : ℕ) : FileCode V Unit := do
  let t ← Code.get
  let file := t.fdArray fd
  Code.assert (file.status = .opened)
  setFile fd { file with openCount := file.openCount + 1 }

def fdArrayRelease (fd : ℕ) : FileCode V Unit := do
  let t ← Code.get
  let file := t.fdArray fd
  Code.assert (file.status = .opened ∨ file.status = .closed)
  Code.assert (0 < file.openCount)
  setFile fd { file with openCount := file.openCount - 1 }
  if file.openCount - 1 = 0 then fdArrayFree fd else pure ()

def fdArrayOpen (fd : ℕ) : FileCode V Unit := do
  let t ← Code.get
  let file := t.fdArray fd
  Code.assert (file.status = .init ∧ file.node ≠ none)
  setFile fd { file with status := .opened, openCount := file.openCount + 1 }

def fdArrayClose (fd : ℕ) : FileCode V Unit := do
  let t ← Code.get
  let file := t.fdArray fd
  Code.assert (file.status = .opened)
  Code.assert (0 < file.openCount)
  setFile fd { file with status := .closed, openCount := file.openCount - 1 }
  if file.openCount - 1 = 0 then fdArrayFree fd else pure ()

def fd2file (fd : ℕ) : FileCode V (File V) := do
  let t ← Code.get
  if fd < filesStructNentry ∧ (t.fdArray fd).status = .opened ∧ (t.fdArray fd).fd = fd then
    pure (t.fdArray fd)
  else Code.throw .inval

/-! ## Files -/

/-- The position of a new descriptor; `node` is closed if it cannot be found. -/
def openPos (flags : OpenFlags) (a : VfsAnswers V) (node : V) (fd : ℕ) : FileCode V ℤ :=
  if flags.append = true then
    match a.size with
    | .error e => do
      vfsClose node
      fdArrayFree fd
      Code.throw e
    | .ok n => pure n
  else pure 0

def fileOpen (flags : OpenFlags) (a : VfsAnswers V) : FileCode V ℕ := do
  if flags.readable = false ∧ flags.writable = false then Code.throw .inval
  let fd ← fdArrayAlloc
  match ← Code.attempt (vfsOpen flags a) with
  | .error e => do
    fdArrayFree fd
    Code.throw e
  | .ok node => do
    let pos ← openPos flags a node fd
    let t ← Code.get
    setFile fd { t.fdArray fd with
      pos := pos, node := some node, readable := flags.readable, writable := flags.writable }
    fdArrayOpen fd
    pure fd

def fileClose (fd : ℕ) : FileCode V Unit := do
  let _ ← fd2file fd
  fdArrayClose fd

/-- `file_seek` with `LSEEK_SET`; `tryseek` is the answer of `vop_tryseek`. -/
def fileSeek (fd : ℕ) (pos : ℤ) (tryseek : Except Errno Unit) : FileCode V Unit := do
  let _ ← fd2file fd
  fdArrayAcquire fd
  match tryseek with
  | .error e => do
    fdArrayRelease fd
    Code.throw e
  | .ok _ => do
    let t ← Code.get
    setFile fd { t.fdArray fd with pos := pos }
    fdArrayRelease fd

/-- `vop_read` has copied some bytes, and returned an error or not. -/
structure Chunk where
  copied : ℕ
  ret : Except Errno Unit

/-- `file_read`: what it has copied, and what it returns. -/
def fileRead (fd : ℕ) (c : Chunk) : FileCode V (ℕ × Except Errno Unit) := do
  match ← Code.attempt (fd2file fd) with
  | .error e => pure (0, .error e)
  | .ok file =>
    if file.readable = false then pure (0, .error .inval)
    else do
      fdArrayAcquire fd
      let t ← Code.get
      if (t.fdArray fd).status = .opened then
        setFile fd { t.fdArray fd with pos := (t.fdArray fd).pos + c.copied }
      fdArrayRelease fd
      pure (c.copied, c.ret)

/-- `files_closeall`: descriptors 0 and 1 are skipped. -/
def filesCloseallFrom : List ℕ → FileCode V Unit
  | [] => pure ()
  | fd :: fds => do
    let t ← Code.get
    if (t.fdArray fd).status = .opened then fdArrayClose fd
    filesCloseallFrom fds

def filesCloseall : FileCode V Unit := filesCloseallFrom (List.range' 2 (filesStructNentry - 2))

end FileTable

end Ucore
