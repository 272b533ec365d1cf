/-
  `kern/fs/vfs`: `vfslookup.c`, `vfs_open` of `vfsfile.c`, `vfs_get_root`, `vfs_get_curdir` and
  `vfs_get_bootfs`, `inode.c`, with `sfs_lookup`, the `vop_open` of sfs and `dev.c`.

  `F` are the file systems that are mounted and `D` the devices.  A path is in a buffer, which is
  given as the list of its bytes, and is cut in place.  An inode of a file system is there if it is
  in memory, with its reference count; an inode is that of a directory or of a regular file, as
  `sfs_get_ops` asserts.  Only the tables of operations that these functions call are modelled.

  * `scanLoop`, `getDevice`: how a path is read, and where a lookup starts;
  * `vfsLookup`, `vfsLookupParent`, `vfsOpen`.
-/
import Ucore.Fs.InodeRefs

namespace Ucore

/-- An inode: of a file system, by its number, or of a device. -/
inductive Vnode (F D : Type) where
  | file (fs : F) (ino : ℕ)
  | device (d : D)
  deriving DecidableEq

/-- `vfs_dev_t`; `devnode` is NULL only for a file system that stays mounted, and not read there. -/
structure VfsDev (F D : Type) where
  devname : List UInt8
  devnode : D
  fs : Option F
  mountable : Bool

/-- `vdev_list`, `bootfs_node`, the `pwd` of the current process, the counts of the inodes, the file
    systems, and the buffer with the path. -/
structure Vfs (F D : Type) where
  vdevList : List (VfsDev F D)
  bootfs : Option (Vnode F D)
  pwd : Option (Vnode F D)
  devRefs : D → ℤ
  opens : Vnode F D → ℤ
  fs : F → Sfs
  path : List UInt8

/-- The string at an offset of a buffer. -/
def cstr (path : List UInt8) (i : ℕ) : List UInt8 := (path.drop i).takeWhile (· ≠ 0)

def chSlash : UInt8 := 47

def chColon : UInt8 := 58

def maxInodeCount : ℤ := 0x10000

/-! ## Functions of sfs -/

section
variable (dev : Device)

/-- `sfs_lookup` -/
def sfsLookup (ino : ℕ) (path : List UInt8) : K ℕ := do
  Code.assert (path ≠ [] ∧ path.head? ≠ some chSlash)
  vopRefInc ino
  let s ← Code.get
  if (s.din ino).type ≠ sfsTypeDir then do
    vopRefDec dev ino
    Code.throw .notDir
  else do
    match ← Code.attempt (lookupOnce dev ino path) with
    | .error ret => do
      vopRefDec dev ino
      Code.throw ret
    | .ok subnode => do
      vopRefDec dev ino
      pure subnode

end

abbrev V (F D α : Type) : Type := Code (Vfs F D) Errno α

namespace Vfs

/-! ## Flags -/

def oRdonly : BitVec 32 := 0
def oWronly : BitVec 32 := 1
def oAccmode : BitVec 32 := 3
def oCreat : BitVec 32 := 4
def oExcl : BitVec 32 := 8
def oTrunc : BitVec 32 := 0x10
def oAppend : BitVec 32 := 0x20

/-- The flags that `vfs_open` does not refuse. -/
def FlagsOk (flags : BitVec 32) : Prop :=
  flags &&& oAccmode ≠ oAccmode ∧ (flags &&& oTrunc ≠ 0 → flags &&& oAccmode ≠ oRdonly)

instance (flags : BitVec 32) : Decidable (FlagsOk flags) := inferInstanceAs (Decidable (_ ∧ _))

/-- `sfs_opendir` -/
def sfsOpendir (flags : BitVec 32) : Option Errno :=
  if flags &&& oAccmode ≠ oRdonly ∨ flags &&& oAppend ≠ 0 then some .isDir else none

/-- `stdin_open` -/
def stdinOpen (flags : BitVec 32) : Option Errno :=
  if flags ≠ oRdonly then some .inval else none

/-- `stdout_open` -/
def stdoutOpen (flags : BitVec 32) : Option Errno :=
  if flags ≠ oWronly then some .inval else none

/-- `dev_open`; `dOpen` is the `d_open` of the device. -/
def devOpen (dOpen : BitVec 32 → Option Errno) (flags : BitVec 32) : Option Errno :=
  if flags &&& (oCreat ||| oTrunc ||| oExcl ||| oAppend) ≠ 0 then some .inval else dOpen flags

/-! ## Counts -/

variable {F D : Type} [DecidableEq F] [DecidableEq D]

/-- `ref_count`; an inode that is not in memory has no references. -/
def refs (s : Vfs F D) : Vnode F D → ℤ
  | .file f i => (s.fs f).refs i
  | .device d => s.devRefs d

/-- A function on a file system. -/
def onFs {α : Type} (f : F) (x : K α) : V F D α :=
  Code.on (fun s => s.fs f) (fun s u => { s with fs := Function.update s.fs f u }) x

/-! ## `inode.c` -/

def inodeCheck (node : Vnode F D) : V F D Unit := do
  let s ← Code.get
  Code.assert (s.opens node ≤ s.refs node ∧ 0 ≤ s.opens node)
  Code.assert (s.refs node < maxInodeCount ∧ s.opens node < maxInodeCount)

def vopRefInc : Vnode F D → V F D Unit
  | .file f i => onFs f (Ucore.vopRefInc i)
  | .device d => Code.modify fun s =>
    { s with devRefs := Function.update s.devRefs d (s.devRefs d + 1) }

def vopOpenInc (node : Vnode F D) : V F D Unit :=
  Code.modify fun s => { s with opens := Function.update s.opens node (s.opens node + 1) }

section
variable (dev : F → Device)

/-- `vop_ref_dec`.  The check of `vop_reclaim`, which is called for the last reference, is made
    first; a device does not have `vop_reclaim`. -/
def vopRefDec : Vnode F D → V F D Unit
  | .file f i => do
    let s ← Code.get
    Code.assert (s.refs (.file f i) = 1 → s.opens (.file f i) = 0)
    onFs f (Ucore.vopRefDec (dev f) i)
  | .device d => do
    let s ← Code.get
    Code.assert (0 < s.devRefs d)
    Code.modify fun s => { s with devRefs := Function.update s.devRefs d (s.devRefs d - 1) }
    if s.devRefs d - 1 = 0 then Code.panic else pure ()

/-- `vop_close`; the `d_close` of the drivers returns 0. -/
def vopClose : Vnode F D → V F D Unit
  | .file f i => do
    inodeCheck (.file f i)
    onFs f (fsync (dev f) i)
  | .device d => inodeCheck (.device d)

/-- `vop_open_dec`; an error of `vop_close` is only reported. -/
def vopOpenDec (node : Vnode F D) : V F D Unit := do
  let s ← Code.get
  Code.assert (0 < s.opens node)
  Code.modify fun s => { s with opens := Function.update s.opens node (s.opens node - 1) }
  if s.opens node - 1 = 0 then do
    let _ ← Code.attempt (vopClose dev node)
    pure ()
  else pure ()

/-- `vop_lookup`: `sfs_lookup` of a directory, or `dev_lookup`. -/
def vopLookup (node : Vnode F D) (path : List UInt8) : V F D (Vnode F D) :=
  match node with
  | .file f i => do
    let s ← Code.get
    Code.assert (((s.fs f).din i).type = sfsTypeDir)
    inodeCheck node
    let subnode ← onFs f (sfsLookup (dev f) i path)
    pure (.file f subnode)
  | .device _ => do
    inodeCheck node
    if path ≠ [] then Code.throw .noEnt
    else do
      vopRefInc node
      pure node

/-- `vop_truncate`: `sfs_truncfile`; directories and devices do not have it. -/
def vopTruncate (node : Vnode F D) (len : ℤ) : V F D Unit :=
  match node with
  | .file f i => do
    let s ← Code.get
    Code.assert (((s.fs f).din i).type ≠ sfsTypeDir)
    inodeCheck node
    onFs f (truncfile (dev f) i len)
  | .device _ => Code.panic

/-- `vop_create`, which no table of operations has. -/
def vopCreate (_ : Vnode F D) (_ : List UInt8) (_ : Bool) : V F D (Vnode F D) := Code.panic

/-! ## `vfsdev.c`, `vfspath.c`, `vfs.c` -/

/-- `fsop_get_root`: `sfs_get_root` -/
def fsopGetRoot (f : F) : V F D (Vnode F D) := do
  match ← Code.attempt (onFs f (loadInode (dev f) sfsBlknRoot)) with
  | .ok () => pure (.file f sfsBlknRoot)
  | .error _ => Code.panic

def vfsGetRoot (devname : List UInt8) : V F D (Vnode F D) := do
  let s ← Code.get
  match s.vdevList.find? fun vdev => devname = vdev.devname with
  | none => Code.throw .noDev
  | some vdev =>
    match vdev.fs with
    | some f => fsopGetRoot dev f
    | none =>
      if vdev.mountable = false then do
        vopRefInc (.device vdev.devnode)
        pure (.device vdev.devnode)
      else Code.throw .naDev

end

/-- A node that may be NULL, with a new reference. -/
def takeNode (node : Option (Vnode F D)) : V F D (Vnode F D) :=
  match node with
  | some node => do
    vopRefInc node
    pure node
  | none => Code.throw .noEnt

def vfsGetCurdir : V F D (Vnode F D) := do
  let s ← Code.get
  takeNode s.pwd

def vfsGetBootfs : V F D (Vnode F D) := do
  let s ← Code.get
  takeNode s.bootfs

/-! ## `vfslookup.c` -/

/-- The loop of `get_device` from index `i` on: `slash` and `colon`. -/
def scanLoop : List UInt8 → ℤ → ℤ × ℤ
  | [], _ => (-1, -1)
  | c :: cs, i =>
    if c = 0 then (-1, -1)
    else if c = chColon then (-1, i)
    else if c = chSlash then (i, -1)
    else scanLoop cs (i + 1)

/-- `while (path[++ i] == '/')` -/
def skipSlashes (path : List UInt8) (i : ℕ) : ℕ :=
  i + 1 + ((path.drop (i + 1)).takeWhile (· = chSlash)).length

section
variable (dev : F → Device)

/-- `get_device` for `:path` -/
def curdirRoot : V F D (Vnode F D) := do
  match ← vfsGetCurdir with
  | .device _ => Code.panic
  | .file f i => do
    let root ← fsopGetRoot dev f
    vopRefDec dev (.file f i)
    pure root

/-- `get_device`; returns the offset of `*subpath` in the buffer, and `*node_store`. -/
def getDevice : V F D (ℕ × Vnode F D) := do
  let s ← Code.get
  let (slash, colon) := scanLoop s.path 0
  if colon < 0 ∧ slash ≠ 0 then do
    let node ← vfsGetCurdir
    pure (0, node)
  else if 0 < colon then do
    let path := s.path.set colon.toNat 0
    Code.modify fun s => { s with path := path }
    let node ← vfsGetRoot dev (cstr path 0)
    pure (skipSlashes path colon.toNat, node)
  else if s.path.head? = some chSlash then do
    let node ← vfsGetBootfs
    pure (skipSlashes s.path 0, node)
  else do
    Code.assert (s.path.head? = some chColon)
    let node ← curdirRoot dev
    pure (skipSlashes s.path 0, node)

def vfsLookup : V F D (Vnode F D) := do
  let (subpath, node) ← getDevice dev
  let s ← Code.get
  if cstr s.path subpath ≠ [] then do
    match ← Code.attempt (vopLookup dev node (cstr s.path subpath)) with
    | .error ret => do
      vopRefDec dev node
      Code.throw ret
    | .ok subnode => do
      vopRefDec dev node
      pure subnode
  else pure node

/-- `vfs_lookup_parent`; returns the offset of `*endp`, and `*node_store`. -/
def vfsLookupParent : V F D (ℕ × Vnode F D) := getDevice dev

/-! ## `vfs_open` -/

variable (dOpen : D → BitVec 32 → Option Errno)

def vopOpen (node : Vnode F D) (flags : BitVec 32) : V F D Unit := do
  inodeCheck node
  let s ← Code.get
  let ret := match node with
    | .file f i => if ((s.fs f).din i).type = sfsTypeDir then sfsOpendir flags else none
    | .device d => devOpen (dOpen d) flags
  match ret with
  | none => pure ()
  | some ret => Code.throw ret

/-- `vfs_open` from where it has the inode. -/
def openNode (flags : BitVec 32) (node : Vnode F D) : V F D (Vnode F D) := do
  match ← Code.attempt (vopOpen dOpen node flags) with
  | .error ret => do
    vopRefDec dev node
    Code.throw ret
  | .ok () => do
    vopOpenInc node
    if flags &&& oTrunc ≠ 0 ∨ flags &&& oCreat ≠ 0 then do
      match ← Code.attempt (vopTruncate dev node 0) with
      | .error ret => do
        vopOpenDec dev node
        vopRefDec dev node
        Code.throw ret
      | .ok () => pure node
    else pure node

def vfsOpen (flags : BitVec 32) : V F D (Vnode F D) :=
  if FlagsOk flags then do
    match ← Code.attempt (vfsLookup dev) with
    | .error ret =>
      if ret = .noEnt ∧ flags &&& oCreat ≠ 0 then do
        let (name, dir) ← vfsLookupParent dev
        let s ← Code.get
        let node ← vopCreate dir (cstr s.path name) (flags &&& oExcl ≠ 0)
        openNode dev dOpen flags node
      else Code.throw ret
    | .ok node =>
      if flags &&& oExcl ≠ 0 ∧ flags &&& oCreat ≠ 0 then Code.throw .exists
      else openNode dev dOpen flags node
  else Code.throw .inval

end

end Vfs

end Ucore
